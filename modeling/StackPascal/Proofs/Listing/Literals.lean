import StackPascal.Proofs.CleanAnalysis
import StackPascal.Proofs.Listing.Sources

/-!
The literals of a program, from its text to the tree that code is generated for.

* `PlainValues`: the real ones among some literals are numbers;
* `plain_of_parse`: so are those of every program that parses;
* `literals_liftExpr`, `literals_liftStmt`: closure conversion adds no literals;
* `plainValues_lift`: the literals of a converted program are those of its text, without the
  sizes of parameters.
-/

namespace StackPascal

/-! ## Numbers -/

def Literal.Plain : Literal → Prop
  | .real x => x.magnitude ≤ Binary64.infinity
  | .int _ | .string _ => True

/-- All of the literals are plain, wherever they stand. -/
def PlainValues (xs : List (Position × Literal)) : Prop := ∀ v ∈ xs.map Prod.snd, v.Plain

section

variable {xs ys : List (Position × Literal)}

theorem plainValues_nil : PlainValues [] := nofun

@[simp] theorem plainValues_append : PlainValues (xs ++ ys) ↔ PlainValues xs ∧ PlainValues ys := by
  unfold PlainValues
  rw [List.map_append, List.forall_mem_append]

theorem plainValues_congr (h : xs.map Prod.snd = ys.map Prod.snd) :
    PlainValues xs ↔ PlainValues ys := by
  unfold PlainValues
  rw [h]

end

namespace Binary64

theorem magnitude_ofMagnitude {m : Nat} (h : m ≤ infinity) : (ofMagnitude false m).magnitude = m := by
  have hlow : m < Nat.pow 2 63 := h.trans_lt (by decide)
  have hsize : m < 2 ^ 64 := hlow.trans (by decide)
  show (UInt64.ofNat m).toNat % Nat.pow 2 63 = m
  rw [UInt64.toNat_ofNat', Nat.mod_eq_of_lt hsize, Nat.mod_eq_of_lt hlow]

end Binary64

theorem Source.plain_of_mem {src : Source} {t : Token} (h : t ∈ src.tokens) {x : Position × Literal}
    (hx : t.literal? = some x) : x.2.Plain := by
  unfold Token.literal? at hx
  split at hx
  · next kind hkind =>
    cases hx
    cases kind with
    | int => trivial
    | string => trivial
    | real =>
      obtain ⟨whole, fraction, exponent, htext⟩ := Source.real_chars h hkind
      have hle := (realDecimal whole fraction exponent).magnitude_le
      rw [Parser.literalOf, htext, Binary64.ofString?_real]
      exact (Binary64.magnitude_ofMagnitude hle).le.trans hle
  · cases hx

/-- The real literals of a program are numbers, or infinite. -/
theorem Source.plain_of_parse {src : Source} {p : Program} (h : src.parse.result = .ok p) :
    PlainValues p.literals := by
  rw [program_literals (isProgram_of_parse h)]
  intro v hv
  obtain ⟨x, hx, rfl⟩ := List.mem_map.mp hv
  obtain ⟨t, ht, hliteral⟩ := List.mem_filterMap.mp hx
  exact plain_of_mem ht hliteral

/-! ## Trees without positions -/

section Bare

mutual

theorem values_bare : ∀ e : Expr, e.bare.literals.map Prod.snd = e.literals.map Prod.snd
  | .literal _ _ _ => rfl
  | .binary _ l r _ _ => by
    rw [Expr.bare, Expr.literals, Expr.literals, List.map_append, List.map_append, values_bare l,
      values_bare r]
  | .not e _ _ => values_bare e
  | .call _ args _ => values_bareAll args
  | .member e _ _ _ => values_bare e
  | .name _ _ => rfl
  | .element _ e _ => values_bare e

theorem values_bareAll : ∀ es : List Expr,
    (Expr.literalsAll (Expr.bareAll es)).map Prod.snd = (Expr.literalsAll es).map Prod.snd
  | [] => rfl
  | e :: es => by
    rw [Expr.bareAll, Expr.literalsAll, Expr.literalsAll, List.map_append, List.map_append,
      values_bare e, values_bareAll es]

end

theorem plainValues_bare (e : Expr) : PlainValues e.bare.literals ↔ PlainValues e.literals :=
  plainValues_congr (values_bare e)

theorem values_bare_type (t : TypeExpr) :
    t.bare.literals.map Prod.snd = t.literals.map Prod.snd := by
  cases t with
  | scalar => rfl
  | array b size pos =>
    cases size with
    | none => rfl
    | some e => exact values_bare e

theorem plainValues_bare_target (t : Target) :
    PlainValues t.bare.literals ↔ PlainValues t.literals := by
  cases t with
  | name => exact Iff.rfl
  | element n i => exact plainValues_bare i

/-- No size is left in a heading. -/
theorem plainValues_bare_heading (h : Heading) : PlainValues h.bare.literals := by
  have hunsized : ∀ t : TypeExpr, t.unsized.literals = [] := by
    intro t
    cases t <;> rfl
  have hparams : h.bare.params.flatMap (·.type.literals) = [] := by
    simp [Heading.bare, Param.bare, hunsized]
  have hresult : (h.bare.result.map TypeExpr.literals).getD [] = [] := by
    cases hr : h.result <;> simp [Heading.bare, hr, hunsized]
  rw [Heading.literals, hparams, hresult]
  exact plainValues_nil

mutual

theorem plainValues_bare_stmt : ∀ st : Stmt, PlainValues st.literals → PlainValues st.bare.literals
  | .declare _ type _, h => (plainValues_congr (values_bare_type type)).mpr h
  | .callable heading _ body, h =>
    plainValues_append.mpr ⟨plainValues_bare_heading heading,
      plainValues_bareIn body (plainValues_append.mp h).2⟩
  | .assign target value, h => by
    obtain ⟨htarget, hvalue⟩ := plainValues_append.mp h
    exact plainValues_append.mpr
      ⟨(plainValues_bare_target target).mpr htarget, (plainValues_bare value).mpr hvalue⟩
  | .ifThen cond yes _, h => by
    obtain ⟨hcond, hyes⟩ := plainValues_append.mp h
    exact plainValues_append.mpr
      ⟨(plainValues_bare cond).mpr hcond, plainValues_bare_stmt yes hyes⟩
  | .ifElse cond yes no _, h => by
    obtain ⟨hfront, hno⟩ := plainValues_append.mp h
    obtain ⟨hcond, hyes⟩ := plainValues_append.mp hfront
    exact plainValues_append.mpr
      ⟨plainValues_append.mpr ⟨(plainValues_bare cond).mpr hcond, plainValues_bare_stmt yes hyes⟩,
        plainValues_bare_stmt no hno⟩
  | .whileDo cond body _, h => by
    obtain ⟨hcond, hbody⟩ := plainValues_append.mp h
    exact plainValues_append.mpr
      ⟨(plainValues_bare cond).mpr hcond, plainValues_bare_stmt body hbody⟩
  | .call _ args, h => (plainValues_congr (values_bareAll args)).mpr h
  | .ret none _, _ => plainValues_nil
  | .ret (some value) _, h => (plainValues_bare value).mpr h
  | .assert cond _, h => (plainValues_bare cond).mpr h
  | .block _ body, h => plainValues_bareIn body h

theorem plainValues_bareIn : ∀ sts : List Stmt, PlainValues (Stmt.literalsAll sts) →
    PlainValues (Stmt.literalsAll (Stmt.bareIn sts))
  | [], _ => plainValues_nil
  | st :: sts, h => by
    obtain ⟨hst, hsts⟩ := plainValues_append.mp h
    exact plainValues_append.mpr ⟨plainValues_bare_stmt st hst, plainValues_bareIn sts hsts⟩

end

end Bare

/-! ## Closure conversion -/

section Lift

variable {c : LiftContext} {f : DefId} {ds es : Defs}

theorem literals_eraseAll_append (xs ys : List TypedExpr) :
    Expr.literalsAll (TypedExpr.eraseAll ds (xs ++ ys)) =
      Expr.literalsAll (TypedExpr.eraseAll ds xs) ++ Expr.literalsAll (TypedExpr.eraseAll ds ys) := by
  induction xs with
  | nil => rfl
  | cons x xs ih =>
    rw [List.cons_append, TypedExpr.eraseAll, TypedExpr.eraseAll, Expr.literalsAll, Expr.literalsAll,
      ih, List.append_assoc]

/-- The arguments for new parameters are variables. -/
theorem literals_captureArgs (callee : DefId) (pos : Position) :
    Expr.literalsAll (TypedExpr.eraseAll ds (c.captureArgs f callee pos)) = [] := by
  have hnames : ∀ ids : List DefId, Expr.literalsAll (TypedExpr.eraseAll ds
      (ids.map fun v => .name (c.replace f v) ⟨c.defs.typeOf v, .plus, pos⟩)) = [] := by
    intro ids
    induction ids with
    | nil => rfl
    | cons id ids ih => exact ih
  unfold LiftContext.captureArgs
  split
  · exact hnames _
  · rfl

mutual

theorem literals_liftExpr : ∀ e : TypedExpr,
    ((c.liftExpr f e).erase es).literals = (e.erase ds).literals
  | .literal _ _ => rfl
  | .binary _ _ l r _ => by
    rw [LiftContext.liftExpr, TypedExpr.erase, TypedExpr.erase, Expr.literals, Expr.literals,
      literals_liftExpr l, literals_liftExpr r]
  | .not e _ => literals_liftExpr e
  | .call callee args i => by
    rw [LiftContext.liftExpr, TypedExpr.erase, TypedExpr.erase, Expr.literals, Expr.literals,
      literals_eraseAll_append, literals_captureArgs, List.append_nil, literals_liftExprs args]
  | .size e _ => literals_liftExpr e
  | .name _ _ => rfl
  | .element _ e _ => literals_liftExpr e
  | .bad _ => rfl

theorem literals_liftExprs : ∀ args : List TypedExpr,
    Expr.literalsAll (TypedExpr.eraseAll es (c.liftExprs f args)) =
      Expr.literalsAll (TypedExpr.eraseAll ds args)
  | [] => rfl
  | e :: args => by
    rw [LiftContext.liftExprs, TypedExpr.eraseAll, TypedExpr.eraseAll, Expr.literalsAll,
      Expr.literalsAll, literals_liftExpr e, literals_liftExprs args]

end

theorem literals_liftPlace (p : Place) :
    ((c.liftPlace f p).erase es).literals = (p.erase ds).literals := by
  cases p with
  | name => rfl
  | element id e => exact literals_liftExpr e

theorem literals_written (t : ValueType) (size : Option TypedExpr) :
    (t.written ((size.map (c.liftExpr f)).map (TypedExpr.erase es))).literals =
      (t.written (size.map (TypedExpr.erase ds))).literals := by
  unfold ValueType.written
  split
  · cases size with
    | none => rfl
    | some e => exact literals_liftExpr e
  · rfl

theorem literals_headingOf (g : DefId) : (ds.headingOf g).literals = [] := by
  have hwritten : ∀ t : ValueType, (t.written none).literals = [] := by
    intro t
    unfold ValueType.written
    split <;> rfl
  have hparams : (ds.headingOf g).params.flatMap (·.type.literals) = [] := by
    simp [Defs.headingOf, Defs.paramOf, hwritten]
  have hresult : ((ds.headingOf g).result.map TypeExpr.literals).getD [] = [] := by
    unfold Defs.headingOf Defs.resultOf
    dsimp only
    split
    · exact hwritten _
    · rfl
  rw [Heading.literals, hparams, hresult]
  rfl

mutual

theorem literals_liftStmt : ∀ (f : DefId) (s : TypedStmt),
    ((c.liftStmt f s).erase es).literals = (s.erase ds).literals
  | _, .declare _ type size _ => literals_written type size
  | _, .callable id body => by
    rw [LiftContext.liftStmt, TypedStmt.erase, TypedStmt.erase, Stmt.literals, Stmt.literals,
      literals_headingOf, literals_headingOf, literals_liftStmts id body]
  | _, .assign target value _ => by
    rw [LiftContext.liftStmt, TypedStmt.erase, TypedStmt.erase, Stmt.literals, Stmt.literals,
      literals_liftPlace, literals_liftExpr]
  | f, .ifThen cond yes _ => by
    rw [LiftContext.liftStmt, TypedStmt.erase, TypedStmt.erase, Stmt.literals, Stmt.literals,
      literals_liftExpr, literals_liftStmt f yes]
  | f, .ifElse cond yes no _ => by
    rw [LiftContext.liftStmt, TypedStmt.erase, TypedStmt.erase, Stmt.literals, Stmt.literals,
      literals_liftExpr, literals_liftStmt f yes, literals_liftStmt f no]
  | f, .whileDo cond body _ => by
    rw [LiftContext.liftStmt, TypedStmt.erase, TypedStmt.erase, Stmt.literals, Stmt.literals,
      literals_liftExpr, literals_liftStmt f body]
  | _, .call callee args _ => by
    rw [LiftContext.liftStmt, TypedStmt.erase, TypedStmt.erase, Stmt.literals, Stmt.literals,
      literals_eraseAll_append, literals_captureArgs, List.append_nil, literals_liftExprs]
  | _, .ret none _ => rfl
  | _, .ret (some value) _ => literals_liftExpr value
  | _, .assert cond _ => literals_liftExpr cond
  | f, .block body => literals_liftStmts f body

theorem literals_liftStmts : ∀ (f : DefId) (ss : List TypedStmt),
    Stmt.literalsAll (TypedStmt.eraseIn es (c.liftStmts f ss)) =
      Stmt.literalsAll (TypedStmt.eraseIn ds ss)
  | _, [] => rfl
  | f, s :: ss => by
    rw [LiftContext.liftStmts, TypedStmt.eraseIn, TypedStmt.eraseIn, Stmt.literalsAll,
      Stmt.literalsAll, literals_liftStmt f s, literals_liftStmts f ss]

end

/-- The literals of a converted program come from its text. -/
theorem plainValues_lift {src : Source} {p : Program} (h : src.parse.result = .ok p)
    (hr : p.analyze.reports = []) :
    PlainValues (Stmt.literalsAll (TypedStmt.eraseIn es p.analyze.lift.program.body)) := by
  have herase : TypedStmt.eraseIn p.analyze.defs p.analyze.program.body = Stmt.bareIn p.body :=
    congrArg Program.body (faithful_of_reports (Source.named_of_parse h) hr).erase
  have hlift : Stmt.literalsAll (TypedStmt.eraseIn es p.analyze.lift.program.body) =
      Stmt.literalsAll (TypedStmt.eraseIn p.analyze.defs p.analyze.program.body) :=
    literals_liftStmts _ _
  rw [hlift, herase]
  exact plainValues_bareIn p.body (Source.plain_of_parse h)

end Lift

/-! ## Routines -/

section Routines

variable {ds : Defs}

mutual

/-- What holds of the literals of a statement holds of those of the callables in it. -/
theorem plainValues_routines : ∀ s : TypedStmt, PlainValues (s.erase ds).literals → ∀ r ∈ s.routines,
    PlainValues (Stmt.literalsAll (TypedStmt.eraseIn ds r.2))
  | .callable id body, h, r, hr => by
    have hbody := (plainValues_append.mp h).2
    rcases List.mem_cons.mp hr with rfl | hr
    · exact hbody
    · exact plainValues_routinesIn body hbody r hr
  | .ifThen _ yes _, h, r, hr => plainValues_routines yes (plainValues_append.mp h).2 r hr
  | .ifElse _ yes no _, h, r, hr => by
    obtain ⟨hfront, hno⟩ := plainValues_append.mp h
    rcases List.mem_append.mp hr with hr | hr
    · exact plainValues_routines yes (plainValues_append.mp hfront).2 r hr
    · exact plainValues_routines no hno r hr
  | .whileDo _ body _, h, r, hr => plainValues_routines body (plainValues_append.mp h).2 r hr
  | .block body, h, r, hr => plainValues_routinesIn body h r hr

theorem plainValues_routinesIn : ∀ ss : List TypedStmt,
    PlainValues (Stmt.literalsAll (TypedStmt.eraseIn ds ss)) → ∀ r ∈ TypedStmt.routinesIn ss,
    PlainValues (Stmt.literalsAll (TypedStmt.eraseIn ds r.2))
  | s :: ss, h, r, hr => by
    obtain ⟨hs, hss⟩ := plainValues_append.mp h
    rcases List.mem_append.mp hr with hr | hr
    · exact plainValues_routines s hs r hr
    · exact plainValues_routinesIn ss hss r hr

end

end Routines

end StackPascal
