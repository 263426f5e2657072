import StackPascal.Proofs.Arena.Order
import StackPascal.Proofs.Execution.Evaluation
import StackPascal.Proofs.Walk.Lookups

/-!
The walk keeps the definitions in order.

* `Stays`: a piece of the walk that makes no definition; every expression is one
  (`stays_annotateExpr`);
* `Ready`: where a statement may be walked over;
* `Walks`: what the walk does to definitions in order; the variables declared in the
  scope of the program block are the new global ones;
* `walks_annotateStmts`: the walk over statements does this, whatever is reported;
* `ordered_annotateProgram`: so does the walk over a program.
-/

namespace StackPascal

open Analyze

/-! ## Steps without definitions -/

/-- The step makes no definition and leaves the scopes. -/
structure Stays {α : Type} (m : Analyze α) : Prop where
  scopes : ∀ s, (after m s).scopes = s.scopes
  defs : ∀ s : Progress, s.defs.Ordered → s.defs.Onward (after m s).defs []

namespace Stays

variable {α β : Type} {m : Analyze α} {k : α → Analyze β}

theorem bind (h : Stays m) (hk : ∀ a, Stays (k a)) : Stays (m >>= k) where
  scopes s := ((hk (given m s)).scopes (after m s)).trans (h.scopes s)
  defs s hs :=
    have hfirst := h.defs s hs
    hfirst.trans ((hk (given m s)).defs (after m s) hfirst.ordered)

theorem still (hscopes : ∀ s, (after m s).scopes = s.scopes)
    (hdefs : ∀ s, (after m s).defs = s.defs) : Stays m :=
  ⟨hscopes, fun s hs => by rw [hdefs s]; exact .refl hs⟩

theorem pure (a : α) : Stays (pure a : Analyze α) := .still (fun _ => rfl) fun _ => rfl

theorem map (h : Stays m) (g : α → β) : Stays (g <$> m) := ⟨h.scopes, h.defs⟩

theorem check {n : Analyze α} (h : Checks m n) : Stays m := .still h.scopes_eq h.defs_eq

end Stays

section Expressions

theorem stays_report (pos : Position) (p : SemanticProblem) : Stays (report pos p) :=
  .still (fun _ => rfl) fun _ => rfl

theorem stays_reportIf (wrong : Bool) (pos : Position) (p : SemanticProblem) :
    Stays (reportIf wrong pos p) := by
  cases wrong
  · exact .pure ()
  · exact stays_report pos p

theorem stays_defs : Stays Analyze.defs := .still (fun _ => rfl) fun _ => rfl

theorem stays_scopes : Stays Analyze.scopes := .still (fun _ => rfl) fun _ => rfl

theorem stays_capture (f v : DefId) : Stays (capture f v) := by
  refine stays_defs.bind fun ds => ?_
  split
  · exact .pure _
  split
  · refine Stays.bind ⟨fun _ => rfl, fun s hs => ?_⟩ fun _ => .still (fun _ => rfl) fun _ => rfl
    exact hs.addCapture f v
  · exact .pure _

theorem stays_resolveVariable (f : DefId) (name : Ident) : Stays (resolveVariable f name) := by
  refine stays_scopes.bind fun t => ?_
  split
  · exact (stays_report ..).bind fun _ => .pure _
  refine stays_defs.bind fun ds => ?_
  split
  · exact (stays_capture ..).bind fun _ => .pure _
  · exact (stays_report ..).bind fun _ => .pure _

theorem stays_resolveFunction (callee : Ident) : Stays (resolveFunction callee) := by
  refine stays_scopes.bind fun t => ?_
  split
  · exact (stays_report ..).bind fun _ => .pure _
  refine stays_defs.bind fun ds => ?_
  split
  · exact .pure _
  · exact (stays_report ..).bind fun _ => .pure _

theorem stays_resolveCallable (callee : Ident) : Stays (resolveCallable callee) := by
  refine stays_scopes.bind fun t => ?_
  split
  · exact (stays_report ..).bind fun _ => .pure _
  refine stays_defs.bind fun ds => ?_
  split
  · exact .pure _
  · exact (stays_report ..).bind fun _ => .pure _

theorem stays_applySign (sign : Sign) (e : TypedExpr) : Stays (applySign sign e) :=
  .check (checks_applySign sign e)

theorem stays_checkCall (f g : DefId) (name : Ident) (args : List TypedExpr) :
    Stays (checkCall f g name args) :=
  .check (checks_checkCall name.text name.text name.pos f g args)

variable {f : DefId}

mutual

theorem stays_annotateExpr : ∀ e : Expr, Stays (annotateExpr f e)
  | .literal .. => stays_applySign ..
  | .binary op left right sign pos =>
    (stays_annotateExpr left).bind fun l => (stays_annotateExpr right).bind fun r =>
      (Stays.check (checks_checkBinary pos op l r)).bind fun t => stays_applySign sign t
  | .not operand sign pos =>
    (stays_annotateExpr operand).bind fun o =>
      (Stays.check (checks_checkNot pos o)).bind fun t => stays_applySign sign t
  | .call callee args sign => by
    refine (stays_resolveFunction callee).bind fun r => ?_
    split
    · exact .pure _
    · exact (stays_annotateExprs args).bind fun _ => (stays_checkCall ..).bind fun _ =>
        stays_defs.bind fun _ => stays_applySign sign _
  | .member base member sign pos =>
    (stays_annotateExpr base).bind fun b =>
      (Stays.check (checks_checkMember pos b member)).bind fun t => stays_applySign sign t
  | .name name sign => by
    refine (stays_resolveVariable f name).bind fun r => ?_
    split
    · exact .pure _
    · exact stays_defs.bind fun _ => stays_applySign sign _
  | .element name index sign => by
    refine (stays_resolveVariable f name).bind fun r => ?_
    split
    · exact .pure _
    · exact (stays_annotateExpr index).bind fun i =>
        (Stays.check (checks_checkElement name.text name.text name.pos _ i)).bind fun t =>
          stays_applySign sign t

theorem stays_annotateExprs : ∀ es : List Expr, Stays (annotateExprs f es)
  | [] => .pure _
  | e :: es => (stays_annotateExpr e).bind fun _ => (stays_annotateExprs es).bind fun _ => .pure _

end

theorem stays_annotateSize (size : Expr) : Stays (annotateSize f size) :=
  (stays_annotateExpr size).bind fun _ => (stays_reportIf ..).bind fun _ => .pure _

theorem stays_signatureType (type : TypeExpr) : Stays (signatureType f type) := by
  rcases type with _ | ⟨element, _ | size, pos⟩
  · exact .pure _
  · exact .pure _
  · exact (stays_annotateSize size).bind fun _ => .pure _

theorem stays_resultType (h : Heading) : Stays (resultType f h) := by
  unfold resultType
  cases h.result with
  | some type => exact stays_signatureType type
  | none => exact .pure _

theorem stays_declaredSize (names : List Ident) (type : TypeExpr) :
    Stays (declaredSize f names type) := by
  rcases type with _ | ⟨element, _ | size, pos⟩
  · exact .pure _
  · exact (stays_report ..).bind fun _ => .pure _
  · exact (stays_annotateSize size).map some

theorem stays_annotateCond (place : Condition) (cond : Expr) : Stays (annotateCond f place cond) :=
  (stays_annotateExpr cond).bind fun _ => (stays_reportIf ..).bind fun _ => .pure _

theorem stays_annotateOption (value : Option Expr) : Stays (annotateOption f value) := by
  cases value with
  | some e => exact (stays_annotateExpr e).map some
  | none => exact .pure _

theorem stays_annotateAssign (target : Target) (value : Expr) :
    Stays (annotateAssign f target value) :=
  (stays_annotateExpr target.expr).bind fun p => (stays_annotateExpr value).bind fun v =>
    .check (checks_checkAssign target.ident.text target.ident.text target.ident.pos p v)

theorem stays_annotateCall (callee : Ident) (args : List Expr) :
    Stays (annotateCall f callee args) := by
  refine (stays_resolveCallable callee).bind fun r => ?_
  split
  · exact .pure _
  refine (stays_annotateExprs args).bind fun _ => (stays_checkCall ..).bind fun _ => ?_
  split
  · exact (stays_report ..).bind fun _ => .pure _
  · exact .pure _

theorem stays_annotateReturn (value : Option Expr) (pos : Position) :
    Stays (annotateReturn f value pos) :=
  (stays_annotateOption value).bind fun v => stays_defs.bind fun _ =>
    .check (checks_checkReturn pos _ v)

end Expressions

/-! ## Steps that declare -/

namespace Progress

/-- What becomes global when the variables are declared in the current scope. -/
def globalsAmong (s : Progress) (ids : List DefId) : List DefId :=
  if s.scopes.current = .program then ids else []

theorem globalsAmong_nil (s : Progress) : s.globalsAmong [] = [] := by
  unfold globalsAmong
  split <;> rfl

theorem globalsAmong_append (s : Progress) (ids more : List DefId) :
    s.globalsAmong (ids ++ more) = s.globalsAmong ids ++ s.globalsAmong more := by
  unfold globalsAmong
  split <;> rfl

end Progress

/-- The walk stands in the callable `f`, in a scope that has been entered. -/
structure Ready (f : DefId) (s : Progress) : Prop where
  ordered : s.defs.Ordered
  here : s.defs.isRoutine f = true
  entered : s.scopes.current ≠ .predefined
  nextScope : 1 < s.scopes.nextScope

/-- From `s` to `s'` the walk has declared the given variables in the current scope,
besides what it has declared in inner ones. -/
structure Walks (s s' : Progress) (ids : List DefId) : Prop where
  defs : s.defs.Onward s'.defs (s.globalsAmong ids)
  inner : s'.scopes.inner = s.scopes.inner
  nextScope : s.scopes.nextScope ≤ s'.scopes.nextScope

section Declaring

variable {f g : DefId} {s s' s'' : Progress} {ids more : List DefId}

namespace Walks

theorem current (h : Walks s s' ids) : s'.scopes.current = s.scopes.current := by
  unfold ScopeTable.current
  rw [h.inner]

theorem trans (h : Walks s s' ids) (k : Walks s' s'' more) : Walks s s'' (ids ++ more) where
  defs := by
    have hcurrent : s'.globalsAmong more = s.globalsAmong more := by
      rw [Progress.globalsAmong, h.current, Progress.globalsAmong]
    rw [Progress.globalsAmong_append, ← hcurrent]
    exact h.defs.trans k.defs
  inner := k.inner.trans h.inner
  nextScope := Nat.le_trans h.nextScope k.nextScope

theorem ready (h : Walks s s' ids) (hs : Ready f s) : Ready f s' where
  ordered := h.defs.ordered
  here := h.defs.routines f hs.here
  entered := h.current ▸ hs.entered
  nextScope := Nat.lt_of_lt_of_le hs.nextScope h.nextScope

end Walks

variable {α β : Type} {m : Analyze α} {k : α → Analyze β}

theorem Stays.walks (h : Stays m) (hs : s.defs.Ordered) : Walks s (after m s) [] where
  defs := by
    rw [Progress.globalsAmong_nil]
    exact h.defs s hs
  inner := congrArg ScopeTable.inner (h.scopes s)
  nextScope := Nat.le_of_eq (congrArg ScopeTable.nextScope (h.scopes s)).symm

/-- Steps that make no definition may precede and follow. -/
theorem Stays.then (h : Stays m) (hs : s.defs.Ordered)
    (hk : Walks (after m s) (after (k (given m s)) (after m s)) ids) :
    Walks s (after (m >>= k) s) ids :=
  (h.walks hs).trans hk

theorem Walks.stay (h : Walks s (after m s) ids) (hk : ∀ a, Stays (k a)) :
    Walks s (after (m >>= k) s) ids := by
  have hall := h.trans ((hk (given m s)).walks h.defs.ordered)
  rwa [List.append_nil] at hall

theorem Ready.after (h : Ready f s) (hm : Stays m) : Ready f (after m s) :=
  (hm.walks h.ordered).ready h

/-! ### Scopes -/

theorem Ready.enter (h : Ready f s) : Ready f (Analyze.after enterScope s) where
  ordered := h.ordered
  here := h.here
  entered hc := by
    have hnumber : s.scopes.nextScope = 0 := congrArg ScopeId.number hc
    have hlater := h.nextScope
    omega
  nextScope := Nat.lt_succ_of_lt h.nextScope

/-- What is declared in an inner scope is gone when the scope is left, and none of it
is global. -/
theorem Walks.leave (h : Walks (Analyze.after enterScope s) s' ids) (hs : 1 < s.scopes.nextScope) :
    Walks s (Analyze.after leaveScope s') [] where
  defs := by
    -- the scope of the program block has been entered before
    have hcurrent : (Analyze.after enterScope s).scopes.current ≠ .program := fun hc => by
      have hnumber : s.scopes.nextScope = 1 := congrArg ScopeId.number hc
      omega
    have hdefs := h.defs
    rw [Progress.globalsAmong, if_neg hcurrent] at hdefs
    rw [Progress.globalsAmong_nil]
    exact hdefs
  inner := by
    show s'.scopes.leave.inner = s.scopes.inner
    unfold ScopeTable.leave
    rw [h.inner]
    rfl
  nextScope := by
    have hle : s.scopes.nextScope + 1 ≤ s'.scopes.nextScope := h.nextScope
    show s.scopes.nextScope ≤ s'.scopes.leave.nextScope
    unfold ScopeTable.leave
    rw [h.inner]
    exact Nat.le_of_succ_le hle

/-! ### Names -/

theorem declare_cases (name : Ident) (type : ValueType) (kind : DefKind) (s : Progress) :
    Sat (declare name type kind) s fun r s' =>
      (r = none ∧ s'.defs = s.defs ∧ s'.scopes = s.scopes) ∨
        (r = some s.defs.nextId ∧ s' = s.declared name type kind) := by
  have hget : (get : Analyze Progress).run s = Pure.pure (s, s) := rfl
  simp only [Sat, declare, StateT.run_bind, hget, pure_bind, ScopeTable.insert]
  cases s.scopes.here? name.text with
  | some _ => exact .inl ⟨rfl, rfl, rfl⟩
  | none => exact .inr ⟨rfl, rfl⟩

theorem Walks.same (h : s.defs.Ordered) (hdefs : s'.defs = s.defs)
    (hscopes : s'.scopes = s.scopes) : Walks s s' [] where
  defs := by
    rw [hdefs, Progress.globalsAmong_nil]
    exact .refl h
  inner := congrArg ScopeTable.inner hscopes
  nextScope := Nat.le_of_eq (congrArg ScopeTable.nextScope hscopes).symm

theorem Ready.not_predefined (h : Ready f s) (name : Ident) (type : ValueType) (kind : DefKind) :
    (s.newDef name type kind).isPredefined = false :=
  decide_eq_false h.entered

/-- A name that has been declared for a variable of `g` is listed with it. -/
theorem Ready.files (h : Ready f s) (hg : (s.defs.callable? g).isSome) (name : Ident)
    (type : ValueType) {kind : DefKind} (role : VariableRole)
    (hkind : (s.newDef name type kind).belongs role g = true)
    (hplaced : (s.newDef name type kind).Placed) :
    s.defs.Onward ((s.declared name type kind).defs.updateCallable g (role.add s.defs.nextId)) [] :=
  h.ordered.file (h.not_predefined name type kind) hplaced hkind hg

theorem walks_declareVariable (h : Ready f s) (name : Ident) (type : ValueType) :
    Walks s (after (declareVariable f name type) s)
      (given (declareVariable f name type) s).toList := by
  have hall : Sat (declareVariable f name type) s fun r s' => Walks s s' r.toList := by
    refine Sat.scopes ?_
    split
    · next hc =>
      refine (declare_cases name type .global s).mono fun r s' hr => ?_
      obtain ⟨rfl, hdefs, hscopes⟩ | ⟨rfl, rfl⟩ := hr
      · exact .same h.ordered hdefs hscopes
      · refine ⟨?_, rfl, Nat.le_refl _⟩
        rw [Progress.globalsAmong, if_pos hc]
        exact h.ordered.push (h.not_predefined name type .global) (.inr hc)
          (fun role _ => by cases role <;> rfl) nofun
    · next hc =>
      refine (declare_cases name type (.owned f) s).bind fun r s' hr => ?_
      obtain ⟨rfl, hdefs, hscopes⟩ | ⟨rfl, rfl⟩ := hr
      · exact .same h.ordered hdefs hscopes
      · refine Sat.modify (Sat.ret ⟨?_, rfl, Nat.le_refl _⟩)
        rw [Progress.globalsAmong, if_neg hc]
        exact h.files (Defs.callable_of_isRoutine h.here) name type .owned (decide_eq_true rfl)
          ⟨h.entered, hc⟩
  exact hall

theorem walks_declareVariables (type : ValueType) : ∀ (names : List Ident) {s : Progress},
    Ready f s → Walks s (after (declareVariables f type names) s)
      (given (declareVariables f type names) s)
  | [], _, h => (Stays.pure _).walks h.ordered
  | name :: names, _, h =>
    have hfirst := walks_declareVariable h name type
    hfirst.trans (walks_declareVariables type names (hfirst.ready h))

theorem walks_declareParam (h : Ready g s) (p : Param) :
    Walks s (after (declareParam g p) s) [] := by
  have htype := stays_signatureType (f := g) p.type
  have h' := h.after htype
  have hwalks := htype.walks h.ordered
  have hall : Sat (declareParam g p) s fun _ s' => Walks s s' [] := by
    refine Sat.bind (P := fun _ t => t = after (signatureType g p.type) s) rfl fun type t ht => ?_
    subst ht
    generalize after (signatureType g p.type) s = t at *
    refine (declare_cases p.name type (.param g p.byRef) t).bind fun r s' hr => ?_
    obtain ⟨rfl, hdefs, hscopes⟩ | ⟨rfl, rfl⟩ := hr
    · exact hwalks.trans (.same h'.ordered hdefs hscopes)
    · have hfile : Walks t (after (updateDefs (·.addParam g t.defs.nextId))
          (t.declared p.name type (.param g p.byRef))) [] := by
        refine ⟨?_, rfl, Nat.le_refl _⟩
        rw [Progress.globalsAmong_nil]
        exact h'.files (Defs.callable_of_isRoutine h'.here) p.name type .param (decide_eq_true rfl)
          h'.entered
      exact hwalks.trans hfile
  exact hall

theorem walks_declareParams : ∀ (ps : List Param) {s : Progress}, Ready g s →
    Walks s (after (declareParams g ps) s) []
  | [], _, h => (Stays.pure _).walks h.ordered
  | p :: ps, _, h =>
    have hfirst := walks_declareParam h p
    hfirst.trans (walks_declareParams ps (hfirst.ready h))

/-- A callable that has been declared stands in the one around it. -/
theorem walks_declareCallable (h : Ready f s) (heading : Heading) :
    Walks s (after (declareCallable f heading) s) [] ∧
      ∀ g, given (declareCallable f heading) s = some g →
        (after (declareCallable f heading) s).defs.isRoutine g = true := by
  have hall : Sat (declareCallable f heading) s fun r s' =>
      Walks s s' [] ∧ ∀ g, r = some g → s'.defs.isRoutine g = true := by
    refine Sat.scopes ?_
    split
    · exact ⟨.same h.ordered rfl rfl, nofun⟩
    have hresult := stays_resultType (f := f) heading
    have h' := h.after hresult
    refine Sat.bind (P := fun _ t => t = after (resultType f heading) s) rfl fun type t ht => ?_
    subst ht
    have hwalks := hresult.walks h.ordered
    generalize after (resultType f heading) s = t at *
    let info := CallableInfo.new (headingKind heading) (some f)
    refine (declare_cases heading.name type (.callable info) t).bind fun r s' hr => ?_
    obtain ⟨rfl, hdefs, hscopes⟩ | ⟨rfl, rfl⟩ := hr
    · exact ⟨hwalks.trans (.same h'.ordered hdefs hscopes), nofun⟩
    refine Sat.modify (Sat.ret ⟨hwalks.trans ⟨?_, rfl, Nat.le_refl _⟩, fun g hg => ?_⟩)
    · rw [Progress.globalsAmong_nil]
      refine h'.ordered.push (h'.not_predefined ..) trivial (fun role _ => by cases role <;> rfl)
        fun info hinfo => ?_
      cases hinfo
      exact ⟨fun role => by cases role <;> rfl, f, rfl, h'.here⟩
    · cases hg
      show (t.defs.push _).isRoutine t.defs.nextId = true
      rw [Defs.isRoutine, Defs.callable?_push, if_pos rfl]
      rfl
  exact hall

end Declaring

/-! ## Statements -/

namespace TypedStmt

/-- What a statement declares, unless it was reported. -/
def declaredOption : Option TypedStmt → List DefId
  | some s => s.declared
  | none => []

theorem declared_branchOr (r : Option TypedStmt) : (branchOr r).declared = declaredOption r := by
  cases r <;> rfl

theorem declaredIn_toList (r : Option TypedStmt) (ss : List TypedStmt) :
    declaredIn (r.toList ++ ss) = declaredOption r ++ declaredIn ss := by
  cases r <;> rfl

end TypedStmt

section Statements

variable {f : DefId}

theorem declared_annotateAssign (target : Target) (value : Expr) (s : Progress) :
    TypedStmt.declaredOption (given (annotateAssign f target value) s) = [] := by
  have hcheck : ∀ (p v : TypedExpr) (t : Progress),
      TypedStmt.declaredOption (given (checkAssign target.ident p v) t) = [] := by
    intro p v t
    unfold checkAssign
    split
    · rfl
    split
    · rfl
    split
    · rfl
    · cases p <;> rfl
  exact hcheck ..

theorem declared_annotateCall (callee : Ident) (args : List Expr) (s : Progress) :
    TypedStmt.declaredOption (given (annotateCall f callee args) s) = [] := by
  have hall : Sat (annotateCall f callee args) s fun r _ => TypedStmt.declaredOption r = [] := by
    refine Sat.bind (P := fun _ _ => True) trivial fun r t _ => ?_
    split
    · rfl
    refine Sat.bind (P := fun _ _ => True) trivial fun _ t _ => ?_
    refine Sat.bind (P := fun _ _ => True) trivial fun _ t _ => ?_
    split <;> rfl
  exact hall

theorem declared_annotateReturn (value : Option Expr) (pos : Position) (s : Progress) :
    TypedStmt.declaredOption (given (annotateReturn f value pos) s) = [] := by
  have hcheck : ∀ (type : ValueType) (v : Option TypedExpr) (t : Progress),
      TypedStmt.declaredOption (given (checkReturn type v pos) t) = [] := by
    intro type v t
    unfold checkReturn
    split
    · split
      · rfl
      split <;> rfl
    · split <;> rfl
  exact hcheck ..

end Statements

theorem Ready.inside {f g : DefId} {s : Progress} (h : Ready f s)
    (hg : s.defs.isRoutine g = true) : Ready g s :=
  ⟨h.ordered, hg, h.entered, h.nextScope⟩

/-- What comes next may depend on what the first step gives. -/
theorem Walks.choose {α : Type} {m : Analyze α} {k : α → Analyze (Option TypedStmt)} {s : Progress}
    (h : Walks s (after m s) [])
    (hk : Walks (after m s) (after (k (given m s)) (after m s))
      (TypedStmt.declaredOption (given (k (given m s)) (after m s)))) :
    Walks s (after (m >>= k) s) (TypedStmt.declaredOption (given (m >>= k) s)) :=
  h.trans hk

theorem walks_annotateDeclaration {f : DefId} {s : Progress} (h : Ready f s) (names : List Ident)
    (type : TypeExpr) (pos : Position) :
    Walks s (after (annotateDeclaration f names type pos) s)
      (given (annotateDeclaration f names type pos) s).declared :=
  have hsize := stays_declaredSize (f := f) names type
  hsize.then h.ordered
    ((walks_declareVariables type.type names (h.after hsize)).stay fun _ => .pure _)

mutual

theorem walks_annotateStmt {f : DefId} : ∀ (st : Stmt) {s : Progress}, Ready f s →
    Walks s (after (annotateStmt f st) s) (TypedStmt.declaredOption (given (annotateStmt f st) s))
  | .declare names type pos, _, h => walks_annotateDeclaration h names type pos
  | .callable heading _ body, s, h => by
    obtain ⟨hwalks, hroutine⟩ := walks_declareCallable h heading
    refine hwalks.choose ?_
    cases hg : given (declareCallable f heading) s with
    | none => exact (Stays.pure _).walks hwalks.defs.ordered
    | some g =>
      have hready := (hwalks.ready h).inside (hroutine g hg)
      have hparams := walks_declareParams heading.params hready.enter
      have hbody := walks_annotateStmts body (hparams.ready hready.enter).enter
      have hinner := hbody.leave (hparams.ready hready.enter).nextScope
      exact (hparams.trans hinner).leave hready.nextScope
  | .assign target value, s, h => by
    have hstays := (stays_annotateAssign (f := f) target value).walks h.ordered
    rwa [← declared_annotateAssign target value s] at hstays
  | .ifThen cond yes _, s, h => by
    have hcond := stays_annotateCond (f := f) .ifTest cond
    have hyes := walks_annotateStmt yes (h.after hcond)
    rw [← TypedStmt.declared_branchOr] at hyes
    exact hcond.then h.ordered (hyes.stay fun _ => .pure _)
  | .ifElse cond yes no _, s, h => by
    have hcond := stays_annotateCond (f := f) .ifTest cond
    have hyes := walks_annotateStmt yes (h.after hcond)
    have hno := walks_annotateStmt no (hyes.ready (h.after hcond))
    rw [← TypedStmt.declared_branchOr] at hyes hno
    exact hcond.then h.ordered (hyes.trans (hno.stay fun _ => .pure _))
  | .whileDo cond body _, s, h => by
    have hcond := stays_annotateCond (f := f) .whileCondition cond
    have hbody := walks_annotateStmt body (h.after hcond)
    rw [← TypedStmt.declared_branchOr] at hbody
    exact hcond.then h.ordered (hbody.stay fun _ => .pure _)
  | .call callee args, s, h => by
    have hstays := (stays_annotateCall (f := f) callee args).walks h.ordered
    rwa [← declared_annotateCall callee args s] at hstays
  | .ret value pos, s, h => by
    have hstays := (stays_annotateReturn (f := f) value pos).walks h.ordered
    rwa [← declared_annotateReturn value pos s] at hstays
  | .assert cond _, s, h =>
    ((stays_annotateCond (f := f) .assertion cond).bind fun _ => .pure _).walks h.ordered
  | .block _ body, s, h => (walks_annotateStmts body h.enter).leave h.nextScope

theorem walks_annotateStmts {f : DefId} : ∀ (sts : List Stmt) {s : Progress}, Ready f s →
    Walks s (after (annotateStmts f sts) s) (TypedStmt.declaredIn (given (annotateStmts f sts) s))
  | [], s, h => (Stays.pure _).walks h.ordered
  | st :: sts, s, h => by
    have hfirst := walks_annotateStmt st h
    have hrest := walks_annotateStmts sts (hfirst.ready h)
    have hall := hfirst.trans hrest
    rwa [← TypedStmt.declaredIn_toList] at hall

end

/-! ## Programs -/

theorem nested_start (name : Ident) : (Analyze.start name).defs.Nested where
  parents := by rintro ⟨_ | _ | _ | _ | _ | n⟩ o ho <;> cases ho
  rooted := by
    rintro ⟨_ | _ | _ | _ | _ | n⟩ hf
    · exact .inl rfl
    all_goals cases hf
  predefined := by
    rintro ⟨_ | _ | _ | _ | _ | n⟩ d hd _ hf
    · rfl
    all_goals cases hf
  placed := by
    rintro ⟨_ | _ | _ | _ | _ | n⟩ d hd <;> cases hd
    · trivial
    · exact .inl rfl
    · exact .inl rfl
    · trivial
    · trivial

theorem ordered_start (name : Ident) : (Analyze.start name).defs.Ordered where
  toNested := nested_start name
  listed role := by
    cases role <;> rintro ⟨_ | _ | _ | _ | _ | n⟩ <;> rfl

theorem ordered_annotateProgram (p : Program) :
    (Analyze.start p.name).defs.Onward (annotateProgram p).2.defs
      (TypedStmt.declaredIn (annotateProgram p).1) := by
  have hready : Ready mainId (after enterScope (Analyze.start p.name)) :=
    ⟨ordered_start p.name, rfl, nofun, Nat.lt_succ_self 1⟩
  exact (walks_annotateStmts p.body hready).defs

end StackPascal
