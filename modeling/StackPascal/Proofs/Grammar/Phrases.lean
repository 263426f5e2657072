import StackPascal.Proofs.Grammar.Rules

/-!
The phrases of the grammar, before any parser.

* `IsExpr.first`, `IsStmt.first`: which tokens a phrase begins with;
* `Covers`: what is a phrase by one relation is a phrase by another;
* `stmt_covers`: statements have a greedy derivation if they have any, and a
  greedy one is a derivation like any other.
-/

namespace StackPascal

/-! ## First tokens -/

/-- The phrase begins with a token of such a kind. -/
def StartsWith (p : TokenKind → Bool) (ts : List Token) : Prop :=
  ∃ t us, ts = t :: us ∧ p t.kind = true

namespace StartsWith

variable {p q : TokenKind → Bool} {ts : List Token}

theorem of_kind {t : Token} {kind : TokenKind} (us : List Token) (h : t.kind = kind)
    (hp : p kind = true) : StartsWith p (t :: us) :=
  ⟨t, us, rfl, h ▸ hp⟩

theorem append (h : StartsWith p ts) (us : List Token) : StartsWith p (ts ++ us) := by
  obtain ⟨t, vs, rfl, ht⟩ := h
  exact ⟨t, vs ++ us, rfl, ht⟩

theorem mono (h : StartsWith p ts) (hpq : ∀ k, p k = true → q k = true) : StartsWith q ts := by
  obtain ⟨t, vs, rfl, ht⟩ := h
  exact ⟨t, vs, rfl, hpq _ ht⟩

theorem length_pos (h : StartsWith p ts) : 0 < ts.length := by
  obtain ⟨t, vs, rfl, _⟩ := h
  exact Nat.succ_pos _

end StartsWith

namespace TokenKind

/-- Whether a token of this kind can begin a factor. -/
def startsFactor : TokenKind → Bool
  | ident | literal _ | openParen | kwNot => true
  | _ => false

/-- Whether a token of this kind can begin a statement. -/
def startsStmt : TokenKind → Bool
  | kwVar | kwProcedure | kwFunction | ident | kwReturn | kwAssert | kwIf | kwWhile | kwBegin => true
  | _ => false

/-- Whether a token of this kind can begin a parameter. -/
def startsParam : TokenKind → Bool
  | kwVar | ident => true
  | _ => false

theorem startsExpr_of_startsFactor (k : TokenKind) (h : k.startsFactor = true) :
    k.startsExpr = true := by
  cases k <;> first | rfl | cases h

end TokenKind

section First

variable {greedy more : Bool} {ts : List Token} {p : TokenKind → Bool}

theorem IsVariable.first {phrase : List Token → Expr → Prop} {target : Target}
    (h : IsVariable phrase ts target) (hp : p .ident = true) : StartsWith p ts := by
  cases h with
  | name hn => exact .of_kind _ hn hp
  | element hn => exact .of_kind _ hn hp

theorem IsCall.first {phrase : List Token → Expr → Prop} {callee : Ident} {args : List Expr}
    (h : IsCall phrase ts callee args) (hp : p .ident = true) : StartsWith p ts := by
  cases h with
  | mk hn => exact .of_kind _ hn hp

theorem IsOperand.first {e : Expr} (h : IsOperand greedy more ts e) :
    StartsWith TokenKind.startsFactor ts := by
  cases h with
  | literal ht => exact .of_kind _ ht rfl
  | parens ho => exact .of_kind _ ho rfl
  | not ht => exact .of_kind _ ht rfl
  | call hc => exact hc.first rfl
  | var hv => exact hv.first rfl

theorem IsFactor.first {e : Expr} (h : IsFactor greedy more ts e) :
    StartsWith TokenKind.startsFactor ts := by
  cases h with
  | plain ho => exact ho.first
  | member ho => exact ho.first.append _

variable {phrase : List Token → Expr → Prop} {e : Expr}

theorem IsTerm.first (hp : ∀ ts e, phrase ts e → StartsWith p ts) (h : IsTerm phrase ts e) :
    StartsWith p ts := by
  cases h with
  | mk hf => exact (hp _ _ hf).append _

theorem IsSimple.first (hp : ∀ ts e, phrase ts e → StartsWith TokenKind.startsFactor ts)
    (h : IsSimple phrase ts e) : StartsWith TokenKind.startsExpr ts := by
  cases h with
  | mk hs ht =>
    cases hs with
    | none => exact ((ht.first hp).mono TokenKind.startsExpr_of_startsFactor).append _
    | plus hs => exact .of_kind _ hs rfl
    | minus hs => exact .of_kind _ hs rfl

theorem IsExpr.first (h : IsExpr greedy ts e) : StartsWith TokenKind.startsExpr ts := by
  have hp : ∀ ts e, Either (IsFactor greedy) ts e → StartsWith TokenKind.startsFactor ts := by
    rintro _ _ ⟨hf⟩
    exact hf.first
  cases h with
  | simple hs => exact hs.first hp
  | compared hs => exact (hs.first hp).append _

theorem IsParam.first {x : Param} (h : IsParam greedy ts x) :
    StartsWith TokenKind.startsParam ts := by
  cases h with
  | value hn => exact .of_kind _ hn rfl
  | reference hv => exact .of_kind _ hv rfl

theorem IsHeading.first {x : Heading} (h : IsHeading greedy ts x) :
    StartsWith TokenKind.startsStmt ts := by
  cases h with
  | procedure hk => exact .of_kind _ hk rfl
  | function hk => exact .of_kind _ hk rfl

theorem IsStmt.first {st : Stmt} (h : IsStmt greedy more ts st) :
    StartsWith TokenKind.startsStmt ts := by
  cases h with
  | declare hd => cases hd with | mk hv => exact .of_kind _ hv rfl
  | callable hh => exact (hh.first.append _).append _
  | assign hv => exact (hv.first rfl).append _
  | call hc => exact hc.first rfl
  | ret hr => exact .of_kind _ hr rfl
  | retValue hr => exact .of_kind _ hr rfl
  | assert ha => exact .of_kind _ ha rfl
  | ifThen hi => exact .of_kind _ hi rfl
  | ifElse hi => exact .of_kind _ hi rfl
  | whileDo hw => exact .of_kind _ hw rfl
  | block hb => cases hb with | mk hb => exact .of_kind _ hb rfl

end First

/-! ## Phrases of two relations -/

/-- What is a phrase by `P`, with `n` tokens or fewer, is one by `Q` too, with the
same tree if `same`. -/
def Covers {α : Type} (same : Prop) (n : Nat) (P Q : List Token → α → Prop) : Prop :=
  ∀ ts x, ts.length ≤ n → P ts x → ∃ y, Q ts y ∧ (same → y = x)

namespace Covers

section Generic

variable {α : Type} {same : Prop} {n : Nat}

theorem list {P Q : List Token → α → Prop} (h : Covers same n P Q) :
    Covers same n (IsList P) (IsList Q) := by
  intro ts xs hl hp
  induction hp with
  | last hp =>
    obtain ⟨y, hq, hy⟩ := h _ _ hl hp
    exact ⟨[y], .last hq, fun hs => by rw [hy hs]⟩
  | more hp hc _ ih =>
    simp only [List.length_append, List.length_cons] at hl
    obtain ⟨y, hq, hy⟩ := h _ _ (by omega) hp
    obtain ⟨ys, hqs, hys⟩ := ih (by omega)
    exact ⟨y :: ys, .more hq hc hqs, fun hs => by rw [hy hs, hys hs]⟩

theorem parenthesised {P Q : List Token → α → Prop} (h : Covers same n P Q) :
    Covers same n (IsParenthesised P) (IsParenthesised Q) := by
  intro ts xs hl hp
  cases hp with
  | empty ho hc => exact ⟨[], .empty ho hc, fun _ => rfl⟩
  | items ho hi hc =>
    simp only [List.length_append, List.length_cons, List.length_nil] at hl
    obtain ⟨ys, hq, hy⟩ := h.list _ _ (by omega) hi
    exact ⟨ys, .items ho hq hc, hy⟩

end Generic

section Expressions

variable {same : Prop} {n : Nat} {P Q : List Token → Expr → Prop}

theorem fold {operators : List (TokenKind × BinOp)} (h : Covers same n P Q)
    {left e : Expr} {ts : List Token} (hf : IsFold P operators left ts e) :
    ∀ {left' : Expr}, ts.length ≤ n → (same → left' = left) →
      ∃ e', IsFold Q operators left' ts e' ∧ (same → e' = e) := by
  induction hf with
  | done => exact fun _ hleft => ⟨_, .done, hleft⟩
  | @next left _ _ o op _ _ ho hp _ ih =>
    intro left' hl hleft
    simp only [List.length_append, List.length_cons] at hl
    obtain ⟨r, hq, hr⟩ := h _ _ (by omega) hp
    have hsame : same → Expr.binary op left' r .plus o.pos = .binary op left _ .plus o.pos :=
      fun hs => by rw [hleft hs, hr hs]
    obtain ⟨e', hf, he⟩ := ih (by omega) hsame
    exact ⟨e', .next ho hq hf, he⟩

theorem term (h : Covers same n P Q) : Covers same n (IsTerm P) (IsTerm Q) := by
  intro ts e hl hp
  cases hp with
  | mk hp hf =>
    simp only [List.length_append] at hl
    obtain ⟨first, hq, hfirst⟩ := h _ _ (by omega) hp
    obtain ⟨e', hf, he⟩ := h.fold hf (by omega) hfirst
    exact ⟨e', .mk hq hf, he⟩

theorem simple (h : Covers same n P Q) : Covers same n (IsSimple P) (IsSimple Q) := by
  intro ts e hl hp
  cases hp with
  | @mk _ _ _ sign _ _ hs hp hf =>
    simp only [List.length_append] at hl
    obtain ⟨first, hq, hfirst⟩ := h.term _ _ (by omega) hp
    have hsigned : same → first.signed sign = _ := fun hs => congrArg (Expr.signed · sign) (hfirst hs)
    obtain ⟨e', hf, he⟩ := h.term.fold hf (by omega) hsigned
    exact ⟨e', .mk hs hq hf, he⟩

theorem relation (h : Covers same n P Q) : Covers same n (IsRelation P) (IsRelation Q) := by
  intro ts e hl hp
  cases hp with
  | simple hp =>
    obtain ⟨e', hq, he⟩ := h.simple _ _ hl hp
    exact ⟨e', .simple hq, he⟩
  | compared hl' ho hr' =>
    simp only [List.length_append, List.length_cons] at hl
    obtain ⟨l, hql, hel⟩ := h.simple _ _ (by omega) hl'
    obtain ⟨r, hqr, her⟩ := h.simple _ _ (by omega) hr'
    exact ⟨_, .compared hql ho hqr, fun hs => by rw [hel hs, her hs]⟩

theorem target (h : Covers same n P Q) : Covers same n (IsVariable P) (IsVariable Q) := by
  intro ts x hl hp
  cases hp with
  | name hn => exact ⟨_, .name hn, fun _ => rfl⟩
  | element hn ho hp hc =>
    simp only [List.length_append, List.length_cons, List.length_nil] at hl
    obtain ⟨e, hq, he⟩ := h _ _ (by omega) hp
    exact ⟨_, .element hn ho hq hc, fun hs => by rw [he hs]⟩

theorem call (h : Covers same n P Q) {ts : List Token} {callee : Ident} {args : List Expr}
    (hl : ts.length ≤ n) (hp : IsCall P ts callee args) :
    ∃ args', IsCall Q ts callee args' ∧ (same → args' = args) := by
  cases hp with
  | mk hn hp =>
    rw [List.length_cons] at hl
    obtain ⟨args', hq, ha⟩ := h.parenthesised _ _ (by omega) hp
    exact ⟨args', .mk hn hq, ha⟩

end Expressions

end Covers

/-! ## Factors -/

section Factors

variable {a b : Bool} {same : Prop}

/-- A `.name` behind a greedy factor that could still take one becomes a part of it. -/
theorem IsFactor.attach {d n : Token} (hd : d.kind = .dot) (hn : n.kind = .ident) :
    ∀ {k : Nat} {ts : List Token} {e : Expr}, ts.length ≤ k → IsFactor true true ts e →
      ∃ more e', IsFactor true more (ts ++ [d, n]) e' := by
  intro k
  induction k with
  | zero =>
    intro ts e hl hf
    obtain ⟨t, us, rfl, _⟩ := hf.first
    simp at hl
  | succ k ih =>
    intro ts e hl hf
    cases hf with
    | @plain more _ _ ho =>
    cases more with
    | false =>
      obtain ⟨t, us, rfl, _⟩ := ho.first
      exact ⟨false, _, .member ho (fun _ => rfl) hd hn⟩
    | true =>
      cases ho with
      | not ht hf =>
        rw [List.length_cons] at hl
        obtain ⟨more, e', hf⟩ := ih (by omega) hf
        exact ⟨true, _, .plain (.not ht hf)⟩

theorem factor_covers (hs : same → b = false) :
    ∀ n, Covers same n (Either (IsFactor a)) (Either (IsFactor b)) := by
  intro n
  induction n with
  | zero =>
    rintro ts e hl ⟨hf⟩
    obtain ⟨t, us, rfl, _⟩ := hf.first
    simp at hl
  | succ n ih =>
    have hoperand : ∀ {more ts e}, ts.length ≤ n + 1 → IsOperand a more ts e →
        ∃ more' e', IsOperand b more' ts e' ∧ (same → e' = e) := by
      intro more ts e hl ho
      cases ho with
      | literal ht => exact ⟨_, _, .literal ht, fun _ => rfl⟩
      | parens ho he hc =>
        simp only [List.length_append, List.length_cons, List.length_nil] at hl
        obtain ⟨e', he, hsame⟩ := ih.relation _ _ (by omega) he
        exact ⟨_, e', .parens ho he hc, hsame⟩
      | not ht hf =>
        rw [List.length_cons] at hl
        obtain ⟨e', ⟨hf⟩, hsame⟩ := ih _ _ (by omega) ⟨hf⟩
        exact ⟨_, _, .not ht hf, fun hs => by rw [hsame hs]⟩
      | call hc =>
        cases hc with
        | mk hn hp =>
          rw [List.length_cons] at hl
          obtain ⟨args, hp, hsame⟩ := ih.relation.parenthesised _ _ (by omega) hp
          exact ⟨_, _, .call (.mk hn hp), fun hs => by rw [hsame hs]⟩
      | var hv =>
        cases hv with
        | name hn => exact ⟨_, _, .var (.name hn), fun _ => rfl⟩
        | element hn ho hi hc =>
          simp only [List.length_append, List.length_cons, List.length_nil] at hl
          obtain ⟨index, hi, hsame⟩ := ih.relation _ _ (by omega) hi
          exact ⟨_, _, .var (.element hn ho hi hc), fun hs => by rw [hsame hs]⟩
    rintro ts e hl ⟨hf⟩
    cases hf with
    | plain ho =>
      obtain ⟨more, e', ho, hsame⟩ := hoperand hl ho
      exact ⟨e', ⟨.plain ho⟩, hsame⟩
    | member ho _ hd hn =>
      simp only [List.length_append, List.length_cons, List.length_nil] at hl
      obtain ⟨more, e', ho, hsame⟩ := hoperand (by simp only [List.length_cons]; omega) ho
      cases b with
      | false => exact ⟨_, ⟨.member ho nofun hd hn⟩, fun hs => by rw [hsame hs]⟩
      | true =>
        cases more with
        | false => exact ⟨_, ⟨.member ho (fun _ => rfl) hd hn⟩, fun hs => by rw [hsame hs]⟩
        | true =>
          obtain ⟨_, e'', hf⟩ := IsFactor.attach hd hn (Nat.le_refl _) (.plain ho)
          exact ⟨e'', ⟨hf⟩, fun h => absurd (hs h) (by decide)⟩

theorem expr_covers (hs : same → b = false) (n : Nat) : Covers same n (IsExpr a) (IsExpr b) :=
  (factor_covers hs n).relation

end Factors

/-! ## Statements -/

section Statements

variable {a b : Bool} {same : Prop} {n : Nat}

theorem type_covers (hs : same → b = false) : Covers same n (IsType a) (IsType b) := by
  intro ts x hl hp
  cases hp with
  | scalar ht hb => exact ⟨_, .scalar ht hb, fun _ => rfl⟩
  | unsized ha ho hc hf ht hb => exact ⟨_, .unsized ha ho hc hf ht hb, fun _ => rfl⟩
  | sized ha ho he hc hf ht hb =>
    simp only [List.length_append, List.length_cons, List.length_nil] at hl
    obtain ⟨size, he, hsize⟩ := expr_covers hs n _ _ (by omega) he
    exact ⟨_, .sized ha ho he hc hf ht hb, fun hs => by rw [hsize hs]⟩

theorem param_covers (hs : same → b = false) : Covers same n (IsParam a) (IsParam b) := by
  intro ts x hl hp
  cases hp with
  | value hn hc ht =>
    simp only [List.length_cons] at hl
    obtain ⟨type, ht, htype⟩ := type_covers (n := n) hs _ _ (by omega) ht
    exact ⟨_, .value hn hc ht, fun hs => by rw [htype hs]⟩
  | reference hv hn hc ht =>
    simp only [List.length_cons] at hl
    obtain ⟨type, ht, htype⟩ := type_covers (n := n) hs _ _ (by omega) ht
    exact ⟨_, .reference hv hn hc ht, fun hs => by rw [htype hs]⟩

theorem heading_covers (hs : same → b = false) : Covers same n (IsHeading a) (IsHeading b) := by
  intro ts x hl hp
  cases hp with
  | procedure hk hn hp =>
    simp only [List.length_cons] at hl
    obtain ⟨params, hp, hparams⟩ := (param_covers (n := n) hs).parenthesised _ _ (by omega) hp
    exact ⟨_, .procedure hk hn hp, fun hs => by rw [hparams hs]⟩
  | function hk hn hp hc ht =>
    simp only [List.length_append, List.length_cons] at hl
    obtain ⟨params, hp, hparams⟩ := (param_covers (n := n) hs).parenthesised _ _ (by omega) hp
    obtain ⟨type, ht, htype⟩ := type_covers (n := n) hs _ _ (by omega) ht
    exact ⟨_, .function hk hn hp hc ht, fun hs => by rw [hparams hs, htype hs]⟩

theorem declaration_covers (hs : same → b = false) :
    Covers same n (IsDeclaration a) (IsDeclaration b) := by
  intro ts x hl hp
  cases hp with
  | mk hv hn hc ht =>
    simp only [List.length_append, List.length_cons] at hl
    obtain ⟨type, ht, htype⟩ := type_covers (n := n) hs _ _ (by omega) ht
    exact ⟨_, .mk hv hn hc ht, fun hs => by rw [htype hs]⟩

theorem Covers.body {P Q : List Token → Stmt → Prop} (h : Covers same n P Q) :
    Covers same n (IsBody P) (IsBody Q) := by
  intro ts sts hl hp
  induction hp with
  | empty => exact ⟨[], .empty, fun _ => rfl⟩
  | last hp =>
    obtain ⟨st, hq, hst⟩ := h _ _ hl hp
    exact ⟨[st], .last hq, fun hs => by rw [hst hs]⟩
  | more hp hc _ ih =>
    simp only [List.length_append, List.length_cons] at hl
    obtain ⟨st, hq, hst⟩ := h _ _ (by omega) hp
    obtain ⟨sts, hqs, hsts⟩ := ih (by omega)
    exact ⟨st :: sts, .more hq hc hqs, fun hs => by rw [hst hs, hsts hs]⟩

theorem Covers.block {P Q : List Token → Stmt → Prop} (h : Covers same n P Q) {ts : List Token}
    {start : Position} {body : List Stmt} (hl : ts.length ≤ n + 2) (hp : IsBlock P ts start body) :
    ∃ body', IsBlock Q ts start body' ∧ (same → body' = body) := by
  cases hp with
  | mk hb hp he =>
    simp only [List.length_append, List.length_cons, List.length_nil] at hl
    obtain ⟨body', hq, hbody⟩ := h.body _ _ (by omega) hp
    exact ⟨body', .mk hb hq he, hbody⟩

/-- An `else` behind a greedy statement that could still take one becomes a part of it. -/
theorem IsStmt.attach {e : Token} {us : List Token} {more : Bool} {no : Stmt}
    (he : e.kind = .kwElse) (hno : IsStmt true more us no) :
    ∀ {k : Nat} {ts : List Token} {st : Stmt}, ts.length ≤ k → IsStmt true true ts st →
      ∃ more' st', IsStmt true more' (ts ++ e :: us) st' := by
  intro k
  induction k with
  | zero =>
    intro ts st hl hp
    obtain ⟨t, vs, rfl, _⟩ := hp.first
    simp at hl
  | succ k ih =>
    intro ts st hl hp
    cases hp with
    | @ifThen i t more' cs ts cond yes hi hc ht hyes =>
      simp only [List.length_append, List.length_cons] at hl
      cases more' with
      | false => exact ⟨_, _, .ifElse hi hc ht hyes (fun _ => rfl) he hno⟩
      | true =>
        obtain ⟨_, yes', hyes⟩ := ih (by omega) hyes
        rw [List.append_assoc]
        exact ⟨_, _, .ifThen hi hc ht hyes⟩
    | ifElse hi hc ht hyes hm he' hno' =>
      simp only [List.length_append, List.length_cons] at hl
      obtain ⟨_, no', hno'⟩ := ih (by omega) hno'
      rw [List.append_assoc]
      exact ⟨_, _, .ifElse hi hc ht hyes hm he' hno'⟩
    | whileDo hw hc hd hb =>
      simp only [List.length_append, List.length_cons] at hl
      obtain ⟨_, body', hb⟩ := ih (by omega) hb
      rw [List.append_assoc]
      exact ⟨_, _, .whileDo hw hc hd hb⟩

theorem stmt_covers (hs : same → b = false) :
    ∀ n, Covers same n (Either (IsStmt a)) (Either (IsStmt b)) := by
  intro n
  induction n with
  | zero =>
    rintro ts st hl ⟨hp⟩
    obtain ⟨t, us, rfl, _⟩ := hp.first
    simp at hl
  | succ n ih =>
    rintro ts st hl ⟨hp⟩
    have hexpr := expr_covers (a := a) hs (n + 1)
    cases hp with
    | declare hd =>
      obtain ⟨st', hd, hst⟩ := declaration_covers hs _ _ hl hd
      exact ⟨st', ⟨.declare hd⟩, hst⟩
    | callable hh hsemi hb =>
      have hpos := hh.first.length_pos
      simp only [List.length_append] at hl
      obtain ⟨heading, hh, hheading⟩ := heading_covers (n := n + 1) hs _ _ (by omega) hh
      obtain ⟨body, hb, hbody⟩ := ih.block (by omega) hb
      exact ⟨_, ⟨.callable hh hsemi hb⟩, fun hs => by rw [hheading hs, hbody hs]⟩
    | assign hv ha he =>
      simp only [List.length_append, List.length_cons] at hl
      obtain ⟨target, hv, htarget⟩ := hexpr.target _ _ (by omega) hv
      obtain ⟨value, he, hvalue⟩ := hexpr _ _ (by omega) he
      exact ⟨_, ⟨.assign hv ha he⟩, fun hs => by rw [htarget hs, hvalue hs]⟩
    | call hc =>
      obtain ⟨args, hc, hargs⟩ := hexpr.call hl hc
      exact ⟨_, ⟨.call hc⟩, fun hs => by rw [hargs hs]⟩
    | ret hr => exact ⟨_, ⟨.ret hr⟩, fun _ => rfl⟩
    | retValue hr he =>
      rw [List.length_cons] at hl
      obtain ⟨value, he, hvalue⟩ := hexpr _ _ (by omega) he
      exact ⟨_, ⟨.retValue hr he⟩, fun hs => by rw [hvalue hs]⟩
    | assert ha he =>
      rw [List.length_cons] at hl
      obtain ⟨cond, he, hcond⟩ := hexpr _ _ (by omega) he
      exact ⟨_, ⟨.assert ha he⟩, fun hs => by rw [hcond hs]⟩
    | ifThen hi he ht hyes =>
      simp only [List.length_append, List.length_cons] at hl
      obtain ⟨cond, he, hcond⟩ := hexpr _ _ (by omega) he
      obtain ⟨yes, ⟨hyes⟩, hsame⟩ := ih _ _ (by omega) ⟨hyes⟩
      exact ⟨_, ⟨.ifThen hi he ht hyes⟩, fun hs => by rw [hcond hs, hsame hs]⟩
    | ifElse hi he ht hyes _ hel hno =>
      simp only [List.length_append, List.length_cons] at hl
      obtain ⟨cond, he, hcond⟩ := hexpr _ _ (by omega) he
      obtain ⟨yes, @⟨more, _, _, hyes⟩, hsame⟩ := ih _ _ (by omega) ⟨hyes⟩
      obtain ⟨no, ⟨hno⟩, hsame'⟩ := ih _ _ (by omega) ⟨hno⟩
      have hall (pos : Position) : same → Stmt.ifElse cond yes no pos = .ifElse _ _ _ pos :=
        fun hs => by rw [hcond hs, hsame hs, hsame' hs]
      cases b with
      | false => exact ⟨_, ⟨.ifElse hi he ht hyes nofun hel hno⟩, hall _⟩
      | true =>
        cases more with
        | false => exact ⟨_, ⟨.ifElse hi he ht hyes (fun _ => rfl) hel hno⟩, hall _⟩
        | true =>
          obtain ⟨_, yes', hyes⟩ := IsStmt.attach hel hno (Nat.le_refl _) hyes
          rw [List.append_assoc]
          exact ⟨_, ⟨.ifThen hi he ht hyes⟩, fun h => absurd (hs h) (by decide)⟩
    | whileDo hw he hd hb =>
      simp only [List.length_append, List.length_cons] at hl
      obtain ⟨cond, he, hcond⟩ := hexpr _ _ (by omega) he
      obtain ⟨body, ⟨hb⟩, hsame⟩ := ih _ _ (by omega) ⟨hb⟩
      exact ⟨_, ⟨.whileDo hw he hd hb⟩, fun hs => by rw [hcond hs, hsame hs]⟩
    | block hb =>
      obtain ⟨body, hb, hbody⟩ := ih.block (by omega) hb
      exact ⟨_, ⟨.block hb⟩, fun hs => by rw [hbody hs]⟩

theorem program_covers (hs : same → b = false) {ts : List Token} {p : Program}
    (h : IsProgram a ts p) : ∃ p', IsProgram b ts p' ∧ (same → p' = p) := by
  cases h with
  | mk hp hn hsemi hb hd he =>
    obtain ⟨body, hb, hbody⟩ := (stmt_covers hs _).block (Nat.le_add_right _ 2) hb
    exact ⟨_, .mk hp hn hsemi hb hd he, fun hs => by rw [hbody hs]⟩

end Statements

/-- A greedy derivation is a derivation with the same tree. -/
theorem IsProgram.plain {ts : List Token} {p : Program} (h : IsProgram true ts p) :
    IsProgram false ts p := by
  obtain ⟨p', hp, hsame⟩ := program_covers (fun _ : True => rfl) h
  exact hsame trivial ▸ hp

/-- Whatever has a derivation has a greedy one. -/
theorem IsProgram.greedy {ts : List Token} {p : Program} (h : IsProgram false ts p) :
    ∃ p', IsProgram true ts p' := by
  obtain ⟨p', hp, _⟩ := program_covers (fun hf : False => hf.elim) h
  exact ⟨p', hp⟩

end StackPascal
