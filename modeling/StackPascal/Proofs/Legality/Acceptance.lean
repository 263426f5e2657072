import StackPascal.Proofs.Legality.Context
import StackPascal.Proofs.Legality.Typing

/-!
What the walk asks of a statement.

It asks what the rules ask, with one exception. The rules know a callable by its
whole heading even among its parameters; to the walk it has there only the
parameters that have been declared.

* `Heading.inside`: the scopes around what stands in a heading;
* `Heading.AcceptsParams`, `Stmt.Accepted`: what the walk asks;
* `Stmt.accepted_iff_legal`: the exception does not matter where no size of a
  parameter calls the callable it belongs to.
-/

namespace StackPascal

variable {Γ : Context} {name : String}

/-! ## Inside a heading -/

namespace Heading

/-- The heading as it stands after some of its parameters. -/
def upTo (h : Heading) (done : List Param) : Heading := { h with params := done }

/-- The scopes around the body of a callable that is declared in `Γ`. -/
def inside (h : Heading) (Γ : Context) : Context := h.scope :: Γ.declare [h.entry]

/-- A parameter comes into the scope in front of those before it. -/
theorem scope_upTo_concat (h : Heading) (done : List Param) (p : Param) :
    (h.upTo (done ++ [p])).scope = p.entry :: (h.upTo done).scope := by
  simp [scope, upTo]

/-- The parameters `ps` may follow those in `done`. -/
def AcceptsParams (h : Heading) (Γ : Context) : List Param → List Param → Prop
  | _, [] => True
  | done, p :: ps =>
    (SizeFits ((h.upTo done).inside Γ) p.type ∧ (h.upTo done).scope.lookup p.name.text = none) ∧
      h.AcceptsParams Γ (done ++ [p]) ps

end Heading

namespace Stmt

mutual

/-- The walk reports nothing about the statement in these scopes, in a callable
with this result. -/
def Accepted : Stmt → Context → Option ValueType → Prop
  | callable h _ body, Γ, _ =>
    ((Γ.Free h.name.text ∧ ∀ t, h.result = some t → SizeFits Γ t) ∧
      h.AcceptsParams Γ [] h.params) ∧
      AcceptedIn body ([] :: h.inside Γ) (h.result.map TypeExpr.type)
  | ifThen cond yes _, Γ, result => HasType Γ cond .bool ∧ Accepted yes Γ result
  | ifElse cond yes no _, Γ, result =>
    (HasType Γ cond .bool ∧ Accepted yes Γ result) ∧ Accepted no (Γ.declare yes.declared) result
  | whileDo cond body _, Γ, result => HasType Γ cond .bool ∧ Accepted body Γ result
  | block _ body, Γ, result => AcceptedIn body ([] :: Γ) result
  | st, Γ, result => Legal Γ result st

def AcceptedIn : List Stmt → Context → Option ValueType → Prop
  | [], _, _ => True
  | st :: sts, Γ, result => Accepted st Γ result ∧ AcceptedIn sts (Γ.declare st.declared) result

end

end Stmt

/-! ## Renaming -/

theorem Context.find?_declare (Γ : Context) (name : String) (e : Entity) (x : String) :
    (Γ.declare [(name, e)]).find? x = if x = name then some e else Γ.find? x := by
  have hlookup := fun scope : Scope => scope.lookup_cons name e x
  cases Γ with
  | nil =>
    show (((name, e) :: []).lookup x).or none = _
    rw [hlookup, Option.or_none]
    rfl
  | cons scope outer =>
    show (((name, e) :: scope).lookup x).or (find? outer x) = _
    rw [hlookup]
    split <;> rfl

/-- The callable is known in all scopes that stand in its heading. -/
theorem Context.find?_cons_declare (scope : Scope) (Γ : Context) (name : String) (e : Entity)
    (x : String) : Context.find? (scope :: Γ.declare [(name, e)]) x =
      (scope.lookup x).or (if x = name then some e else Γ.find? x) :=
  congrArg (scope.lookup x).or (Γ.find?_declare name e x)

theorem SizeFits.congr {Γ Δ : Context} (hv : Γ.Within Δ) {type : TypeExpr}
    (hc : ∀ n ∈ type.callees, Γ.find? n = Δ.find? n) (h : SizeFits Γ type) : SizeFits Δ type := by
  cases h with
  | scalar => exact .scalar
  | unsized => exact .unsized
  | sized hint => exact .sized (hint.congr hv hc)

/-- A size may not see the difference between two callables that it does not call. -/
theorem SizeFits.rename {scope : Scope} {e e' : Entity} {type : TypeExpr}
    (he : ∀ u, e ≠ .variable u) (hn : scope.lookup name ≠ none ∨ name ∉ type.callees)
    (h : SizeFits (scope :: Γ.declare [(name, e)]) type) :
    SizeFits (scope :: Γ.declare [(name, e')]) type := by
  have hfind : ∀ x, scope.lookup x ≠ none ∨ x ≠ name →
      Context.find? (scope :: Γ.declare [(name, e)]) x =
        Context.find? (scope :: Γ.declare [(name, e')]) x := by
    intro x hx
    rw [Context.find?_cons_declare, Context.find?_cons_declare]
    cases hs : scope.lookup x with
    | some _ => rfl
    | none =>
      rw [hs] at hx
      have hx : x ≠ name := hx.resolve_left fun hn => hn rfl
      rw [if_neg hx, if_neg hx]
  refine h.congr (fun x u hu => ?_) fun x hx => hfind x ?_
  · rw [← hfind x ?_]
    · exact hu
    by_cases hs : scope.lookup x = none
    · refine .inr ?_
      rintro rfl
      rw [Context.find?_cons_declare, hs, if_pos rfl] at hu
      exact he u (Option.some.inj hu)
    · exact .inl hs
  · by_cases hxn : x = name
    · subst hxn
      exact .inl (hn.resolve_right fun hnot => hnot hx)
    · exact .inr hxn

/-! ## Where the exception does not matter -/

theorem Scope.lookup_cons_ne_none {scope : Scope} {e : String × Entity} {x : String}
    (h : scope.lookup x ≠ none ∨ e.1 = x) : List.lookup x (e :: scope) ≠ none := by
  obtain ⟨y, e⟩ := e
  rw [Scope.lookup_cons]
  by_cases hx : x = y
  · rw [if_pos hx]
    exact Option.some_ne_none e
  · rw [if_neg hx]
    exact h.resolve_right (Ne.symm hx)

theorem Heading.acceptsParams_iff_legal (h : Heading) (ps : List Param) : ∀ {done : List Param},
    ((h.upTo done).scope.lookup h.name.text ≠ none ∨ SizesApart h.name.text ps) →
    (h.AcceptsParams Γ done ps ↔
      LegalParams (Γ.declare [h.entry]) (h.upTo done).scope ps) := by
  induction ps with
  | nil => exact fun _ => ⟨fun _ => .nil, fun _ => trivial⟩
  | cons p ps ih =>
    intro done hapart
    have hsize : SizeFits ((h.upTo done).inside Γ) p.type ↔
        SizeFits ((h.upTo done).scope :: Γ.declare [h.entry]) p.type :=
      have hn := hapart.imp_right And.left
      ⟨SizeFits.rename (fun _ => nofun) hn, SizeFits.rename (fun _ => nofun) hn⟩
    have hapart' : (h.upTo (done ++ [p])).scope.lookup h.name.text ≠ none ∨
        SizesApart h.name.text ps := by
      rw [scope_upTo_concat]
      rcases hapart with hs | ⟨_, hname | hrest⟩
      · exact .inl (Scope.lookup_cons_ne_none (.inl hs))
      · exact .inl (Scope.lookup_cons_ne_none (.inr hname))
      · exact .inr hrest
    have hrest := ih hapart'
    rw [scope_upTo_concat] at hrest
    rw [AcceptsParams, hsize, hrest]
    constructor
    · rintro ⟨⟨hfits, hfree⟩, hlegal⟩
      exact .cons hfits hfree hlegal
    · intro hl
      cases hl with
      | cons hfits hfree hlegal => exact ⟨⟨hfits, hfree⟩, hlegal⟩

namespace Stmt

mutual

/-- About a settled statement the walk asks what the rules ask. -/
theorem accepted_iff_legal (st : Stmt) (hs : st.Settled) (Γ : Context)
    (result : Option ValueType) : st.Accepted Γ result ↔ Legal Γ result st := by
  cases st with
  | callable h start body =>
    have hparams : h.AcceptsParams Γ [] h.params ↔ LegalParams (Γ.declare [h.entry]) [] h.params :=
      h.acceptsParams_iff_legal h.params (.inr hs.1)
    have hbody := acceptedIn_iff_legalIn body hs.2 ([] :: h.inside Γ)
      (h.result.map TypeExpr.type)
    unfold Accepted
    rw [hparams, hbody]
    constructor
    · rintro ⟨⟨⟨hfree, hresult⟩, hps⟩, hlegal⟩
      exact .callable hfree hresult hps hlegal
    · intro hl
      cases hl with
      | callable hfree hresult hps hlegal => exact ⟨⟨⟨hfree, hresult⟩, hps⟩, hlegal⟩
  | ifThen cond yes pos =>
    unfold Accepted
    rw [accepted_iff_legal yes hs]
    refine ⟨fun hl => .ifThen hl.1 hl.2, fun hl => ?_⟩
    cases hl with
    | ifThen hcond hyes => exact ⟨hcond, hyes⟩
  | ifElse cond yes no pos =>
    unfold Accepted
    rw [accepted_iff_legal yes hs.1, accepted_iff_legal no hs.2]
    refine ⟨fun hl => .ifElse hl.1.1 hl.1.2 hl.2, fun hl => ?_⟩
    cases hl with
    | ifElse hcond hyes hno => exact ⟨⟨hcond, hyes⟩, hno⟩
  | whileDo cond body pos =>
    unfold Accepted
    rw [accepted_iff_legal body hs]
    refine ⟨fun hl => .whileDo hl.1 hl.2, fun hl => ?_⟩
    cases hl with
    | whileDo hcond hbody => exact ⟨hcond, hbody⟩
  | block start body =>
    unfold Accepted
    rw [acceptedIn_iff_legalIn body hs]
    refine ⟨.block, fun hl => ?_⟩
    cases hl with
    | block hlegal => exact hlegal
  | declare | assign | call | ret | assert => exact Iff.rfl

theorem acceptedIn_iff_legalIn (sts : List Stmt) (hs : SettledIn sts) (Γ : Context)
    (result : Option ValueType) : AcceptedIn sts Γ result ↔ LegalIn Γ result sts := by
  cases sts with
  | nil => exact ⟨fun _ => .nil, fun _ => trivial⟩
  | cons st sts =>
    unfold AcceptedIn
    rw [accepted_iff_legal st hs.1, acceptedIn_iff_legalIn sts hs.2]
    refine ⟨fun hl => .cons hl.1 hl.2, fun hl => ?_⟩
    cases hl with
    | cons hst hsts => exact ⟨hst, hsts⟩

end

end Stmt

end StackPascal
