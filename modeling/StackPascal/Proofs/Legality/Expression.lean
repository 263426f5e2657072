import StackPascal.Proofs.Legality.Context
import StackPascal.Proofs.Legality.Typing

/-!
The verdict of the walk on expressions.

* `Located`: the walk stands somewhere, and its scopes lie in layers;
* `Judged`: the walk over an expression reports nothing exactly if the
  expression has a type, and it gives this type;
* `annotateExpr_judged`: every walk over an expression judges it so.
-/

namespace StackPascal

open Analyze

variable {outer : DefId → List DefId} {base : Nat} {f g : DefId} {s s' s'' : Progress}

structure Located (outer : DefId → List DefId) (base : Nat) (f : DefId) (s : Progress) : Prop where
  tidy : Tidy outer base f s
  layered : s.scopes.Layered

namespace Located

theorem standing (h : Located outer base f s) : Standing outer base f s := h.tidy.standing

theorem solid (h : Located outer base f s) : s.defs.Solid := h.tidy.solid

theorem walked (h : Located outer base f s) (hw : Walked outer base f s s') :
    Located outer base f s' :=
  ⟨h.tidy.walked hw, hw.scopes ▸ h.layered⟩

theorem enter (h : Located outer base f s) :
    Located outer base f { s with scopes := s.scopes.enter } :=
  ⟨h.tidy.enter, h.layered.enter⟩

end Located

/-! ## Steps that report nothing -/

theorem reportIf_silent {wrong : Bool} (h : wrong = false) (pos : Position) (p : SemanticProblem)
    (s : Progress) : Sat (reportIf wrong pos p) s fun _ s' => s' = s := by
  subst h
  exact rfl

theorem capture_silent (f id : DefId) (s : Progress) :
    Sat (capture f id) s fun _ s' => s'.reportCount = s.reportCount := by
  unfold capture
  refine Sat.defs ?_
  cases s.defs.owner id with
  | none => exact rfl
  | some o =>
    dsimp only
    split
    · exact rfl
    · exact rfl

theorem checkArgs_silent (name : Ident) {args : List TypedExpr} {params : List DefId}
    {s : Progress} (h : List.Forall₂ s.defs.Takes params args) :
    ∀ n, Sat (checkArgs name n args params) s fun _ s' => s' = s := by
  induction h with
  | nil => exact fun _ => rfl
  | @cons param arg params args hp _ ih =>
    intro n
    have harg : Sat (checkArg name n arg param) s fun _ s' => s' = s := by
      unfold checkArg
      refine Sat.defs ?_
      unfold Defs.Takes at hp
      split at hp
      · next hr =>
        obtain ⟨hvar, htype⟩ := hp
        refine (reportIf_silent (by simp [fits, hr, htype]) _ _ s).bind fun _ s₁ h₁ => ?_
        subst h₁
        exact reportIf_silent (by simp [hvar]) _ _ s₁
      · next hr =>
        have hr : s.defs.isByRef param = false := by simpa using hr
        refine (reportIf_silent (by simp [fits, hr, hp]) _ _ s).bind fun _ s₁ h₁ => ?_
        subst h₁
        exact reportIf_silent (by simp [hr]) _ _ s₁
    refine harg.bind fun _ s₁ h₁ => ?_
    subst h₁
    exact ih (n + 1)

theorem checkIntrinsicArgs_silent (name : Ident) {i : Intrinsic} {args : List TypedExpr}
    {s : Progress} (h : ∀ e ∈ args, e.type.isArray = false ∧ (i = .read → e.isVariable = true)) :
    ∀ n, Sat (checkIntrinsicArgs name i n args) s fun _ s' => s' = s := by
  induction args with
  | nil => exact fun _ => rfl
  | cons arg args ih =>
    intro n
    obtain ⟨⟨harray, hvar⟩, hargs⟩ := List.forall_mem_cons.mp h
    have harg : Sat (checkIntrinsicArg name i n arg) s fun _ s' => s' = s := by
      unfold checkIntrinsicArg
      split
      · exact rfl
      · rw [harray]
        refine reportIf_silent ?_ _ _ s
        cases i with
        | print => rfl
        | read => simp [hvar rfl]
    refine harg.bind fun _ s₁ h₁ => ?_
    subst h₁
    exact ih hargs (n + 1)

/-! ## Names -/

/-- A variable is what the walk takes for one. -/
theorem Located.variable_iff (h : Located outer base f s) {name : String} {id : DefId}
    (hf : s.scopes.find? name = some id) {t : ValueType} :
    s.context.find? name = some (.variable t) ↔
      s.defs.isVariable id = true ∧ s.defs.typeOf id = t := by
  have hlt := h.standing.range id (mem_visible_of_find? hf)
  rw [Progress.find?_context h.layered, hf, Option.map_some, Option.some.injEq,
    Defs.isVariable_iff hlt]
  cases hc : s.defs.callable? id with
  | none =>
    rw [Defs.entityOf_variable hc]
    exact ⟨fun he => ⟨rfl, Entity.variable.inj he⟩, fun he => congrArg Entity.variable he.2⟩
  | some info =>
    refine ⟨fun he => ?_, fun he => by cases he.1⟩
    unfold Defs.entityOf at he
    rw [hc] at he
    dsimp only at he
    split at he <;> cases he

theorem resolveVariable_judged (h : Located outer base f s) (name : Ident) :
    Sat (resolveVariable f name) s fun r s' =>
      (s'.Quiet base → ∃ id, r = some id ∧
        s.context.find? name.text = some (.variable (s'.defs.typeOf id))) ∧
      (s.Quiet base → ∀ t, s.context.find? name.text = some (.variable t) → s'.Quiet base) := by
  unfold resolveVariable
  refine Sat.scopes ?_
  cases hf : s.scopes.find? name.text with
  | none =>
    refine (report_spec h.standing _ _).bind fun _ s₁ h₁ => Sat.ret ⟨fun hq => absurd hq h₁.2, ?_⟩
    intro _ t ht
    rw [Progress.find?_context h.layered, hf] at ht
    cases ht
  | some id =>
    refine Sat.defs ?_
    split
    · next hv =>
      have hid := mem_visible_of_find? hf
      refine ((capture_spec h.standing hid hv).and (capture_silent f id s)).bind fun _ s₁ h₁ =>
        Sat.ret ⟨fun _ => ⟨id, rfl, ?_⟩, fun hq _ _ => ?_⟩
      · have hs := h₁.1.1.grows.signature id (h.standing.range id hid)
        exact (h.variable_iff hf).mpr ⟨hv, (Defs.typeOf_congr hs).symm⟩
      · unfold Progress.Quiet
        rw [h₁.2]
        exact hq
    · next hv =>
      refine (report_spec h.standing _ _).bind fun _ s₁ h₁ =>
        Sat.ret ⟨fun hq => absurd hq h₁.2, fun _ t ht => ?_⟩
      exact absurd ((h.variable_iff hf).mp ht).1 hv

/-- A function of the program, as its callers know it. -/
theorem Located.function_iff (h : Located outer base f s) {name : String} {id : DefId}
    (hf : s.scopes.find? name = some id) {params : List Formal} {t : ValueType} :
    s.context.find? name = some (.routine params (some t)) ↔
      ∃ info, s.defs.callable? id = some info ∧ info.kind = .function ∧
        info.params.map s.defs.formalOf = params ∧ s.defs.typeOf id = t := by
  rw [Progress.find?_context h.layered, hf, Option.map_some, Option.some.injEq]
  constructor
  · intro he
    unfold Defs.entityOf at he
    split at he
    · cases he
    · next info hi =>
      split at he
      · cases he
      · obtain ⟨hp, hr⟩ := Entity.routine.inj he
        split at hr
        · next hk => exact ⟨info, hi, hk, hp, Option.some.inj hr⟩
        · cases hr
  · rintro ⟨info, hi, hk, rfl, rfl⟩
    rw [Defs.entityOf_callable hi ((h.solid.callable hi).1 hk).2, if_pos hk]

theorem resolveFunction_judged (h : Located outer base f s) (callee : Ident) :
    Sat (resolveFunction callee) s fun r s' =>
      (s'.Quiet base → ∃ id info, r = some id ∧ s'.defs.callable? id = some info ∧
        info.kind = .function ∧ s.context.find? callee.text =
          some (.routine (info.params.map s'.defs.formalOf) (some (s'.defs.typeOf id)))) ∧
      (s.Quiet base → ∀ params t,
        s.context.find? callee.text = some (.routine params (some t)) → s'.Quiet base) := by
  unfold resolveFunction
  refine Sat.scopes ?_
  cases hf : s.scopes.find? callee.text with
  | none =>
    refine (report_spec h.standing _ _).bind fun _ s₁ h₁ => Sat.ret ⟨fun hq => absurd hq h₁.2, ?_⟩
    intro _ params t ht
    rw [Progress.find?_context h.layered, hf] at ht
    cases ht
  | some id =>
    refine Sat.defs ?_
    split
    · next hk =>
      obtain ⟨info, hi, hfun⟩ := Option.map_eq_some_iff.mp hk
      refine Sat.ret ⟨fun _ => ⟨id, info, rfl, hi, hfun, ?_⟩, fun hq _ _ _ => hq⟩
      exact (h.function_iff hf).mpr ⟨info, hi, hfun, rfl, rfl⟩
    · next hk =>
      refine (report_spec h.standing _ _).bind fun _ s₁ h₁ =>
        Sat.ret ⟨fun hq => absurd hq h₁.2, fun _ params t ht => ?_⟩
      obtain ⟨info, hi, hfun, _⟩ := (h.function_iff hf).mp ht
      exact absurd (Option.map_eq_some_iff.mpr ⟨info, hi, hfun⟩) hk

/-! ## Verdicts -/

/-- From `s` to `s'` the walk has gone over the expression `e`, and has given `t`. -/
structure Judged (base : Nat) (s s' : Progress) (e : Expr) (t : TypedExpr) : Prop where
  sound : s'.Quiet base → HasType s.context e t.type
  complete : s.Quiet base → ∀ τ, HasType s.context e τ → s'.Quiet base

theorem Judged.type_eq {e : Expr} {t : TypedExpr} (h : Judged base s s' e t) (hq : s.Quiet base)
    {τ : ValueType} (ht : HasType s.context e τ) : t.type = τ :=
  (h.sound (h.complete hq τ ht)).unique ht

/-- What was reported has no type. -/
theorem Judged.reported {e : Expr} (hq : ¬ s'.Quiet base)
    (h : s.Quiet base → ∀ τ, ¬ HasType s.context e τ) (pos : Position) :
    Judged base s s' e (.reported pos) :=
  ⟨fun hq' => absurd hq' hq, fun hqs τ ht => absurd ht (h hqs τ)⟩

theorem TypedExpr.type_withSign (e : TypedExpr) (sign : Sign) :
    (e.withSign sign).type = e.type := by
  cases e <;> rfl

theorem applySign_judged {s₁ : Progress} (h : Standing outer base f s₁) (sign : Sign)
    {e e' : Expr} {t : TypedExpr} (hj : Judged base s s₁ e t) (hs : e.sign = .plus)
    (he : e.signed sign = e') (hv : t.isVoid = true → ¬ s₁.Quiet base) :
    Sat (applySign sign t) s₁ fun t' s' => Judged base s s' e' t' := by
  subst he
  cases sign with
  | plus => exact hj
  | minus =>
    unfold applySign
    dsimp only
    split
    · next hvoid =>
      refine ⟨fun hq => absurd hq (hv hvoid), fun hq τ ht => ?_⟩
      exact hj.complete hq τ ((hasType_signed hs).mp ht).1
    · split
      · next hn =>
        refine Sat.ret ⟨fun hq => ?_, fun hq τ ht => hj.complete hq τ ((hasType_signed hs).mp ht).1⟩
        rw [TypedExpr.type_withSign]
        exact (hasType_signed hs).mpr ⟨hj.sound hq, fun _ => isNumeric_iff.mp hn⟩
      · next hn =>
        refine (report_spec h _ _).bind fun _ s₂ h₂ => Sat.ret (.reported h₂.2 (fun hq τ ht => ?_) _)
        obtain ⟨hplain, hfits⟩ := (hasType_signed hs).mp ht
        rw [hj.type_eq hq hplain, isNumeric_iff] at hn
        exact hn (hfits rfl)

section Checks

variable {Γ : List DefId}

theorem checkBinary_judged (h : Located outer base f s) (op : BinOp) {l r : TypedExpr}
    (hl : Fine outer base f Γ s l) (hr : Fine outer base f Γ s r) (pos : Position) :
    Sat (checkBinary op l r pos) s fun t s' =>
      (s'.Quiet base → ∃ operand, binaryResult op l.type r.type = some (operand, t.type)) ∧
      (∀ a, binaryResult op l.type r.type = some a → s.Quiet base → s'.Quiet base) := by
  unfold checkBinary
  split
  · next hv =>
    refine ⟨fun hq => ?_, fun _ _ hq => hq⟩
    rcases Bool.or_eq_true_iff.mp hv with hv | hv
    · exact absurd hq (hl.of_void hv h.solid)
    · exact absurd hq (hr.of_void hv h.solid)
  · cases hb : binaryResult op l.type r.type with
    | some a => exact ⟨fun _ => ⟨a.1, rfl⟩, fun _ _ hq => hq⟩
    | none =>
      exact (report_spec h.standing _ _).bind fun _ s₁ h₁ =>
        Sat.ret ⟨fun hq => absurd hq h₁.2, nofun⟩

theorem checkNot_judged (h : Located outer base f s) {e : TypedExpr}
    (he : Fine outer base f Γ s e) (pos : Position) :
    Sat (checkNot e pos) s fun t s' =>
      (s'.Quiet base → e.type = .bool ∧ t.type = .bool) ∧
      (e.type = .bool → s.Quiet base → s'.Quiet base) := by
  unfold checkNot
  split
  · next hv => exact ⟨fun hq => absurd hq (he.of_void hv h.solid), fun _ hq => hq⟩
  · cases hn : notResult e.type with
    | some type => exact ⟨fun _ => notResult_eq hn, fun _ hq => hq⟩
    | none =>
      refine (report_spec h.standing _ _).bind fun _ s₁ h₁ =>
        Sat.ret ⟨fun hq => absurd hq h₁.2, fun hb => ?_⟩
      rw [hb] at hn
      cases hn

theorem checkMember_judged (h : Located outer base f s) {e : TypedExpr}
    (he : Fine outer base f Γ s e) (member : Ident) (pos : Position) :
    Sat (checkMember e member pos) s fun t s' =>
      (s'.Quiet base → e.type.isArray = true ∧ member.text = "size" ∧ t.type = .int) ∧
      (e.type.isArray = true → member.text = "size" → s.Quiet base → s'.Quiet base) := by
  unfold checkMember
  split
  · next hv => exact ⟨fun hq => absurd hq (he.of_void hv h.solid), fun _ _ hq => hq⟩
  · split
    · next hm =>
      obtain ⟨ha, hsize⟩ := Bool.and_eq_true_iff.mp hm
      exact ⟨fun _ => ⟨ha, of_decide_eq_true hsize, rfl⟩, fun _ _ hq => hq⟩
    · next hm =>
      refine (report_spec h.standing _ _).bind fun _ s₁ h₁ =>
        Sat.ret ⟨fun hq => absurd hq h₁.2, fun ha hsize => ?_⟩
      exact absurd (Bool.and_eq_true_iff.mpr ⟨ha, decide_eq_true hsize⟩) hm

theorem checkElement_judged (h : Located outer base f s) (name : Ident) (id : DefId)
    {index : TypedExpr} (hi : Fine outer base f Γ s index) :
    Sat (checkElement name id index) s fun t s' =>
      (s'.Quiet base → (s.defs.typeOf id).isArray = true ∧ index.type = .int ∧
        t.type = (s.defs.typeOf id).element) ∧
      ((s.defs.typeOf id).isArray = true → index.type = .int → s.Quiet base → s'.Quiet base) := by
  unfold checkElement
  refine Sat.defs ?_
  dsimp only
  split
  · next ha =>
    refine (reportIf_spec h.standing _ _ _).step fun _ s₁ _ he hr => Sat.ret ⟨fun hq => ?_, ?_⟩
    · have hv := ((hi.later hr.1).typed hq ((h.walked hr.1).solid)).not_void
      exact ⟨ha, by simpa [TypedExpr.isVoid, hv] using hr.2 hq, rfl⟩
    · intro _ hint hq
      have hsame : s₁ = s := he ▸ reportIf_silent (by simp [hint]) _ _ s
      exact hsame ▸ hq
  · next ha =>
    exact (report_spec h.standing _ _).bind fun _ s₁ h₁ =>
      Sat.ret ⟨fun hq => absurd hq h₁.2, fun ha' => absurd ha' ha⟩

end Checks

/-! ## Calls -/

/-- What the walk has to know of an argument: its type, and whether it is a variable. -/
def Appraised (Γ : Context) (e : Expr) (t : TypedExpr) : Prop :=
  HasType Γ e t.type ∧ t.isVariable = e.isVariable

section Calls

variable {Γ : Context} {ds : Defs} {es : List Expr} {args : List TypedExpr}

/-- The walk takes for a parameter what may be passed for it. -/
theorem Appraised.takes_iff {e : Expr} {t : TypedExpr} (h : Appraised Γ e t) (hv : t.isVoid = false)
    (param : DefId) : ds.Takes param t ↔ Passes Γ (ds.formalOf param) e := by
  obtain ⟨ht, hvar⟩ := h
  unfold Defs.Takes Defs.formalOf
  rw [hvar]
  split
  · next hr =>
    rw [hr]
    constructor
    · rintro ⟨he, htype⟩
      exact .reference (htype ▸ ht) he
    · intro hp
      cases hp with
      | reference ht' he => exact ⟨he, ht.unique ht'⟩
  · next hr =>
    rw [show ds.isByRef param = false by simpa using hr, assigns_iff hv]
    constructor
    · exact fun ha => .value ht ha
    · intro hp
      cases hp with
      | value ht' ha => exact ht.unique ht' ▸ ha

theorem Appraised.allTake_iff (h : List.Forall₂ (Appraised Γ) es args)
    (hv : ∀ t ∈ args, t.isVoid = false) : ∀ params : List DefId,
    List.Forall₂ ds.Takes params args ↔ List.Forall₂ (Passes Γ) (params.map ds.formalOf) es := by
  induction h with
  | nil =>
    intro params
    cases params with
    | nil => exact ⟨fun _ => .nil, fun _ => .nil⟩
    | cons _ _ => exact ⟨nofun, nofun⟩
  | @cons e t es args hk _ ih =>
    obtain ⟨ht, hargs⟩ := List.forall_mem_cons.mp hv
    intro params
    cases params with
    | nil => exact ⟨nofun, nofun⟩
    | cons p params =>
      rw [List.map_cons, List.forall₂_cons, List.forall₂_cons, hk.takes_iff ht, ih hargs]

theorem Appraised.scalar_iff {e : Expr} {t : TypedExpr} (h : Appraised Γ e t) (i : Intrinsic) :
    (t.type.isArray = false ∧ (i = .read → t.isVariable = true)) ↔ i.Takes Γ e := by
  obtain ⟨ht, hvar⟩ := h
  rw [hvar]
  constructor
  · rintro ⟨ha, hr⟩
    rw [ValueType.eq_scalar ha] at ht
    exact ⟨_, ht, hr⟩
  · rintro ⟨b, hb, hr⟩
    exact ⟨by rw [ht.unique hb]; rfl, hr⟩

theorem Appraised.allScalar_iff (h : List.Forall₂ (Appraised Γ) es args) (i : Intrinsic) :
    (∀ t ∈ args, t.type.isArray = false ∧ (i = .read → t.isVariable = true)) ↔
      ∀ e ∈ es, i.Takes Γ e := by
  induction h with
  | nil => exact ⟨fun _ => nofun, fun _ => nofun⟩
  | cons hk _ ih => rw [List.forall_mem_cons, List.forall_mem_cons, hk.scalar_iff, ih]

theorem TypedExpr.WellTypedArgs.takes {ds : Defs} : ∀ {params : List DefId} {args : List TypedExpr},
    WellTypedArgs ds params args → List.Forall₂ ds.Takes params args
  | [], [], _ => .nil
  | [], _ :: _, h => h.elim
  | _ :: _, [], h => h.elim
  | _ :: _, _ :: _, h => .cons h.2.1 (takes h.2.2)

/-- What a callable asks of its arguments. -/
def CallableInfo.Asks (Γ : Context) (ds : Defs) (info : CallableInfo) (es : List Expr) : Prop :=
  match info.intrinsic with
  | none => List.Forall₂ (Passes Γ) (info.params.map ds.formalOf) es
  | some i => ∀ e ∈ es, i.Takes Γ e

/-- It asks the same later on. -/
theorem CallableInfo.asks_grow {ds ds' : Defs} (hg : ds.Grows ds') (hl : ds.ListsParams)
    {info info' : CallableInfo} (hi : ds.callable? g = some info)
    (hh : info'.heading = info.heading) : info'.Asks Γ ds' es ↔ info.Asks Γ ds es := by
  unfold Asks
  rw [intrinsic_of_heading hh, params_of_heading hh, hg.formals_eq hl hi]

theorem checkCall_judged (h : Located outer base f s) (hg : g ∈ s.visible) {info : CallableInfo}
    (hi : s.defs.callable? g = some info) (name : Ident)
    (ha : FineArgs outer base f s.visible s args)
    (hk : s.Quiet base → List.Forall₂ (Appraised Γ) es args) :
    Sat (checkCall f g name args) s fun _ s' =>
      (s'.Quiet base → info.Asks Γ s.defs es) ∧
      (s.Quiet base → info.Asks Γ s.defs es → s'.Quiet base) := by
  have hvoid : s.Quiet base → ∀ t ∈ args, t.isVoid = false :=
    fun hq t ht => (ha.typed hq h.solid t ht).not_void
  have hsound := checkCall_spec h.standing hg (by rw [hi]; rfl) name ha
  refine ⟨fun hq => ?_, fun hq hask => ?_⟩
  · obtain ⟨hw, _, hacc⟩ := hsound
    have hk := hk (hw.quiet hq)
    obtain ⟨info', hi', hacc⟩ := hacc hq (h.walked hw).solid
    obtain ⟨_, hi₂, hh⟩ := hw.grows.callable hi
    cases hi₂.symm.trans hi'
    unfold CallableInfo.Accepts at hacc
    unfold CallableInfo.Asks
    rw [CallableInfo.intrinsic_of_heading hh, CallableInfo.params_of_heading hh] at hacc
    cases hn : info.intrinsic with
    | none =>
      rw [hn] at hacc
      rw [← hw.grows.formals_eq h.standing.listsParams hi]
      exact (Appraised.allTake_iff hk (hvoid (hw.quiet hq)) _).mp hacc.takes
    | some i =>
      rw [hn] at hacc
      exact (Appraised.allScalar_iff hk i).mp fun t ht => (hacc t ht).2
  · have hsilent : Sat (checkCall f g name args) s fun _ s' => s'.reportCount = s.reportCount := by
      unfold CallableInfo.Asks at hask
      unfold checkCall
      refine Sat.defs ?_
      simp only [hi]
      cases hn : info.intrinsic with
      | none =>
        rw [hn] at hask
        have htake := (Appraised.allTake_iff (hk hq) (hvoid hq) _).mpr hask
        refine Sat.modify ?_
        rw [if_pos htake.length_eq.symm]
        refine (checkArgs_silent name (s := { s with calls := (f, g) :: s.calls }) htake 1).mono
          fun _ s' he => ?_
        rw [he]
        rfl
      | some i =>
        rw [hn] at hask
        exact (checkIntrinsicArgs_silent name ((Appraised.allScalar_iff (hk hq) i).mpr hask) 1).mono
          fun _ s' he => congrArg Progress.reportCount he
    unfold Progress.Quiet
    rw [hsilent]
    exact hq

end Calls

/-! ## The walk -/

/-- As `Judged`, for the arguments of a call. -/
structure JudgedAll (base : Nat) (s s' : Progress) (es : List Expr) (ts : List TypedExpr) :
    Prop where
  sound : s'.Quiet base → List.Forall₂ (Appraised s.context) es ts
  complete : s.Quiet base → (∀ e ∈ es, ∃ τ, HasType s.context e τ) → s'.Quiet base

theorem Reads.appraised {Γ : Context} {e : Expr} {t : TypedExpr} (h : Reads base s t e.bare)
    (hq : s.Quiet base) (ht : HasType Γ e t.type) : Appraised Γ e t := by
  refine ⟨ht, ?_⟩
  rw [← t.isVariable_erase s.defs, h hq s.defs (.refl _)]
  cases e <;> rfl

/-- What can be passed has a type. -/
theorem Passes.hasType {Γ : Context} {p : Formal} {e : Expr} (h : Passes Γ p e) :
    ∃ τ, HasType Γ e τ := by
  cases h with
  | value ht _ => exact ⟨_, ht⟩
  | reference ht _ => exact ⟨_, ht⟩

theorem allPass_hasType {Γ : Context} {params : List Formal} {es : List Expr}
    (h : List.Forall₂ (Passes Γ) params es) : ∀ e ∈ es, ∃ τ, HasType Γ e τ := by
  induction h with
  | nil => exact nofun
  | cons hp _ ih => exact List.forall_mem_cons.mpr ⟨hp.hasType, ih⟩

mutual

theorem annotateExpr_judged (e : Expr) : ∀ {s : Progress}, Located outer base f s →
    Sat (annotateExpr f e) s fun t s' => Judged base s s' e t := by
  intro s h
  cases e with
  | literal v sign pos =>
    refine applySign_judged (e := .literal v .plus pos) h.standing sign ⟨fun _ => ?_, fun hq _ _ => hq⟩
      rfl (by cases sign <;> rfl) ?_
    · show HasType s.context _ (literalType v)
      rw [literalType_eq]
      exact .literal (.plus _)
    · intro hv
      cases v <;> cases hv
  | binary op left right sign pos =>
    refine ((annotateExpr_spec left h.standing).and (annotateExpr_judged left h)).bind
      fun l s₁ hx => ?_
    obtain ⟨⟨w₁, hl⟩, jl⟩ := hx
    have h₁ := h.walked w₁
    refine ((annotateExpr_spec right h₁.standing).and (annotateExpr_judged right h₁)).bind
      fun r s₂ hx => ?_
    obtain ⟨⟨w₂, hr⟩, jr⟩ := hx
    have h₂ := h₁.walked w₂
    have hctx := w₁.context h.standing
    rw [w₁.visible] at hr
    refine ((checkBinary_spec h₂.standing op (hl.later w₂) hr pos).and
      (checkBinary_judged h₂ op (hl.later w₂) hr pos)).bind fun t s₃ hx => ?_
    obtain ⟨⟨w₃, ht⟩, hsound, hcomplete⟩ := hx
    refine applySign_judged (e := .binary op left right .plus pos) w₃.standing sign
      ⟨fun hq => ?_, fun hq τ hty => ?_⟩ rfl (by cases sign <;> rfl)
      fun hv => ht.of_void hv (h₂.walked w₃).solid
    · have hlt := jl.sound (w₂.quiet (w₃.quiet hq))
      have hrt := jr.sound (w₃.quiet hq)
      obtain ⟨a, b, c, d, hla, hrb, htd, hm, ho⟩ := binaryResult_iff.mp (hsound hq)
      rw [hctx, hrb] at hrt
      rw [hla] at hlt
      rw [htd]
      exact .binary hlt hrt hm ho (.plus _)
    · cases hty with
      | binary hlt hrt hm ho _ =>
      have hq₁ := jl.complete hq _ hlt
      rw [← hctx] at hrt
      have hq₂ := jr.complete hq₁ _ hrt
      have hres : ∃ operand, binaryResult op l.type r.type = some (operand, .scalar _) :=
        binaryResult_iff.mpr
          ⟨_, _, _, _, jl.type_eq hq hlt, jr.type_eq hq₁ hrt, rfl, hm, ho⟩
      obtain ⟨_, hres⟩ := hres
      exact hcomplete _ hres hq₂
  | not operand sign pos =>
    refine ((annotateExpr_spec operand h.standing).and (annotateExpr_judged operand h)).bind
      fun o s₁ hx => ?_
    obtain ⟨⟨w₁, ho⟩, jo⟩ := hx
    have h₁ := h.walked w₁
    refine ((checkNot_spec h₁.standing ho pos).and (checkNot_judged h₁ ho pos)).bind
      fun t s₂ hx => ?_
    obtain ⟨⟨w₂, ht⟩, hsound, hcomplete⟩ := hx
    refine applySign_judged (e := .not operand .plus pos) w₂.standing sign
      ⟨fun hq => ?_, fun hq τ hty => ?_⟩ rfl (by cases sign <;> rfl)
      fun hv => ht.of_void hv (h₁.walked w₂).solid
    · obtain ⟨hb, ht⟩ := hsound hq
      rw [ht]
      exact .not (hb ▸ jo.sound (w₂.quiet hq)) (.plus _)
    · cases hty with
      | not hb _ => exact hcomplete (jo.type_eq hq hb) (jo.complete hq _ hb)
  | call callee args sign =>
    refine ((resolveFunction_spec h.standing callee).and (resolveFunction_judged h callee)).bind
      fun r s₁ hx => ?_
    obtain ⟨⟨w₁, hr⟩, hsound₁, hcomplete₁⟩ := hx
    cases r with
    | none =>
      refine .reported hr (fun hq τ hty => hr ?_) _
      cases hty with
      | call hf _ _ => exact hcomplete₁ hq _ _ hf
    | some g =>
      obtain ⟨hg, hkind⟩ := hr
      have h₁ := h.walked w₁
      have hctx := w₁.context h.standing
      refine ((annotateExprs_spec args h₁.standing).and (annotateExprs_judged args h₁)).bind
        fun as s₂ hx => ?_
      obtain ⟨⟨w₂, has⟩, jas⟩ := hx
      have h₂ := h₁.walked w₂
      obtain ⟨info, hi, hfun⟩ := Option.map_eq_some_iff.mp hkind
      obtain ⟨info₂, hi₂, hh₂⟩ := w₂.grows.callable hi
      have hg₂ : g ∈ s₂.visible := (w₂.visible.trans w₁.visible).symm ▸ hg
      refine ((checkCall_spec h₂.standing hg₂ (by rw [hi₂]; rfl) callee
        (by rw [w₂.visible]; exact has)).and (checkCall_judged h₂ hg₂ hi₂ callee
          (by rw [w₂.visible]; exact has) jas.sound)).bind fun _ s₃ hx => ?_
      obtain ⟨⟨w₃, _, _⟩, hsound₃, hcomplete₃⟩ := hx
      refine Sat.defs ?_
      have h₃ := h₂.walked w₃
      obtain ⟨info₃, hi₃, hh₃⟩ := w₃.grows.callable hi₂
      have hkind₃ : info₃.kind = .function :=
        (CallableInfo.kind_of_heading (hh₃.trans hh₂)).trans hfun
      obtain ⟨hvoid, hnone⟩ := (h₃.solid.callable hi₃).1 hkind₃
      -- between resolving the callee and the call nothing has changed about it
      have hasks : info₂.Asks s₁.context s₂.defs args ↔
          List.Forall₂ (Passes s.context) (info.params.map s₁.defs.formalOf) args := by
        rw [CallableInfo.asks_grow w₂.grows w₁.standing.listsParams hi hh₂, hctx]
        unfold CallableInfo.Asks
        rw [← CallableInfo.intrinsic_of_heading (hh₃.trans hh₂), hnone]
      have htype : s₃.defs.typeOf g = s₁.defs.typeOf g :=
        Defs.typeOf_congr ((w₂.trans w₃).grows.signature g (Defs.lt_size_of_callable? (by rw [hi]; rfl)))
      refine applySign_judged (e := .call callee args .plus) w₃.standing sign
        ⟨fun hq => ?_, fun hq τ hty => ?_⟩ rfl (by cases sign <;> rfl)
        fun hv => absurd (hvoid.symm.trans hv) (by decide)
      · obtain ⟨_, info', ⟨⟩, hi', _, hf⟩ := hsound₁ (w₂.quiet (w₃.quiet hq))
        cases hi.symm.trans hi'
        show HasType s.context _ (s₃.defs.typeOf g)
        rw [htype]
        exact .call hf (hasks.mp (hsound₃ hq)) (.plus _)
      · cases hty with
        | call hf hp _ =>
        have hq₁ := hcomplete₁ hq _ _ hf
        obtain ⟨_, info', ⟨⟩, hi', _, hf'⟩ := hsound₁ hq₁
        cases hi.symm.trans hi'
        obtain ⟨hparams, _⟩ := Entity.routine.inj (Option.some.inj (hf.symm.trans hf'))
        rw [hparams] at hp
        have hq₂ := jas.complete hq₁ fun e he => hctx.symm ▸ allPass_hasType hp e he
        exact hcomplete₃ hq₂ (hasks.mpr hp)
  | member b member sign pos =>
    refine ((annotateExpr_spec b h.standing).and (annotateExpr_judged b h)).bind
      fun b' s₁ hx => ?_
    obtain ⟨⟨w₁, hb⟩, jb⟩ := hx
    have h₁ := h.walked w₁
    refine ((checkMember_spec h₁.standing hb member pos).and
      (checkMember_judged h₁ hb member pos)).bind fun t s₂ hx => ?_
    obtain ⟨⟨w₂, ht⟩, hsound, hcomplete⟩ := hx
    refine applySign_judged (e := .member b member .plus pos) w₂.standing sign
      ⟨fun hq => ?_, fun hq τ hty => ?_⟩ rfl (by cases sign <;> rfl)
      fun hv => ht.of_void hv (h₁.walked w₂).solid
    · obtain ⟨ha, hm, ht⟩ := hsound hq
      have hbt := jb.sound (w₂.quiet hq)
      rw [ht]
      rw [ValueType.eq_array ha] at hbt
      exact .size hbt hm (.plus _)
    · cases hty with
      | size hbt hm _ =>
        exact hcomplete (by rw [jb.type_eq hq hbt]; rfl) hm (jb.complete hq _ hbt)
  | name name sign =>
    refine ((resolveVariable_spec h.standing name).and (resolveVariable_judged h name)).bind
      fun r s₁ hx => ?_
    obtain ⟨⟨w₁, hr⟩, hsound, hcomplete⟩ := hx
    cases r with
    | none =>
      refine .reported hr (fun hq τ hty => hr ?_) _
      cases hty with
      | name hf _ => exact hcomplete hq _ hf
    | some id =>
      refine Sat.defs ?_
      have hvoid : (s₁.defs.typeOf id).isVoid = false := (h.walked w₁).solid.typeOf_variable hr.2.1
      refine applySign_judged (e := .name name .plus) w₁.standing sign
        ⟨fun hq => ?_, fun hq τ hty => ?_⟩ rfl (by cases sign <;> rfl)
        fun hv => absurd (hvoid.symm.trans hv) (by decide)
      · obtain ⟨_, ⟨⟩, hf⟩ := hsound hq
        exact .name hf (.plus _)
      · cases hty with
        | name hf _ => exact hcomplete hq _ hf
  | element name index sign =>
    refine ((resolveVariable_spec h.standing name).and (resolveVariable_judged h name)).bind
      fun r s₁ hx => ?_
    obtain ⟨⟨w₁, hr⟩, hsound₁, hcomplete₁⟩ := hx
    cases r with
    | none =>
      refine .reported hr (fun hq τ hty => hr ?_) _
      cases hty with
      | element hf _ _ => exact hcomplete₁ hq _ hf
    | some id =>
      have h₁ := h.walked w₁
      have hctx := w₁.context h.standing
      refine ((annotateExpr_spec index h₁.standing).and (annotateExpr_judged index h₁)).bind
        fun i s₂ hx => ?_
      obtain ⟨⟨w₂, hi⟩, ji⟩ := hx
      have h₂ := h₁.walked w₂
      rw [w₁.visible] at hi
      refine ((checkElement_spec h₂.standing name (w₂.world.allows hr) hi).and
        (checkElement_judged h₂ name id hi)).bind fun t s₃ hx => ?_
      obtain ⟨⟨w₃, ht⟩, hsound₃, hcomplete₃⟩ := hx
      have h₃ := h₂.walked w₃
      have htype : s₂.defs.typeOf id = s₁.defs.typeOf id :=
        Defs.typeOf_congr (w₂.grows.signature id (w₁.size ▸ h.standing.range id hr.1))
      rw [htype] at hsound₃ hcomplete₃
      refine applySign_judged (e := .element name index .plus) w₃.standing sign
        ⟨fun hq => ?_, fun hq τ hty => ?_⟩ rfl (by cases sign <;> rfl)
        fun hv => ht.of_void hv h₃.solid
      · obtain ⟨_, ⟨⟩, hf⟩ := hsound₁ (w₂.quiet (w₃.quiet hq))
        obtain ⟨ha, hint, htt⟩ := hsound₃ hq
        have hit := ji.sound (w₃.quiet hq)
        rw [hctx, hint] at hit
        rw [ValueType.eq_array ha] at hf
        rw [htt]
        exact .element hf hit (.plus _)
      · cases hty with
        | element hf hit _ =>
        have hq₁ := hcomplete₁ hq _ hf
        obtain ⟨_, ⟨⟩, hf'⟩ := hsound₁ hq₁
        rw [← hctx] at hit
        have htype : ValueType.array _ = s₁.defs.typeOf id :=
          Entity.variable.inj (Option.some.inj (hf.symm.trans hf'))
        exact hcomplete₃ (htype ▸ rfl) (ji.type_eq hq₁ hit) (ji.complete hq₁ _ hit)

theorem annotateExprs_judged (es : List Expr) : ∀ {s : Progress}, Located outer base f s →
    Sat (annotateExprs f es) s fun ts s' => JudgedAll base s s' es ts := by
  intro s h
  cases es with
  | nil => exact ⟨fun _ => .nil, fun hq _ => hq⟩
  | cons e es =>
    refine (((annotateExpr_spec e h.standing).and (annotateExpr_reads e h.tidy)).and
      (annotateExpr_judged e h)).bind fun t s₁ hx => ?_
    obtain ⟨⟨⟨w₁, _⟩, rt⟩, jt⟩ := hx
    have h₁ := h.walked w₁
    have hctx := w₁.context h.standing
    refine ((annotateExprs_spec es h₁.standing).and (annotateExprs_judged es h₁)).bind
      fun ts s₂ hx => ?_
    obtain ⟨⟨w₂, _⟩, jts⟩ := hx
    refine Sat.ret ⟨fun hq => ?_, fun hq hes => ?_⟩
    · have hq₁ := w₂.quiet hq
      exact .cons (rt.appraised hq₁ (jt.sound hq₁)) (hctx ▸ jts.sound hq)
    · obtain ⟨⟨τ, he⟩, hes⟩ := List.forall_mem_cons.mp hes
      exact jts.complete (jt.complete hq τ he) (hctx.symm ▸ hes)

end

end StackPascal
