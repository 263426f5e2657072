import StackPascal.Proofs.Legality.Acceptance
import StackPascal.Proofs.Legality.Declaration

/-!
The verdict of the walk on headings.

* `AtHeading`: between the declaration of a callable and its body;
* `Taken`: the callable has some of the parameters of its heading, and the
  context says so;
* `declareParams_judged`: the parameters are declared if they may follow those
  before them.
-/

namespace StackPascal

open Analyze

variable {outer outer' : DefId → List DefId} {base : Nat} {f g : DefId}
  {s s' s₁ t t' : Progress} {name : String} {own : List (Binding DefId)}

/-! ## Callables -/

theorem resultType_judged (h : Located outer base f s) (heading : Heading) :
    Sat (resultType f heading) s fun _ s' =>
      Verdict base s s' (∀ t, heading.result = some t → SizeFits s.context t) := by
  unfold Analyze.resultType
  cases heading.result with
  | none => exact .silent rfl nofun
  | some type =>
    refine (signatureType_judged h type).mono fun _ _ hv => hv.iff ⟨fun hs t ht => ?_, fun hs => hs type rfl⟩
    cases ht
    exact hs

/-- The callable as its heading declares it. -/
theorem Defs.entityOf_of_headingOf {ds : Defs} {heading : Heading} {info : CallableInfo}
    (hi : ds.callable? g = some info) (hn : info.intrinsic = none)
    (hh : ds.headingOf g = heading.bare) :
    (heading.name.text, ds.entityOf g) = heading.entry := by
  have hunsized : ∀ t : TypeExpr, t.unsized.type = t.type := by
    intro t
    cases t <;> rfl
  have hparams : heading.bare.params.map Param.formal = heading.params.map Param.formal := by
    rw [Heading.bare, List.map_map]
    refine List.map_congr_left fun p _ => ?_
    show Formal.mk p.type.unsized.type p.byRef = _
    rw [hunsized]
    rfl
  have hresult : heading.bare.result.map TypeExpr.type = heading.result.map TypeExpr.type := by
    rw [Heading.bare, Option.map_map]
    exact congrArg (fun f => Option.map f heading.result) (funext hunsized)
  rw [entityOf_heading hi hn, hh, hparams, hresult]
  rfl

theorem Defs.typeOf_of_headingOf {ds : Defs} {heading : Heading} (hs : ds.Solid)
    (hc : (ds.callable? g).isSome) (hh : ds.headingOf g = heading.bare) :
    ds.typeOf g = (heading.result.map TypeExpr.type).getD .void := by
  obtain ⟨info, hi⟩ := Option.isSome_iff_exists.mp hc
  have hresult : ds.resultOf g = heading.result.map TypeExpr.unsized := congrArg Heading.result hh
  unfold resultOf kindOf? at hresult
  rw [hi] at hresult
  cases hr : heading.result with
  | none =>
    rw [hr] at hresult
    refine (hs.callable hi).2 ?_
    cases hk : info.kind with
    | procedure => rfl
    | function => simp [hk] at hresult
  | some t =>
    rw [hr, Option.map_some] at hresult
    split at hresult
    · have ht := congrArg TypeExpr.type (Option.some.inj hresult)
      have hleft : ((ds.typeOf g).written none).type = ds.typeOf g := by
        obtain ⟨b, a⟩ := ds.typeOf g
        cases a <;> rfl
      have hright : t.unsized.type = t.type := by cases t <;> rfl
      exact hleft.symm.trans (ht.trans hright)
    · cases hresult

/-- Since `s` the callable `g` has been bound to `name`, and in the scope of its
parameters `own` has been bound. -/
structure AtHeading (s : Progress) (name : String) (g : DefId) (own : List (Binding DefId))
    (t : Progress) : Prop where
  layers : ∃ scope, t.scopes.layers =
    own :: (⟨name, scope, g⟩ :: s.scopes.layers.headD []) :: s.scopes.layers.tail
  apart : ∀ b ∈ own, b.value ≠ g

theorem declareCallable_judged (h : Located outer base f s) (heading : Heading) :
    Sat (declareCallable f heading) s fun r s₁ =>
      Verdict base s s₁ (s.context.Free heading.name.text ∧
        ∀ t, heading.result = some t → SizeFits s.context t) ∧
      ∀ g, r = some g → ∃ scope, s₁.scopes.layers =
        (⟨heading.name.text, scope, g⟩ :: s.scopes.layers.headD []) :: s.scopes.layers.tail := by
  have hfree := Progress.free_context h.layered heading.name.text
  unfold declareCallable
  refine Sat.scopes ?_
  split
  · next hhere =>
    refine (report_spec h.standing _ _).bind fun _ s₁ hr => Sat.ret ⟨.reported hr.2 ?_, nofun⟩
    rintro ⟨hf, _⟩
    rw [hfree.mp hf] at hhere
    cases hhere
  · next hhere =>
    have hhere : s.scopes.here? heading.name.text = none := by simpa using hhere
    refine ((resultType_spec h.standing heading).and (resultType_judged h heading)).bind
      fun type s₁ hx => ?_
    obtain ⟨⟨w₁, _⟩, hv⟩ := hx
    have h₁ := h.walked w₁
    refine ((declare_spec h₁.standing heading.name _ _).and (declare_judged h₁ heading.name _ _)).bind
      fun r s₂ hx => ?_
    obtain ⟨hr, hsome⟩ := hx
    rw [w₁.context h.standing] at hsome
    cases r with
    | none => exact absurd (hsome.mpr (hfree.mpr hhere)) nofun
    | some g =>
      obtain ⟨rfl, rfl⟩ := hr
      refine ⟨?_, fun g hg => ?_⟩
      · exact hv.iff ⟨fun hs => ⟨hfree.mpr hhere, hs⟩, And.right⟩
      · cases hg
        refine ⟨s₁.scopes.current, ?_⟩
        rw [← w₁.scopes]
        exact Progress.layers_declared h₁.layered heading.name type
          (.callable (.new (headingKind heading) (some f)))

namespace AtHeading

/-- The callable is known with the parameters that it has at the moment. -/
theorem context (ha : AtHeading s name g own t) (h : Standing outer base f s)
    (hg : s.defs.Grows t.defs) :
    t.context = own.map t.defs.entryOf :: s.context.declare [(name, t.defs.entityOf g)] := by
  obtain ⟨scope, hl⟩ := ha.layers
  rw [← map_layers_grow h hg]
  unfold Progress.context
  rw [hl, s.scopes.layers_cons]
  rfl

/-- Nor does it matter after its body what its parameters were. -/
theorem context_left (h : Standing outer base f s) (hg : s.defs.Grows s'.defs)
    (hl : ∃ scope, s'.scopes.layers =
      (⟨name, scope, g⟩ :: s.scopes.layers.headD []) :: s.scopes.layers.tail) :
    s'.context = s.context.declare [(name, s'.defs.entityOf g)] := by
  obtain ⟨scope, hl⟩ := hl
  rw [← map_layers_grow h hg]
  unfold Progress.context
  rw [hl, s.scopes.layers_cons]
  rfl

end AtHeading

/-! ## Parameters -/

namespace Defs

variable {ds : Defs}

/-- A new parameter says something about its callable only. -/
theorem entityOf_addParam_of_ne {id : DefId} (v : DefId) (h : id ≠ g) :
    (ds.addParam g v).entityOf id = ds.entityOf id := by
  have hcall : (ds.addParam g v).callable? id = ds.callable? id := by
    rw [addParam, callable?_updateCallable, if_neg h]
  have hformal : (ds.addParam g v).formalOf = ds.formalOf := by
    funext u
    rw [formalOf, formalOf, typeOf_addParam, isByRef_addParam]
  unfold entityOf
  rw [hcall, hformal, typeOf_addParam]

end Defs

theorem ScopeTable.mem_of_mem_layers {α : Type} {t : ScopeTable α} {l : List (Binding α)}
    (hl : l ∈ t.layers) {b : Binding α} (hb : b ∈ l) : b ∈ t.bindings := by
  obtain ⟨id, _, rfl⟩ := List.mem_map.mp hl
  exact (List.mem_filter.mp hb).1

namespace AtHeading

theorem mem_bindings (ha : AtHeading s name g own t) {b : Binding DefId} (hb : b ∈ own) :
    b ∈ t.scopes.bindings := by
  obtain ⟨scope, hl⟩ := ha.layers
  exact ScopeTable.mem_of_mem_layers (hl ▸ List.mem_cons_self ..) hb

theorem walked (ha : AtHeading s name g own t) (ht : Standing outer base g t)
    (hw : Walked outer base g t t') :
    AtHeading s name g own t' ∧ own.map t'.defs.entryOf = own.map t.defs.entryOf := by
  refine ⟨⟨?_, ha.apart⟩, List.map_congr_left fun b hb => ?_⟩
  · rw [hw.scopes]
    exact ha.layers
  · exact entryOf_grow ht hw.grows (ha.mem_bindings hb)

theorem declaredParam (ha : AtHeading s name g own t) (ht : Located outer base g t) (p : Param) :
    ∃ b, AtHeading s name g (b :: own) (t.declaredParam g p.name p.type.type p.byRef) ∧
      (b :: own).map (t.declaredParam g p.name p.type.type p.byRef).defs.entryOf =
        p.entry :: own.map t.defs.entryOf := by
  have hne : t.defs.nextId ≠ g := by
    rintro rfl
    exact Nat.lt_irrefl _ (Defs.lt_size_of_callable? ht.standing.here)
  have hpush : t.defs.Grows (t.declared p.name p.type.type (.param g p.byRef)).defs :=
    .push _ _ nofun
  obtain ⟨scope, hl⟩ := ha.layers
  refine ⟨⟨p.name.text, t.scopes.current, t.defs.nextId⟩, ⟨⟨scope, ?_⟩, ?_⟩, ?_⟩
  · have hlayers := Progress.layers_declared ht.layered p.name p.type.type (.param g p.byRef)
    rw [hl] at hlayers
    exact hlayers
  · exact List.forall_mem_cons.mpr ⟨hne, ha.apart⟩
  · refine congrArg₂ List.cons ?_ (List.map_congr_left fun b hb => ?_)
    · show (p.name.text, ((t.defs.push _).addParam g t.defs.nextId).entityOf t.defs.nextId) = _
      rw [Defs.entityOf_addParam_of_ne _ hne, Defs.entityOf_push _ rfl]
      rfl
    · show (b.name, ((t.defs.push _).addParam g t.defs.nextId).entityOf b.value) = _
      rw [Defs.entityOf_addParam_of_ne _ (ha.apart b hb)]
      exact entryOf_grow ht.standing hpush (ha.mem_bindings hb)

end AtHeading

theorem declareParam_judged (h : Standing outer' base f s) (hin : InHeading outer base g s s₁ t)
    (ht : Located outer base g t) (ha : AtHeading s name g own t) (p : Param) :
    Sat (declareParam g p) t fun _ t' => ∃ own', AtHeading s name g own' t' ∧
      Verdict base t t' (SizeFits t.context p.type ∧
        (own.map t.defs.entryOf).lookup p.name.text = none) ∧
      (t'.Quiet base → own'.map t'.defs.entryOf = p.entry :: own.map t.defs.entryOf) := by
  refine ((signatureType_spec ht.standing p.type).and (signatureType_judged ht p.type)).bind
    fun type t₁ hx => ?_
  obtain ⟨⟨w₁, rfl⟩, hv⟩ := hx
  have h₁ := ht.walked w₁
  obtain ⟨ha₁, hentry⟩ := ha.walked ht.standing w₁
  have hfree : t₁.context.Free p.name.text ↔
      (own.map t.defs.entryOf).lookup p.name.text = none := by
    rw [w₁.context ht.standing, ha.context h hin.grows]
    rfl
  refine ((declare_spec h₁.standing p.name p.type.type (.param g p.byRef)).and
    (declare_judged h₁ p.name p.type.type (.param g p.byRef))).bind fun r t₂ hx => ?_
  obtain ⟨hr, hsome⟩ := hx
  rw [hfree] at hsome
  cases r with
  | none =>
    have htaken : (own.map t.defs.entryOf).lookup p.name.text ≠ none :=
      fun hn => absurd (hsome.mpr hn) nofun
    obtain ⟨ha₂, _⟩ := ha₁.walked h₁.standing hr.1
    exact ⟨own, ha₂, .reported hr.2 fun hp => htaken hp.2, fun hq => absurd hq hr.2⟩
  | some id =>
    obtain ⟨rfl, rfl⟩ := hr
    have hnew := hsome.mp rfl
    obtain ⟨b, ha₂, hentry₂⟩ := ha₁.declaredParam h₁ p
    exact ⟨b :: own, ha₂, hv.iff ⟨fun hs => ⟨hs, hnew⟩, And.left⟩,
      fun _ => hentry₂.trans (by rw [hentry])⟩

theorem InHeading.layered (hin : InHeading outer base g s s₁ t) (h : s₁.scopes.Layered) :
    t.scopes.Layered := by
  obtain ⟨new, ha⟩ := hin.scopes
  exact h.enter.above ha

/-- Of the parameters in its heading the callable has those in `done`, and they
are what its scope declares. -/
structure Taken (heading : Heading) (done : List Param) (g : DefId) (own : List (Binding DefId))
    (t : Progress) : Prop where
  scope : own.map t.defs.entryOf = (heading.upTo done).scope
  heading : t.defs.headingOf g = (heading.upTo done).bare

namespace Taken

variable {heading : Heading} {done : List Param}

theorem entity (hk : Taken heading done g own t) (hin : InHeading outer base g s s₁ t) :
    (heading.name.text, t.defs.entityOf g) = (heading.upTo done).entry := by
  obtain ⟨info, hi, hnone⟩ := hin.routine
  exact Defs.entityOf_of_headingOf hi hnone hk.heading

theorem context (hk : Taken heading done g own t) (ha : AtHeading s heading.name.text g own t)
    (h : Standing outer' base f s) (hin : InHeading outer base g s s₁ t) :
    t.context = (heading.upTo done).inside s.context := by
  rw [ha.context h hin.grows, hk.scope, hk.entity hin]
  rfl

end Taken

theorem declareParams_judged (h : Standing outer' base f s) (hs₁ : s₁.scopes.Layered)
    (heading : Heading) (ps : List Param) (hn : ∀ p ∈ ps, p.type.Named) :
    ∀ {t : Progress} {own : List (Binding DefId)} {done : List Param},
    InHeading outer base g s s₁ t → t.defs.Solid → t.Labelled →
    AtHeading s heading.name.text g own t → (t.Quiet base → Taken heading done g own t) →
    Sat (declareParams g ps) t fun _ t' => ∃ own', AtHeading s heading.name.text g own' t' ∧
      Verdict base t t' (heading.AcceptsParams s.context done ps) ∧
      (t'.Quiet base → Taken heading (done ++ ps) g own' t') := by
  induction ps with
  | nil =>
    intro t own done _ _ _ ha hk
    rw [List.append_nil]
    exact ⟨own, ha, .silent rfl trivial, hk⟩
  | cons p ps ih =>
    intro t own done hin hs hl ha hk
    obtain ⟨hp, hps⟩ := List.forall_mem_cons.mp hn
    have ht : Located outer base g t := ⟨⟨hin.standing, hs, hl⟩, hin.layered hs₁⟩
    refine (((declareParam_spec hin p).and (declareParam_reads hin hs hl rfl p)).and
      (declareParam_judged h hin ht ha p)).bind fun _ t₁ hx => ?_
    obtain ⟨⟨⟨hin₁, _, hsolid⟩, hl₁, he₁, hread₁⟩, own₁, ha₁, hv₁, hown₁⟩ := hx
    have hsol₁ := hsolid hp hs
    have hk₁ : t₁.Quiet base → Taken heading (done ++ [p]) g own₁ t₁ := fun hq₁ => by
      have hk := hk (Nat.le_trans (reportCount_mono he₁) hq₁)
      refine ⟨?_, ?_⟩
      · rw [hown₁ hq₁, hk.scope, heading.scope_upTo_concat]
      · rw [hread₁ hq₁, hk.heading]
        simp [Heading.bare, Heading.upTo]
    refine ((declareParams_reads ps hps hin₁ hsol₁ hl₁ rfl).and
      (ih hps hin₁ hsol₁ hl₁ ha₁ hk₁)).mono fun _ t₂ hx => ?_
    obtain ⟨⟨_, he₂, _⟩, own₂, ha₂, hv₂, hk₂⟩ := hx
    rw [List.append_assoc] at hk₂
    refine ⟨own₂, ha₂, .of_quiet (he₁.trans he₂) fun hq => ?_, hk₂⟩
    -- as long as nothing has been reported, the context is the one in the heading
    rw [(hk hq).context ha h hin, (hk hq).scope] at hv₁
    exact hv₁.trans he₂ fun _ => hv₂

end StackPascal
