import StackPascal.Proofs.NamedTypes
import StackPascal.Proofs.Walk.Declaration

/-!
The walk over headings.

A callable is declared in the callable around it; its parameters are declared
inside it, in a scope of their own. `InHeading` is the moment between the two:
the callable has been declared, and owns nothing but parameters.
-/

namespace StackPascal

open Analyze

variable {outer outer' : DefId → List DefId} {base : Nat} {f g : DefId}
  {s s₁ t t' : Progress}

/-! ## Sizes -/

theorem annotateSize_spec (h : Standing outer base f s) (size : Expr) :
    Sat (annotateSize f size) s fun e s' =>
      Walked outer base f s s' ∧ Fine outer base f s.visible s' e ∧
        (s'.Quiet base → s'.defs.Solid → e.type = .int) := by
  refine (annotateExpr_spec size h).bind fun e s₁ h₁ => ?_
  refine (reportIf_spec h₁.1.standing _ _ _).bind fun _ s₂ h₂ =>
    Sat.ret ⟨h₁.1.trans h₂.1, h₁.2.later h₂.1, fun hq hs => ?_⟩
  have ht := (h₁.2.later h₂.1).typed hq hs
  simpa [TypedExpr.isVoid, ht.not_void] using h₂.2 hq

theorem declaredSize_spec (h : Standing outer base f s) (names : List Ident) (type : TypeExpr) :
    Sat (declaredSize f names type) s fun size s' =>
      Walked outer base f s s' ∧
        (∀ u ∈ TypedExpr.usesOption size, (s'.world outer).Allows f s.visible u) ∧
        (s'.Quiet base → s'.defs.Solid → type.type.isArray = true →
          ∃ e, size = some e ∧ e.WellTyped s'.defs ∧ e.type = .int) := by
  cases type with
  | scalar b pos => exact ⟨.refl h, fun _ hu => (List.not_mem_nil hu).elim, nofun⟩
  | array b size pos =>
    cases size with
    | some size =>
      refine (annotateSize_spec h size).bind fun e s₁ h₁ => Sat.ret ⟨h₁.1, h₁.2.1.within, ?_⟩
      exact fun hq hs _ => ⟨e, rfl, h₁.2.1.typed hq hs, h₁.2.2 hq hs⟩
    | none =>
      refine (report_spec h pos _).bind fun _ s₁ h₁ =>
        Sat.ret ⟨h₁.1, fun _ hu => (List.not_mem_nil hu).elim, fun hq => absurd hq h₁.2⟩

theorem signatureType_spec (h : Standing outer base f s) (type : TypeExpr) :
    Sat (signatureType f type) s fun r s' => Walked outer base f s s' ∧ r = type.type := by
  cases type with
  | scalar b pos => exact ⟨.refl h, rfl⟩
  | array b size pos =>
    cases size with
    | some size => exact (annotateSize_spec h size).bind fun _ _ h₁ => Sat.ret ⟨h₁.1, rfl⟩
    | none => exact ⟨.refl h, rfl⟩

/-! ## Callables -/

theorem resultType_spec (h : Standing outer base f s) (heading : Heading) :
    Sat (resultType f heading) s fun r s' =>
      Walked outer base f s s' ∧ r = (heading.result.map TypeExpr.type).getD .void := by
  unfold Analyze.resultType
  cases heading.result with
  | some type => exact signatureType_spec h type
  | none => exact ⟨.refl h, rfl⟩

/-- The walk after the callable `g` has been declared in `f`. -/
structure NewCallable (outer outer' : DefId → List DefId) (base : Nat) (f g : DefId)
    (heading : Heading) (s s' : Progress) : Prop where
  stepped : Stepped outer outer' base f [g] s s'
  fresh : s.defs.size ≤ g.number
  around : outer' g = s.visible
  routine : ∃ info, s'.defs.callable? g = some info ∧ info.intrinsic = none
  unowned : ∀ v, s'.defs.owner v ≠ some g
  callables : s'.defs.callables = s.defs.callables ++ [g]
  solid : heading.Named → s.defs.Solid → s'.defs.Solid

/-- `outer` with the new callable `g`, declared where `Γ` is visible. -/
def withCallable (outer : DefId → List DefId) (g : DefId) (Γ : List DefId) (id : DefId) :
    List DefId :=
  if id = g then Γ else outer id

theorem withCallable_self (outer : DefId → List DefId) (g : DefId) (Γ : List DefId) :
    withCallable outer g Γ g = Γ := if_pos rfl

theorem withCallable_of_ne (outer : DefId → List DefId) {g id : DefId} (Γ : List DefId)
    (h : id ≠ g) : withCallable outer g Γ id = outer id := if_neg h

theorem Standing.newCallable (h : Standing outer base f s) (heading : Heading) :
    NewCallable outer (withCallable outer s.defs.nextId s.visible) base f s.defs.nextId heading s
      (s.declared heading.name ((heading.result.map TypeExpr.type).getD .void)
        (.callable (.new (headingKind heading) (some f)))) := by
  let type := (heading.result.map TypeExpr.type).getD .void
  let info := CallableInfo.new (headingKind heading) (some f)
  let d := s.newDef heading.name type (.callable info)
  have hnone : ∀ i, d.kind = .callable i → i.captures = [] := by
    rintro i ⟨⟩
    rfl
  have hparams : ∀ i, d.kind = .callable i → i.params = [] := by
    rintro i ⟨⟩
    rfl
  have hg : s.defs.Grows (s.defs.push d) := .push _ _ hnone
  have hab := s.declared_above heading.name type (.callable info)
  have hne : ∀ {id : DefId}, id.number < s.defs.size → id ≠ s.defs.nextId := by
    rintro _ hid rfl
    exact Nat.lt_irrefl _ hid
  have hout : ∀ {id : DefId}, id ≠ s.defs.nextId →
      withCallable outer s.defs.nextId s.visible id = outer id :=
    withCallable_of_ne outer s.visible
  have hself := withCallable_self outer s.defs.nextId s.visible
  have hcons : World.Consistent
      ⟨s.defs.push d, s.calls, withCallable outer s.defs.nextId s.visible⟩ := by
    refine h.consistent.push hnone (fun o ho => by cases ho) (fun id hid => hout hid) (fun v hv => ?_)
      (fun o ho => ?_) (fun v hv hvar => ?_) nofun
    · exact h.range v (hself ▸ hv)
    · cases ho
      exact h.here
    · exact ⟨f, rfl, h.near v (hself ▸ hv) hvar⟩
  have hcall : (s.defs.push d).callable? s.defs.nextId = some info := by
    rw [Defs.callable?_eq, Defs.get?_push, if_pos rfl]
    rfl
  have hstand : Standing (withCallable outer s.defs.nextId s.visible) base f
      (s.declared heading.name type (.callable info)) := by
    refine h.move hcons (h.listsParams.push (fun g r hk => by cases hk) hparams) hg.keeps
      (fun id hid => hout (hne hid)) hab (fun id hid => ?_) (List.suffix_cons _ _)
    cases List.mem_singleton.mp hid
    refine ⟨s.defs.scopeOf?_push _, fun hv => ?_, fun _ => ?_⟩
    · have hv : (s.defs.push d).isVariable s.defs.nextId = true := hv
      rw [Defs.isVariable_eq, Defs.signature?_push, if_pos rfl] at hv
      cases hv
    · rw [hself]
      exact List.subset_cons_self _ _
  refine ⟨⟨hab, hg, fun _ hc => hc, List.suffix_cons _ _, fun id hid => hout (hne hid), hstand⟩,
    Nat.le_refl _, hself, ⟨info, hcall, rfl⟩, ?_, Defs.callables_push .., fun hn hs => hs.push ?_⟩
  · intro v hv
    have hv : (s.defs.push d).owner v = some s.defs.nextId := hv
    rw [Defs.owner_push] at hv
    split at hv
    · cases hv
    · exact Nat.lt_irrefl _ (Defs.lt_size_of_callable? (h.consistent.owned v _ hv))
  · show (_ → _ ∧ _) ∧ (_ → _)
    unfold headingKind
    cases hr : heading.result with
    | some t => exact ⟨fun _ => ⟨hn.result t hr, rfl⟩, nofun⟩
    | none => exact ⟨nofun, fun _ => rfl⟩

/-! ## Parameters -/

/-- `g` owns nothing but parameters. -/
def Defs.OwnsParams (ds : Defs) (g : DefId) : Prop :=
  ∀ v, ds.owner v = some g → ∃ byRef, (ds.signature? v).map Def.kind = some (.param g byRef)

/-- Since `s` the callable `g` has been declared, which led to `s₁`, and the
walk has come to stand in `g`, before its body. -/
structure InHeading (outer : DefId → List DefId) (base : Nat) (g : DefId) (s s₁ t : Progress) :
    Prop where
  fresh : s.defs.size ≤ g.number
  scopes : ∃ new, s₁.scopes.enter.Above t.scopes new
  grows : s.defs.Grows t.defs
  keeps : s₁.defs.Keeps t.defs
  calls : s₁.calls ⊆ t.calls
  events : s₁.events <:+ t.events
  standing : Standing outer base g t
  routine : ∃ info, t.defs.callable? g = some info ∧ info.intrinsic = none
  ownsParams : t.defs.OwnsParams g
  callables : t.defs.callables = s₁.defs.callables

theorem Defs.isVariable_of_callable? {ds : Defs} {id : DefId} (h : (ds.callable? id).isSome) :
    ds.isVariable id = false := by
  unfold callable? at h
  unfold isVariable
  rcases hd : ds.get? id with _ | ⟨_, _, _, k, _⟩
  · rfl
  · cases k <;> simp [hd, Def.callable?, Def.isVariable] at h ⊢

/-- Entering a scope changes neither what is visible nor what is known. -/
theorem Standing.enter (h : Standing outer base f s) :
    Standing outer base f { s with scopes := s.scopes.enter } where
  consistent := h.consistent
  listsParams := h.listsParams
  here := h.here
  range := h.range
  near := h.near
  callables := h.callables
  bound b hb := ⟨List.mem_cons_of_mem _ (h.bound b hb).1, (h.bound b hb).2⟩
  program hp := by
    have hp : (⟨s.scopes.nextScope⟩ : ScopeId) = .program := hp
    exact absurd (congrArg ScopeId.number hp) (Nat.ne_of_gt h.nextScope)
  nextScope := Nat.lt_succ_of_lt h.nextScope
  reports := h.reports

theorem NewCallable.enter {heading : Heading} (h : NewCallable outer outer' base f g heading s s₁) :
    InHeading outer' base g s s₁ { s₁ with scopes := s₁.scopes.enter } := by
  have hst := h.stepped.standing
  obtain ⟨info, hi, hn⟩ := h.routine
  have hsome : (s₁.defs.callable? g).isSome := by rw [hi]; rfl
  have hvis : s₁.visible = g :: s.visible := h.stepped.visible
  have hin : Standing outer' base g { s₁ with scopes := s₁.scopes.enter } := {
    consistent := hst.consistent
    listsParams := hst.listsParams
    here := hsome
    range := hst.range
    near := by
      intro v hv hvar
      have hv : v ∈ s₁.visible := hv
      rw [hvis] at hv
      rcases List.mem_cons.mp hv with rfl | hv
      · exact absurd ((Defs.isVariable_of_callable? hsome).symm.trans hvar) (by decide)
      · have hout : v ∈ outer' g := h.around.symm ▸ hv
        exact .inr (.inr hout)
    callables := hst.callables
    bound := fun b hb => ⟨List.mem_cons_of_mem _ (hst.bound b hb).1, (hst.bound b hb).2⟩
    program := fun hp => absurd (congrArg ScopeId.number hp) (Nat.ne_of_gt hst.nextScope)
    nextScope := Nat.lt_succ_of_lt hst.nextScope
    reports := hst.reports }
  exact ⟨h.fresh, ⟨[], .refl _⟩, h.stepped.grows, (Defs.Grows.refl _).keeps, fun _ hc => hc,
    List.suffix_refl _, hin, h.routine, fun v hv => absurd hv (h.unowned v), rfl⟩

namespace InHeading

theorem later (h : InHeading outer base g s s₁ t) (hw : Walked outer base g t t') :
    InHeading outer base g s s₁ t' where
  fresh := h.fresh
  scopes := hw.scopes ▸ h.scopes
  grows := h.grows.trans hw.grows
  keeps := h.keeps.trans hw.grows.keeps
  calls := fun _ hc => hw.calls (h.calls hc)
  events := h.events.trans hw.events
  standing := hw.standing
  routine := by
    obtain ⟨info, hi, hn⟩ := h.routine
    obtain ⟨info', hi', hh⟩ := hw.grows.callable hi
    exact ⟨info', hi', (CallableInfo.intrinsic_of_heading hh).trans hn⟩
  ownsParams := by
    intro v hv
    have hlt : v.number < t.defs.size := by
      rw [← hw.size]
      refine Nat.lt_of_not_le fun hle => ?_
      rw [Defs.owner_of_size_le hle] at hv
      cases hv
    have hs := hw.grows.signature v hlt
    rw [Defs.owner_congr hs hw.grows.main] at hv
    rw [hs]
    exact h.ownsParams v hv
  callables := hw.callables.trans h.callables

end InHeading

namespace Defs

theorem owner_of_callable? {ds : Defs} {id : DefId} (h : (ds.callable? id).isSome) :
    ds.owner id = none := by
  unfold callable? at h
  unfold owner
  rcases hd : ds.get? id with _ | ⟨_, _, _, k, _⟩
  · rfl
  · cases k <;> simp [hd, Def.callable?] at h ⊢

theorem OwnsParams.newParam {ds : Defs} {g : DefId} {byRef : Bool} (h : ds.OwnsParams g)
    (hg : (ds.callable? g).isSome) {d : Def} (hd : d.kind = .param g byRef) :
    ((ds.push d).addParam g ds.nextId).OwnsParams g := by
  have hpush : ds.Grows (ds.push d) := .push _ _ fun info hi => by rw [hd] at hi; cases hi
  intro v hv
  have hv : (ds.push d).owner v = some g := (owner_updateCallable ..).symm.trans hv
  have hvg : v ≠ g := by
    rintro rfl
    have hc := (hpush.keeps.callable v (lt_size_of_callable? hg)).trans hg
    rw [owner_of_callable? hc] at hv
    cases hv
  rw [signature?_addParam_of_ne _ _ hvg, signature?_push]
  rw [owner_push] at hv
  by_cases hnext : v = ds.nextId
  · rw [if_pos hnext]
    exact ⟨byRef, by simp [Def.signature, hd, DefKind.heading]⟩
  · rw [if_neg hnext] at hv ⊢
    exact h v hv

theorem Grows.newParam {ds es : Defs} {g : DefId} (h : ds.Grows es) (hg : ds.size ≤ g.number)
    {d : Def} (hd : ∀ info, d.kind ≠ .callable info) (v : DefId) :
    ds.Grows ((es.push d).addParam g v) where
  main := (main_updateCallable ..).trans h.main
  size_le := by
    rw [addParam, size_updateCallable, size_push]
    exact Nat.le_succ_of_le h.size_le
  signature id hid := by
    have hpush : es.Grows (es.push d) := .push _ _ fun info hi => absurd hi (hd info)
    have hne : id ≠ g := fun e => Nat.not_le_of_lt hid (e ▸ hg)
    rw [signature?_addParam_of_ne _ _ hne, hpush.signature id (Nat.lt_of_lt_of_le hid h.size_le)]
    exact h.signature id hid
  captures id := by
    rw [capturesOf_addParam, capturesOf_push _ _ fun info hi => absurd hi (hd info)]
    exact h.captures id

end Defs

/-- The walk after a parameter of `g` has been declared. -/
def Progress.declaredParam (t : Progress) (g : DefId) (name : Ident) (type : ValueType)
    (byRef : Bool) : Progress :=
  let d := t.declared name type (.param g byRef)
  { d with defs := d.defs.addParam g t.defs.nextId }

theorem Defs.Solid.addParam {ds : Defs} (h : ds.Solid) (g v : DefId) : (ds.addParam g v).Solid := by
  intro id d hd
  by_cases hg : id = g
  · subst hg
    unfold Defs.addParam signature? at hd
    rw [get?_updateCallable, if_pos rfl] at hd
    cases he : ds.get? id with
    | none => simp [he] at hd
    | some e =>
      have hs := h id e.signature (by simp [signature?, he])
      rcases e with ⟨_, _, _, k, _⟩
      simp only [he, Option.map_some, Option.some.injEq] at hd
      subst hd
      cases k <;> exact hs
  · rw [signature?_addParam_of_ne _ _ hg] at hd
    exact h id d hd

theorem Progress.keeps_declaredParam (t : Progress) (g : DefId) (name : Ident) (type : ValueType)
    (byRef : Bool) : t.defs.Keeps (t.declaredParam g name type byRef).defs := by
  have hpush := Defs.Grows.push t.defs (t.newDef name type (.param g byRef)) nofun
  exact hpush.keeps.trans (.addParam ..)

section NewParam

variable (h : InHeading outer base g s s₁ t) (name : Ident) (type : ValueType) (byRef : Bool)
include h

theorem InHeading.newParam : InHeading outer base g s s₁ (t.declaredParam g name type byRef) := by
  let d := t.newDef name type (.param g byRef)
  let ds := (t.defs.push d).addParam g t.defs.nextId
  have hst := h.standing
  have hkeeps : t.defs.Keeps ds := t.keeps_declaredParam g name type byRef
  have hown : ds.owner t.defs.nextId = some g :=
    (Defs.owner_updateCallable ..).trans (Defs.owner_nextId_push _ _)
  have hsize : ds.size = t.defs.size + 1 :=
    (Defs.size_updateCallable ..).trans (Defs.size_push _ _)
  have hab := t.declared_above name type (.param g byRef)
  have hcons : World.Consistent ⟨ds, t.calls, outer⟩ := by
    have hp : World.Consistent ⟨t.defs.push d, t.calls, outer⟩ :=
      hst.consistent.pushVariable rfl rfl hst.here
    refine hp.extend (Defs.main_updateCallable ..) (Defs.size_updateCallable ..)
      (fun _ => Defs.owner_updateCallable ..) (fun _ => Defs.isVariable_updateCallable ..)
      (fun _ => Defs.callable?_isSome_updateCallable ..)
      (fun _ => Defs.parentOf_addParam ..) (fun k v hv => ?_) (fun k => ?_) hp.called
    · rw [Defs.capturesOf_addParam] at hv
      exact hp.captured k v hv
    · rw [Defs.capturesOf_addParam]
      exact hp.nodup k
  have hstand : Standing outer base g (t.declaredParam g name type byRef) := by
    refine hst.move hcons (hst.listsParams.pushParam rfl hst.here) hkeeps (fun _ _ => rfl)
      hab (fun id hid => ?_) (List.suffix_cons _ _)
    cases List.mem_singleton.mp hid
    refine ⟨?_, fun _ => .inr (.inl hown), fun hc => ?_⟩
    · exact (Defs.scopeOf?_updateCallable ..).trans (t.defs.scopeOf?_push d)
    · have hc : (ds.callable? t.defs.nextId).isSome := hc
      rw [show ds.callable? t.defs.nextId = _ from Defs.callable?_updateCallable .., if_neg,
        Defs.callable?_eq, Defs.get?_push, if_pos rfl] at hc
      · cases hc
      · rintro he
        exact Nat.lt_irrefl _ (he ▸ Defs.lt_size_of_callable? hst.here)
  refine ⟨h.fresh, ?_, ?_, h.keeps.trans hkeeps, h.calls, h.events.trans (List.suffix_cons _ _),
    hstand, ?_, ?_, ?_⟩
  · obtain ⟨new, hnew⟩ := h.scopes
    exact ⟨_, hnew.trans hab⟩
  · exact h.grows.newParam h.fresh (fun info hi => by cases hi) t.defs.nextId
  · obtain ⟨info, hi, hn⟩ := h.routine
    have hi' : (t.defs.push d).callable? g = some info := by
      rw [Defs.callable?_eq, Defs.get?_push, if_neg, ← Defs.callable?_eq, hi]
      rintro rfl
      exact Nat.lt_irrefl _ (Defs.lt_size_of_callable? hst.here)
    have hadd := Defs.callable?_updateCallable (t.defs.push d) g
      (fun info => { info with params := info.params ++ [t.defs.nextId] }) g
    rw [if_pos rfl, hi'] at hadd
    exact ⟨_, hadd, hn⟩
  · exact h.ownsParams.newParam hst.here rfl
  · have hadd : ds.callables = (t.defs.push d).callables :=
      Defs.callables_congr (Defs.size_updateCallable ..)
        fun _ => Defs.callable?_isSome_updateCallable ..
    exact hadd.trans ((Defs.callables_push ..).trans ((List.append_nil _).trans h.callables))

end NewParam

theorem declareParam_spec (h : InHeading outer base g s s₁ t) (p : Param) :
    Sat (declareParam g p) t fun _ t' =>
      InHeading outer base g s s₁ t' ∧ t.defs.Keeps t'.defs ∧ (p.type.Named → t.defs.Solid → t'.defs.Solid) := by
  refine (signatureType_spec h.standing p.type).bind fun type t₁ h₁ => ?_
  obtain ⟨hw, rfl⟩ := h₁
  have hin := h.later hw
  refine (declare_spec hw.standing p.name p.type.type (.param g p.byRef)).bind fun r t₂ h₂ => ?_
  cases r with
  | none => exact ⟨hin.later h₂.1, (hw.trans h₂.1).grows.keeps, fun _ hs => h₂.1.solid_later (hw.solid_later hs)⟩
  | some id =>
    obtain ⟨rfl, rfl⟩ := h₂
    refine ⟨hin.newParam p.name p.type.type p.byRef, hw.grows.keeps.trans
      (t₁.keeps_declaredParam g p.name p.type.type p.byRef), fun hn hs => ?_⟩
    have hd : (t₁.newDef p.name p.type.type (.param g p.byRef)).signature.Solid := hn
    exact ((hw.solid_later hs).push hd).addParam g t₁.defs.nextId

theorem declareParams_spec (ps : List Param) :
    ∀ {t : Progress}, InHeading outer base g s s₁ t →
    Sat (declareParams g ps) t fun _ t' =>
      InHeading outer base g s s₁ t' ∧ t.defs.Keeps t'.defs ∧
        ((∀ p ∈ ps, p.type.Named) → t.defs.Solid → t'.defs.Solid) := by
  induction ps with
  | nil => exact fun h => ⟨h, (Defs.Grows.refl _).keeps, fun _ hs => hs⟩
  | cons p ps ih =>
    intro t h
    refine (declareParam_spec h p).bind fun _ t₁ h₁ => ?_
    refine (ih h₁.1).mono fun _ t₂ h₂ => ⟨h₂.1, h₁.2.1.trans h₂.2.1, fun hn hs => ?_⟩
    obtain ⟨hp, hps⟩ := List.forall_mem_cons.mp hn
    exact h₂.2.2 hps (h₁.2.2 hp hs)

theorem declareCallable_spec (h : Standing outer base f s) (heading : Heading) :
    Sat (declareCallable f heading) s fun r s' =>
      match r with
      | none => Walked outer base f s s'
      | some g => ∃ outer', NewCallable outer outer' base f g heading s s' := by
  unfold declareCallable
  refine Sat.scopes ?_
  split
  · exact (report_spec h _ _).bind fun _ _ h₁ => Sat.ret h₁.1
  · refine (resultType_spec h heading).bind fun type s₁ h₁ => ?_
    obtain ⟨hw, rfl⟩ := h₁
    refine (declare_spec hw.standing heading.name _ _).bind fun r s₂ h₂ => ?_
    cases r with
    | none => exact hw.trans h₂.1
    | some id =>
      obtain ⟨rfl, rfl⟩ := h₂
      have hnew := hw.standing.newCallable heading
      refine (note_spec hnew.stepped.standing _).bind fun _ s₃ h₃ => Sat.ret ?_
      have hstep := (hw.stepped.trans hnew.stepped).trans h₃.stepped
      refine ⟨_, hstep, ?_, ?_, ?_, fun v => ?_, ?_, fun hn hs => ?_⟩
      · exact Nat.le_trans hw.grows.size_le hnew.fresh
      · rw [hnew.around, hw.visible]
      · obtain ⟨info, hi, hn⟩ := hnew.routine
        obtain ⟨info', hi', hh⟩ := h₃.grows.callable hi
        exact ⟨info', hi', (CallableInfo.intrinsic_of_heading hh).trans hn⟩
      · intro hv
        have hlt : v.number < _ := Nat.lt_of_not_le fun hle => by
          rw [Defs.owner_of_size_le hle] at hv
          cases hv
        rw [h₃.size] at hlt
        exact hnew.unowned v ((h₃.grows.keeps.owner v hlt).symm.trans hv)
      · rw [h₃.callables, hnew.callables, hw.callables]
      · exact h₃.solid_later (hnew.solid hn (hw.solid_later hs))

end StackPascal
