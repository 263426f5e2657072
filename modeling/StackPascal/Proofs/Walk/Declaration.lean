import StackPascal.Proofs.Walk.Expression

/-!
The walk over declarations.

A declaration makes one definition and binds it in the innermost scope.
`Stepped` says what the walk may change when it declares: the new definitions
stand in front of those that were visible, and what was known stays.
-/

namespace StackPascal

open Analyze

/-! ## One more definition -/

theorem Defs.owner_push (ds : Defs) (d : Def) (id : DefId) :
    (ds.push d).owner id = if id = ds.nextId then d.ownerIn ds.main else ds.owner id := by
  unfold owner
  rw [get?_push]
  by_cases h : id = ds.nextId
  · rw [if_pos h, if_pos h]
    rcases d with ⟨_, _, _, k, _⟩
    cases k <;> rfl
  · rw [if_neg h, if_neg h]
    rfl

theorem Defs.owner_nextId_push (ds : Defs) (d : Def) :
    (ds.push d).owner ds.nextId = d.ownerIn ds.main :=
  (ds.owner_push d _).trans (if_pos rfl)

theorem Defs.isVariable_push (ds : Defs) (d : Def) (id : DefId) :
    (ds.push d).isVariable id = if id = ds.nextId then d.isVariable else ds.isVariable id := by
  unfold isVariable
  rw [get?_push]
  by_cases h : id = ds.nextId
  · rw [if_pos h, if_pos h]
  · rw [if_neg h, if_neg h]

theorem Defs.parentOf_push (ds : Defs) (d : Def) (id : DefId) : (ds.push d).parentOf id =
    if id = ds.nextId then d.callable?.bind CallableInfo.parent else ds.parentOf id := by
  unfold parentOf
  rw [callable?_eq, callable?_eq, get?_push]
  split <;> rfl

theorem Defs.owner_of_size_le {ds : Defs} {v : DefId} (h : ds.size ≤ v.number) :
    ds.owner v = none := by
  unfold owner
  rw [get?_eq_none h]

/-- A new definition keeps the world consistent if a callable owns it. -/
theorem World.Consistent.push {w : World} (h : w.Consistent) {d : Def}
    (hcap : ∀ info, d.kind = .callable info → info.captures = [])
    (hown : ∀ o, d.ownerIn w.defs.main = some o → (w.defs.callable? o).isSome)
    {outer : DefId → List DefId} (ho : ∀ id : DefId, id ≠ w.defs.nextId → outer id = w.outer id)
    (hnew : ∀ v ∈ outer w.defs.nextId, v.number < w.defs.size)
    (hparent : ∀ f, d.callable?.bind CallableInfo.parent = some f → (w.defs.callable? f).isSome)
    (haround : ∀ v ∈ outer w.defs.nextId, w.defs.isVariable v = true →
      ∃ f, d.callable?.bind CallableInfo.parent = some f ∧ w.Near f v)
    (hvar : d.isVariable = true → d.ownerIn w.defs.main ≠ none) :
    Consistent ⟨w.defs.push d, w.calls, outer⟩ := by
  have hg := Defs.Grows.push w.defs d hcap
  have hk := hg.keeps
  have hne : ∀ {f : DefId}, (w.defs.callable? f).isSome → f ≠ w.defs.nextId := by
    rintro f hf rfl
    exact Nat.lt_irrefl _ (Defs.lt_size_of_callable? hf)
  have hsome : ∀ {f : DefId}, (w.defs.callable? f).isSome →
      ((w.defs.push d).callable? f).isSome := fun hf =>
    (hk.callable _ (Defs.lt_size_of_callable? hf)).trans hf
  have howned : ∀ v o, (w.defs.push d).owner v = some o → (w.defs.callable? o).isSome := by
    intro v o hvo
    rw [Defs.owner_push] at hvo
    split at hvo
    · exact hown o hvo
    · exact h.owned v o hvo
  have hrange : ∀ f, ∀ v ∈ outer f, v.number < w.defs.size := by
    intro f v hv
    by_cases hf : f = w.defs.nextId
    · exact hnew v (hf ▸ hv)
    · exact h.range f v (ho f hf ▸ hv)
  have hcapture : ∀ f v, v ∈ (w.defs.push d).capturesOf f → f ≠ w.defs.nextId ∧
      v ∈ w.defs.capturesOf f := by
    intro f v hv
    rw [Defs.capturesOf_push _ _ hcap] at hv
    refine ⟨?_, hv⟩
    rintro rfl
    rw [Defs.capturesOf_eq, Defs.callable?_eq, Defs.get?_nextId] at hv
    cases hv
  exact {
    main := h.main
    mainOuter := (ho _ (hne h.mainCallable)).trans h.mainOuter
    mainCallable := hsome h.mainCallable
    owned := fun v o hvo => hsome (howned v o hvo)
    range := fun f v hv => Nat.lt_of_lt_of_le (hrange f v hv) hk.size_le
    foreign := by
      intro f v hv hvf
      rw [hk.owner v (hrange f v hv)] at hvf
      have hf : f ≠ w.defs.nextId := hne (h.owned v f hvf)
      exact h.foreign f v (ho f hf ▸ hv) hvf
    captured := by
      intro f v hv
      obtain ⟨hf, hv⟩ := hcapture f v hv
      obtain ⟨hout, hvar, hvo⟩ := h.captured f v hv
      have hlt := h.range f v hout
      have hout' : v ∈ outer f := (ho f hf).symm ▸ hout
      exact ⟨hout', (hk.isVariable v hlt).trans hvar, (hk.owner v hlt).symm ▸ hvo⟩
    nodup := fun f => by rw [Defs.capturesOf_push _ _ hcap]; exact h.nodup f
    called := by
      intro f g hfg
      obtain ⟨hf, hg, hnear⟩ := h.called f g hfg
      refine ⟨hsome hf, hsome hg, fun v hv hvar => ?_⟩
      have hv : v ∈ w.outer g := ho g (hne hg) ▸ hv
      have hlt := h.range g v hv
      exact (hnear v hv ((hk.isVariable v hlt).symm.trans hvar)).congr (hk.owner v hlt)
        (ho f (hne hf))
    parents := by
      intro g f hf
      rw [Defs.parentOf_push] at hf
      split at hf
      · next hg =>
        rw [hg]
        exact Defs.lt_size_of_callable? (hparent f hf)
      · exact h.parents g f hf
    around := by
      intro g v hv hvar
      have hlt := hrange g v hv
      have hvar := (hk.isVariable v hlt).symm.trans hvar
      rw [Defs.parentOf_push]
      split
      · next hg =>
        obtain ⟨f, hf, hnear⟩ := haround v (hg ▸ hv) hvar
        exact ⟨f, hf, hnear.congr (hk.owner v hlt) (ho f (hne (hparent f hf)))⟩
      · next hg =>
        obtain ⟨f, hf, hnear⟩ := h.around g v (ho g hg ▸ hv) hvar
        refine ⟨f, hf, hnear.congr (hk.owner v hlt) (ho f fun he => ?_)⟩
        have hless : f.number < g.number := h.parents g f hf
        have hsize : g.number < w.defs.size := Defs.lt_size_of_parentOf hf
        rw [he] at hless
        exact Nat.lt_asymm hless hsize
    ownerless := by
      intro v hv hvo
      rw [Defs.isVariable_push] at hv
      rw [Defs.owner_push] at hvo
      by_cases hnext : v = w.defs.nextId
      · rw [if_pos hnext] at hv hvo
        exact absurd hvo (hvar hv)
      · rw [if_neg hnext] at hv hvo
        exact h.ownerless v hv hvo }

/-- So does a new variable; nothing was declared inside it. -/
theorem World.Consistent.pushVariable {w : World} (h : w.Consistent) {d : Def}
    (hv : d.isVariable = true) {f : DefId} (hown : d.ownerIn w.defs.main = some f)
    (hf : (w.defs.callable? f).isSome) : Consistent ⟨w.defs.push d, w.calls, w.outer⟩ := by
  have hnone : d.callable? = none := by
    rcases d with ⟨_, _, _, k, _⟩
    cases k <;> first | rfl | cases hv
  have hno : ∀ info, d.kind ≠ .callable info := by
    rintro info hi
    rw [Def.callable?, hi] at hnone
    cases hnone
  refine h.push (fun info hi => absurd hi (hno info)) (fun o ho => ?_) (fun _ _ => rfl) (h.range _)
    (fun g hg => ?_) (fun v hv hvar => ?_) fun _ he => ?_
  · cases hown.symm.trans ho
    exact hf
  · rw [hnone] at hg
    cases hg
  · obtain ⟨g, hg, _⟩ := h.around _ v hv hvar
    exact absurd (Defs.lt_size_of_parentOf hg) (Nat.lt_irrefl _)
  · cases hown.symm.trans he

/-! ## Scope tables -/

namespace ScopeTable

variable {α : Type} {t t' t'' : ScopeTable α} {new new' : List α}

/-- `t'` has the same open scopes as `t`, and the values `new` bound in front, in
the current one. -/
structure Above (t t' : ScopeTable α) (new : List α) : Prop where
  inner : t'.inner = t.inner
  bindings : ∃ bs, t'.bindings = bs ++ t.bindings ∧ bs.map Binding.value = new ∧
    ∀ b ∈ bs, b.scope = t.current
  nextScope : t.nextScope ≤ t'.nextScope

theorem Above.refl (t : ScopeTable α) : t.Above t [] :=
  ⟨rfl, ⟨[], rfl, rfl, nofun⟩, Nat.le_refl _⟩

theorem Above.current (h : t.Above t' new) : t'.current = t.current := by
  unfold ScopeTable.current; rw [h.inner]

theorem Above.openScopes (h : t.Above t' new) : t'.openScopes = t.openScopes := by
  unfold ScopeTable.openScopes; rw [h.inner]

theorem Above.trans (h : t.Above t' new) (k : t'.Above t'' new') : t.Above t'' (new' ++ new) := by
  obtain ⟨bs, hb, rfl, hbs⟩ := h.bindings
  obtain ⟨cs, hc, rfl, hcs⟩ := k.bindings
  refine ⟨k.inner.trans h.inner, ⟨cs ++ bs, by simp [hc, hb], by simp, fun b hin => ?_⟩,
    Nat.le_trans h.nextScope k.nextScope⟩
  rcases List.mem_append.mp hin with hin | hin
  · exact (hcs b hin).trans h.current
  · exact hbs b hin

/-- Leaving a scope restores what was bound when it was entered. -/
theorem Above.leave (h : t.enter.Above t' new) : t.Above t'.leave [] := by
  obtain ⟨bs, hb, _⟩ := h.bindings
  have hi : t'.inner = ⟨⟨t.nextScope⟩, t.bindings.length⟩ :: t.inner := h.inner
  have hb : t'.bindings = bs ++ t.bindings := hb
  have hl : t'.leave = { t' with bindings := t.bindings, inner := t.inner } := by
    unfold ScopeTable.leave
    rw [hi]
    simp [hb]
  rw [hl]
  exact ⟨rfl, ⟨[], rfl, rfl, nofun⟩, Nat.le_trans (Nat.le_succ _) h.nextScope⟩

theorem Above.values (h : t.Above t' new) :
    t'.bindings.map Binding.value = new ++ t.bindings.map Binding.value := by
  obtain ⟨bs, hb, rfl, _⟩ := h.bindings
  simp [hb]

end ScopeTable

/-! ## Steps that declare -/

variable {outer outer' outer'' : DefId → List DefId} {base : Nat} {f : DefId}
  {s s' s'' : Progress} {new new' : List DefId}

/-- Standing in `f` survives further definitions, if `f` can reach what they
make visible. -/
theorem Standing.move (h : Standing outer base f s) (hw : (s'.world outer').Consistent)
    (hp : s'.defs.ListsParams) (hk : s.defs.Keeps s'.defs)
    (ho : ∀ id : DefId, id.number < s.defs.size → outer' id = outer id)
    (hs : s.scopes.Above s'.scopes new)
    (hnew : ∀ id ∈ new, s'.defs.scopeOf? id = some s.scopes.current ∧
      (s'.defs.isVariable id = true → (s'.world outer').Near f id) ∧
      ((s'.defs.callable? id).isSome → outer' id ⊆ s'.visible))
    (he : s.events <:+ s'.events) : Standing outer' base f s' := by
  have hv : s'.visible = new ++ s.visible := hs.values
  exact {
    consistent := hw
    listsParams := hp
    here := (hk.callable f (Defs.lt_size_of_callable? h.here)).trans h.here
    range := by
      intro id hid
      rcases List.mem_append.mp (hv ▸ hid) with hid | hid
      · exact Defs.lt_size_of_scopeOf? (hnew id hid).1
      · exact Nat.lt_of_lt_of_le (h.range id hid) hk.size_le
    near := by
      intro v hvis hvar
      rcases List.mem_append.mp (hv ▸ hvis) with hvis | hvis
      · exact (hnew v hvis).2.1 hvar
      · have hlt := h.range v hvis
        exact (h.near v hvis ((hk.isVariable v hlt).symm.trans hvar)).congr (hk.owner v hlt)
          (ho f (Defs.lt_size_of_callable? h.here))
    callables := by
      intro g hg hcall
      rcases List.mem_append.mp (hv ▸ hg) with hg | hg
      · exact (hnew g hg).2.2 hcall
      · have hlt := h.range g hg
        rw [ho g hlt, hv]
        exact List.subset_append_of_subset_right _
          (h.callables g hg ((hk.callable g hlt).symm.trans hcall))
    bound := by
      obtain ⟨bs, hb, rfl, hbs⟩ := hs.bindings
      intro b hin
      rw [hs.openScopes]
      rcases List.mem_append.mp (hb ▸ hin) with hin | hin
      · rw [hbs b hin]
        exact ⟨s.scopes.current_open, (hnew _ (List.mem_map_of_mem hin)).1⟩
      · have hlt := h.range b.value (List.mem_map_of_mem hin)
        exact ⟨(h.bound b hin).1, (hk.scope _ hlt).trans (h.bound b hin).2⟩
    program := fun hcur => h.program (hs.current ▸ hcur)
    nextScope := Nat.lt_of_lt_of_le h.nextScope hs.nextScope
    reports := Nat.le_trans h.reports (reportCount_mono he) }

/-- From `s` to `s'` the walk has stayed in `f` and has made the definitions
`new` visible; `outer'` knows the callables declared on the way. -/
structure Stepped (outer outer' : DefId → List DefId) (base : Nat) (f : DefId)
    (new : List DefId) (s s' : Progress) : Prop where
  scopes : s.scopes.Above s'.scopes new
  grows : s.defs.Grows s'.defs
  calls : s.calls ⊆ s'.calls
  events : s.events <:+ s'.events
  outer : ∀ id : DefId, id.number < s.defs.size → outer' id = outer id
  standing : Standing outer' base f s'

theorem Walked.stepped (h : Walked outer base f s s') : Stepped outer outer base f [] s s' where
  scopes := h.scopes ▸ .refl _
  grows := h.grows
  calls := h.calls
  events := h.events
  outer := fun _ _ => rfl
  standing := h.standing

namespace Stepped

theorem trans (h : Stepped outer outer' base f new s s')
    (k : Stepped outer' outer'' base f new' s' s'') :
    Stepped outer outer'' base f (new' ++ new) s s'' where
  scopes := h.scopes.trans k.scopes
  grows := h.grows.trans k.grows
  calls := fun _ hc => k.calls (h.calls hc)
  events := h.events.trans k.events
  outer id hid := (k.outer id (Nat.lt_of_lt_of_le hid h.grows.size_le)).trans (h.outer id hid)
  standing := k.standing

theorem world (h : Stepped outer outer' base f new s s') :
    (s.world outer).Extends (s'.world outer') :=
  ⟨h.grows, h.calls, h.outer⟩

theorem visible (h : Stepped outer outer' base f new s s') : s'.visible = new ++ s.visible :=
  h.scopes.values

theorem quiet (h : Stepped outer outer' base f new s s') (hq : s'.Quiet base) : s.Quiet base :=
  Nat.le_trans (reportCount_mono h.events) hq

theorem solid (h : Stepped outer outer' base f new s s') (hs : s'.defs.Solid) : s.defs.Solid := by
  intro id d hd
  obtain ⟨d', hd', _⟩ := Option.map_eq_some_iff.mp hd
  exact hs id d ((h.grows.signature id (Defs.lt_size_of_get? hd')).trans hd)

end Stepped

/-! ## Making a definition -/

namespace Progress

/-- The definition that declaring the name makes. -/
def newDef (s : Progress) (name : Ident) (type : ValueType) (kind : DefKind) : Def :=
  ⟨name.text, type, s.scopes.current, kind, name.pos⟩

/-- The walk after a name has been declared. -/
def declared (s : Progress) (name : Ident) (type : ValueType) (kind : DefKind) : Progress :=
  { s with
    defs := s.defs.push (s.newDef name type kind)
    scopes := { s.scopes with
      bindings := ⟨name.text, s.scopes.current, s.defs.nextId⟩ :: s.scopes.bindings }
    events := .bound name.text s.defs.nextId s.scopes.current :: s.events }

end Progress

theorem declare_spec (h : Standing outer base f s) (name : Ident) (type : ValueType)
    (kind : DefKind) :
    Sat (declare name type kind) s fun r s' =>
      match r with
      | none => Walked outer base f s s' ∧ ¬ s'.Quiet base
      | some id => id = s.defs.nextId ∧ s' = s.declared name type kind := by
  have hget : (get : Analyze Progress).run s = pure (s, s) := rfl
  simp only [Sat, declare, StateT.run_bind, hget, pure_bind, ScopeTable.insert]
  cases s.scopes.here? name.text with
  | some _ => exact report_spec h name.pos (.redeclared name.text)
  | none => exact ⟨rfl, rfl⟩

theorem Progress.declared_above (s : Progress) (name : Ident) (type : ValueType) (kind : DefKind) :
    s.scopes.Above (s.declared name type kind).scopes [s.defs.nextId] :=
  ⟨rfl, ⟨[⟨name.text, s.scopes.current, s.defs.nextId⟩], rfl, rfl, fun _ hb => by
    cases List.mem_singleton.mp hb; rfl⟩, Nat.le_refl _⟩

theorem Standing.nextId_not_visible (h : Standing outer base f s) : s.defs.nextId ∉ s.visible :=
  fun hid => Nat.lt_irrefl _ (h.range _ hid)

theorem Defs.Solid.push {ds : Defs} {d : Def} (h : ds.Solid) (hd : d.signature.Solid) :
    (ds.push d).Solid := by
  intro id e he
  rw [signature?_push] at he
  split at he
  · cases Option.some.inj he; exact hd
  · exact h id e he

theorem Walked.solid_later (h : Walked outer base f s s') (hs : s.defs.Solid) : s'.defs.Solid := by
  intro id d hd
  obtain ⟨d', hd', _⟩ := Option.map_eq_some_iff.mp hd
  have hlt : id.number < s.defs.size := h.size ▸ Defs.lt_size_of_get? hd'
  exact hs id d ((h.grows.signature id hlt).symm.trans hd)

/-! ## Variables -/

/-- A variable of `f` itself can be made visible in `f`. -/
theorem Standing.declaredVariable (h : Standing outer base f s) (name : Ident) (type : ValueType)
    {kind : DefKind} (hv : (s.newDef name type kind).isVariable = true)
    (hp : ∀ g r, kind ≠ .param g r)
    (ho : (s.newDef name type kind).ownerIn s.defs.main = some f) :
    Stepped outer outer base f [s.defs.nextId] s (s.declared name type kind) := by
  have hnone : ∀ info, kind ≠ .callable info := by
    rintro info rfl
    cases hv
  have hg : s.defs.Grows (s.declared name type kind).defs :=
    .push _ _ fun info hi => absurd hi (hnone info)
  have hab := s.declared_above name type kind
  have hcons : ((s.declared name type kind).world outer).Consistent :=
    h.consistent.pushVariable hv ho h.here
  refine ⟨hab, hg, fun _ hc => hc, List.suffix_cons _ _, fun _ _ => rfl, ?_⟩
  refine h.move hcons (h.listsParams.push hp fun info hi => absurd hi (hnone info))
    hg.keeps (fun _ _ => rfl) hab ?_ (List.suffix_cons _ _)
  intro id hid
  cases List.mem_singleton.mp hid
  refine ⟨s.defs.scopeOf?_push _, fun _ => .inr (.inl ?_), fun hc => ?_⟩
  · exact (Defs.owner_nextId_push _ _).trans ho
  · have hc : ((s.defs.push (s.newDef name type kind)).callable? s.defs.nextId).isSome := hc
    rw [Defs.callable?_eq, Defs.get?_push, if_pos rfl] at hc
    cases kind with
    | callable info => exact absurd rfl (hnone info)
    | _ => cases hc

theorem Standing.addLocal (h : Standing outer base f s) (g v : DefId) :
    Walked outer base f s { s with defs := s.defs.addLocal g v } := by
  have hg := Defs.Grows.addLocal s.defs g v
  have hz : (s.defs.addLocal g v).size = s.defs.size := Defs.size_updateCallable ..
  have hsig : ∀ id, (s.defs.addLocal g v).signature? id = s.defs.signature? id :=
    Defs.signature?_updateCallable s.defs g
      (fun info => { info with locals := info.locals ++ [v] }) fun _ => rfl
  have hcap := Defs.capturesOf_addLocal s.defs g v
  have hw : World.Consistent ⟨s.defs.addLocal g v, s.calls, outer⟩ := by
    refine h.consistent.extend hg.main hz (fun id => Defs.owner_congr (hsig id) hg.main)
      (fun id => Defs.isVariable_congr (hsig id)) (fun id => Defs.callable?_isSome_congr (hsig id))
      (fun id => Defs.parentOf_congr (hsig id))
      (fun k u hu => h.consistent.captured k u (hcap k ▸ hu)) (fun k => ?_) h.consistent.called
    rw [hcap]
    exact h.consistent.nodup k
  exact ⟨rfl, hz, hg, fun _ hc => hc, List.suffix_refl _, h.congr hg.main hz hsig hw⟩

theorem Progress.declared_signature (s : Progress) (name : Ident) (type : ValueType)
    (kind : DefKind) :
    (s.declared name type kind).defs.signature? s.defs.nextId =
      some (s.newDef name type kind).signature := by
  show (s.defs.push _).signature? _ = _
  rw [Defs.signature?_push, if_pos rfl]

/-- What declaring variables in `f` gives. -/
structure NewVariables (outer : DefId → List DefId) (base : Nat) (f : DefId) (type : ValueType)
    (s s' : Progress) (ids : List DefId) : Prop where
  stepped : Stepped outer outer base f ids.reverse s s'
  declares : ∀ id ∈ ids, id ∉ s.visible ∧ s'.defs.Declares f type id
  callables : s'.defs.callables = s.defs.callables
  solid : type.isVoid = false → s.defs.Solid → s'.defs.Solid

theorem NewVariables.walked {type : ValueType} (h : Walked outer base f s s') :
    NewVariables outer base f type s s' [] :=
  ⟨h.stepped, nofun, h.callables, fun _ => h.solid_later⟩

/-- A variable of `f` declared by a definition of the right kind. -/
theorem Standing.newVariable (h : Standing outer base f s) (name : Ident) (type : ValueType)
    {kind : DefKind}
    (hk : kind = .owned f ∨ kind = .global ∧ s.scopes.current = .program) :
    NewVariables outer base f type s (s.declared name type kind) [s.defs.nextId] := by
  have hglobal : kind = .global → s.scopes.current = .program :=
    fun e => hk.elim (fun e' => by rw [e'] at e; cases e) (·.2)
  have hpre : kind = .global → (s.newDef name type kind).isPredefined = false := fun e => by
    unfold Def.isPredefined Progress.newDef
    rw [hglobal e]
    rfl
  have hmain : kind = .global → s.defs.main = some f := fun e => by
    rw [h.program (hglobal e)]
    exact h.consistent.main
  have hstep : Stepped outer outer base f [s.defs.nextId] s (s.declared name type kind) := by
    refine h.declaredVariable name type ?_ ?_ ?_
    · obtain rfl | ⟨rfl, _⟩ := hk <;> rfl
    · rintro g r rfl
      obtain hk | ⟨hk, _⟩ := hk <;> cases hk
    · obtain rfl | ⟨rfl, _⟩ := hk
      · rfl
      · show (if (s.newDef name type .global).isPredefined then none else s.defs.main) = some f
        rw [hpre rfl]
        exact hmain rfl
  refine ⟨hstep, fun id hid => ?_, (Defs.callables_push ..).trans ?_, fun hv hs => hs.push ?_⟩
  · cases List.mem_singleton.mp hid
    refine ⟨h.nextId_not_visible, _, s.declared_signature name type kind, rfl, ?_⟩
    obtain rfl | ⟨rfl, _⟩ := hk
    · exact .inl rfl
    · exact .inr ⟨rfl, hpre rfl, hmain rfl⟩
  · obtain rfl | ⟨rfl, _⟩ := hk <;> exact List.append_nil _
  · obtain rfl | ⟨rfl, _⟩ := hk
    · exact hv
    · exact ⟨hv, fun hp => absurd ((hpre rfl).symm.trans hp) (by decide)⟩

theorem NewVariables.later {type : ValueType} {ids : List DefId}
    (h : NewVariables outer base f type s s' ids) (hw : Walked outer base f s' s'') :
    NewVariables outer base f type s s'' ids where
  stepped := h.stepped.trans hw.stepped
  declares id hid := ⟨(h.declares id hid).1, hw.world.declares (h.declares id hid).2⟩
  callables := hw.callables.trans h.callables
  solid hv hs := hw.solid_later (h.solid hv hs)

theorem declareVariable_spec (h : Standing outer base f s) (name : Ident) (type : ValueType) :
    Sat (declareVariable f name type) s fun r s' =>
      NewVariables outer base f type s s' r.toList := by
  unfold declareVariable
  refine Sat.scopes ?_
  split
  · next hc =>
    refine (declare_spec h name type .global).mono fun r s' hr => ?_
    cases r with
    | none => exact .walked hr.1
    | some id =>
      obtain ⟨rfl, rfl⟩ := hr
      exact h.newVariable name type (.inr ⟨rfl, hc⟩)
  · refine (declare_spec h name type (.owned f)).bind fun r s' hr => ?_
    cases r with
    | none => exact .walked hr.1
    | some id =>
      obtain ⟨rfl, rfl⟩ := hr
      have hn := h.newVariable name type (.inl (Eq.refl (DefKind.owned f)))
      exact hn.later (hn.stepped.standing.addLocal f s.defs.nextId)

theorem declareVariables_spec (type : ValueType) (names : List Ident) :
    ∀ {s : Progress}, Standing outer base f s →
    Sat (declareVariables f type names) s fun ids s' => NewVariables outer base f type s s' ids := by
  induction names with
  | nil => exact fun h => .walked (.refl h)
  | cons name names ih =>
    intro s h
    refine (declareVariable_spec h name type).bind fun r s₁ h₁ => ?_
    refine (ih h₁.stepped.standing).bind fun ids s₂ h₂ =>
      Sat.ret ⟨?_, ?_, h₂.callables.trans h₁.callables, ?_⟩
    · rw [List.reverse_append]
      exact h₁.stepped.trans h₂.stepped
    · intro id hid
      rcases List.mem_append.mp hid with hid | hid
      · exact ⟨(h₁.declares id hid).1, h₂.stepped.world.declares (h₁.declares id hid).2⟩
      · refine ⟨fun hv => (h₂.declares id hid).1 ?_, (h₂.declares id hid).2⟩
        rw [h₁.stepped.visible]
        exact List.mem_append_right _ hv
    · exact fun hv hs => h₂.solid hv (h₁.solid hv hs)

end StackPascal
