import StackPascal.Proofs.Walk.CallSites

/-!
The walk over statements and over the program.

* `Annotated`: what walking over statements gives, with what has become of the
  definitions and with all callables declared on the way;
* `annotateStmts_spec`: every walk over statements gives this;
* `annotateProgram_spec`: so does the walk over a whole program.
-/

namespace StackPascal

open Analyze

variable {outer outer' outer'' : DefId → List DefId} {base : Nat} {f g : DefId}
  {s s' s'' : Progress}

/-- A callable with its body, declared on the way to `s`. -/
structure FineRoutine (outer : DefId → List DefId) (base : Nat) (s : Progress)
    (r : DefId × List TypedStmt) : Prop where
  within : (s.world outer).ScopedRoutine r
  routine : ∃ info, s.defs.callable? r.1 = some info ∧ info.intrinsic = none
  typed : s.Quiet base → s.defs.Solid → TypedStmt.WellTypedIn s.defs r.1 r.2

/-- The walk from `s` to `s'` in `f` has given the statements `ts`. -/
structure Annotated (outer outer' : DefId → List DefId) (base : Nat) (f : DefId)
    (s s' : Progress) (ts : List TypedStmt) : Prop where
  stepped : Stepped outer outer' base f (TypedStmt.boundIn ts) s s'
  within : (s'.world outer').ScopedStmts f s.visible ts
  typed : s'.Quiet base → s'.defs.Solid → TypedStmt.WellTypedIn s'.defs f ts
  routines : ∀ r ∈ TypedStmt.routinesIn ts, FineRoutine outer' base s' r
  count : (TypedStmt.routinesIn ts).length + s.defs.size ≤ s'.defs.size
  fresh : ∀ r ∈ TypedStmt.routinesIn ts, s.defs.size ≤ r.1.number
  callables : s'.defs.callables = s.defs.callables ++ (TypedStmt.routinesIn ts).map Prod.fst

/-! ## Composing -/

theorem FineRoutine.later {new : List DefId} {r : DefId × List TypedStmt}
    (h : FineRoutine outer base s r) (hs : Stepped outer outer' base f new s s') :
    FineRoutine outer' base s' r where
  within := hs.world.scopedRoutine h.within
  routine := by
    obtain ⟨info, hi, hn⟩ := h.routine
    obtain ⟨info', hi', hh⟩ := hs.grows.callable hi
    exact ⟨info', hi', (CallableInfo.intrinsic_of_heading hh).trans hn⟩
  typed hq hsol := by
    obtain ⟨info, hi, _⟩ := h.routine
    exact (h.typed (hs.quiet hq) (hs.solid hsol)).grow hs.grows
      (Defs.lt_size_of_callable? (by rw [hi]; rfl))

theorem Annotated.nil (h : Walked outer base f s s') : Annotated outer outer base f s s' [] where
  stepped := h.stepped
  within := trivial
  typed _ _ := trivial
  routines _ hr := (List.not_mem_nil hr).elim
  count := by
    show 0 + s.defs.size ≤ s'.defs.size
    rw [Nat.zero_add]
    exact h.grows.size_le
  fresh _ hr := (List.not_mem_nil hr).elim
  callables := h.callables.trans (List.append_nil _).symm

theorem Annotated.append {ts us : List TypedStmt} (h : Annotated outer outer' base f s s' ts)
    (k : Annotated outer' outer'' base f s' s'' us) :
    Annotated outer outer'' base f s s'' (ts ++ us) where
  stepped := by
    rw [TypedStmt.boundIn_append]
    exact h.stepped.trans k.stepped
  within := by
    rw [World.ScopedStmts, TypedStmt.obeyIn_append, ← h.stepped.visible]
    exact ⟨k.stepped.world.scopedStmts h.within, k.within⟩
  typed hq hs := by
    rw [TypedStmt.wellTypedIn_append]
    have hf := Defs.lt_size_of_callable? h.stepped.standing.here
    exact ⟨(h.typed (k.stepped.quiet hq) (k.stepped.solid hs)).grow k.stepped.grows hf,
      k.typed hq hs⟩
  routines r hr := by
    rw [TypedStmt.routinesIn_append] at hr
    rcases List.mem_append.mp hr with hr | hr
    · exact (h.routines r hr).later k.stepped
    · exact k.routines r hr
  count := by
    rw [TypedStmt.routinesIn_append, List.length_append]
    have h₁ := h.count
    have h₂ := k.count
    omega
  fresh r hr := by
    rw [TypedStmt.routinesIn_append] at hr
    rcases List.mem_append.mp hr with hr | hr
    · exact h.fresh r hr
    · exact Nat.le_trans h.stepped.grows.size_le (k.fresh r hr)
  callables := by
    rw [TypedStmt.routinesIn_append, List.map_append, ← List.append_assoc, ← h.callables]
    exact k.callables

/-- Steps that declare nothing may precede and follow. -/
theorem Annotated.after {ts : List TypedStmt} (hw : Walked outer base f s s')
    (h : Annotated outer outer' base f s' s'' ts) : Annotated outer outer' base f s s'' ts :=
  (Annotated.nil hw).append h

/-- A statement that declares what its parts declare. -/
theorem Annotated.wrap {ts : List TypedStmt} {t : TypedStmt}
    (h : Annotated outer outer' base f s s' ts) (hb : t.bound = TypedStmt.boundIn ts)
    (hr : t.routines = TypedStmt.routinesIn ts) (ht : (s'.world outer').ScopedStmt f s.visible t)
    (hty : s'.Quiet base → s'.defs.Solid → t.WellTyped s'.defs f) :
    Annotated outer outer' base f s s' [t] := by
  have hroutines : TypedStmt.routinesIn [t] = TypedStmt.routinesIn ts := by
    simp [TypedStmt.routinesIn, hr]
  have hbound : TypedStmt.boundIn [t] = TypedStmt.boundIn ts := by simp [TypedStmt.boundIn, hb]
  exact ⟨hbound ▸ h.stepped, ⟨ht, trivial⟩, fun hq hs => ⟨hty hq hs, trivial⟩,
    hroutines ▸ h.routines, hroutines ▸ h.count, hroutines ▸ h.fresh, hroutines ▸ h.callables⟩

/-- A branch that was reported is an empty block. -/
theorem Annotated.branch {r : Option TypedStmt}
    (h : Annotated outer outer' base f s s' r.toList) :
    Annotated outer outer' base f s s' [branchOr r] := by
  cases r with
  | some t => exact h
  | none => exact h.wrap rfl rfl trivial fun _ _ => trivial

/-- What a block declares is no longer visible after it. -/
theorem Annotated.block {ts : List TypedStmt} (h : Standing outer base f s)
    (ha : Annotated outer outer' base f { s with scopes := s.scopes.enter } s' ts) :
    Annotated outer outer' base f s { s' with scopes := s'.scopes.leave } [.block ts] := by
  have hst := ha.stepped
  have hab := hst.scopes.leave
  have hstand : Standing outer' base f { s' with scopes := s'.scopes.leave } :=
    h.move hst.standing.consistent hst.standing.listsParams hst.grows.keeps hst.outer hab nofun
      hst.events
  refine ⟨⟨hab, hst.grows, hst.calls, hst.events, hst.outer, hstand⟩, ⟨ha.within, trivial⟩,
    fun hq hs => ⟨ha.typed hq hs, trivial⟩, fun r hr => ?_, ?_, fun r hr => ?_, ?_⟩
  · have hr : r ∈ TypedStmt.routinesIn ts := by simpa [TypedStmt.routinesIn, TypedStmt.routines] using hr
    exact ⟨(ha.routines r hr).within, (ha.routines r hr).routine, (ha.routines r hr).typed⟩
  · simpa [TypedStmt.routinesIn, TypedStmt.routines] using ha.count
  · exact ha.fresh r (by simpa [TypedStmt.routinesIn, TypedStmt.routines] using hr)
  · simpa [TypedStmt.routinesIn, TypedStmt.routines] using ha.callables

/-- The body of a callable is walked inside the callable; outside it nothing
becomes visible but the callable itself. -/
theorem Annotated.callable {heading : Heading} {s₁ s₂ : Progress} {ts : List TypedStmt}
    (h : Standing outer base f s) (hn : NewCallable outer outer' base f g heading s s₁)
    (hin : InHeading outer' base g s s₁ s₂)
    (ha : Annotated outer' outer'' base g { s₂ with scopes := s₂.scopes.enter } s' ts) :
    Annotated outer outer'' base f s { s' with scopes := s'.scopes.leave.leave }
      [.callable g ts] := by
  have hst := ha.stepped
  have hgrows : s.defs.Grows s'.defs := hin.grows.trans hst.grows
  have hkeeps : s₁.defs.Keeps s'.defs := hin.keeps.trans hst.grows.keeps
  have hbody : s₂.scopes.Above s'.scopes.leave [] := hst.scopes.leave
  obtain ⟨params, hparams⟩ := hin.scopes
  have hab : s₁.scopes.Above s'.scopes.leave.leave [] := (hparams.trans hbody).leave
  have hevents : s₁.events <:+ s'.events := hin.events.trans hst.events
  have hout₁ : ∀ id : DefId, id.number < s₁.defs.size → outer'' id = outer' id := fun id hid =>
    hst.outer id (Nat.lt_of_lt_of_le hid hin.keeps.size_le)
  have hg : g.number < s₁.defs.size := by
    obtain ⟨info, hi, _⟩ := hn.routine
    exact Defs.lt_size_of_callable? (by rw [hi]; rfl)
  have hstand : Standing outer'' base f { s' with scopes := s'.scopes.leave.leave } :=
    hn.stepped.standing.move hst.standing.consistent hst.standing.listsParams hkeeps hout₁ hab nofun
      hevents
  have hroutine : ∃ info, s'.defs.callable? g = some info ∧ info.intrinsic = none := by
    obtain ⟨info, hi, hnone⟩ := hin.routine
    obtain ⟨info', hi', hh⟩ := hst.grows.callable hi
    exact ⟨info', hi', (CallableInfo.intrinsic_of_heading hh).trans hnone⟩
  have hscoped : (s'.world outer'').ScopedRoutine (g, ts) := by
    refine ⟨s₂.visible, fun v hv => ?_, ha.within⟩
    have hlt : v.number < s₂.defs.size := hin.standing.range v hv
    have hsig := hst.grows.signature v hlt
    refine ⟨Nat.lt_of_lt_of_le hlt hst.grows.size_le, fun ho => ?_⟩
    have ho₂ : s₂.defs.owner v = some g := (Defs.owner_congr hsig hst.grows.main).symm.trans ho
    obtain ⟨byRef, hk⟩ := hin.ownsParams v ho₂
    exact ⟨byRef, (congrArg (Option.map Def.kind) hsig).trans hk⟩
  refine ⟨⟨hn.stepped.scopes.trans hab, hgrows, fun _ hc => hst.calls (hin.calls (hn.stepped.calls hc)),
    hn.stepped.events.trans hevents, fun id hid => ?_, hstand⟩, ⟨⟨?_, ?_, hroutine⟩, trivial⟩,
    fun _ _ => ⟨trivial, trivial⟩, fun r hr => ?_, ?_, fun r hr => ?_, ?_⟩
  · have hid₁ := Nat.lt_of_lt_of_le hid hn.stepped.grows.size_le
    exact (hout₁ id hid₁).trans (hn.stepped.outer id hid)
  · exact fun hv => Nat.not_le_of_lt (h.range g hv) hn.fresh
  · exact (hout₁ g hg).trans hn.around
  · have hr : r ∈ (g, ts) :: TypedStmt.routinesIn ts := by
      simpa [TypedStmt.routinesIn, TypedStmt.routines] using hr
    rcases List.mem_cons.mp hr with rfl | hr
    · exact ⟨hscoped, hroutine, ha.typed⟩
    · exact ⟨(ha.routines r hr).within, (ha.routines r hr).routine, (ha.routines r hr).typed⟩
  · have h₁ : s.defs.size < s₁.defs.size := Nat.lt_of_le_of_lt hn.fresh hg
    have h₂ : s₁.defs.size ≤ s₂.defs.size := hin.keeps.size_le
    have h₃ : (TypedStmt.routinesIn ts).length + s₂.defs.size ≤ s'.defs.size := ha.count
    have h₄ : (TypedStmt.routinesIn [.callable g ts]).length =
        (TypedStmt.routinesIn ts).length + 1 := by
      simp [TypedStmt.routinesIn, TypedStmt.routines]
    show _ + s.defs.size ≤ s'.defs.size
    omega
  · have hr : r ∈ (g, ts) :: TypedStmt.routinesIn ts := by
      simpa [TypedStmt.routinesIn, TypedStmt.routines] using hr
    rcases List.mem_cons.mp hr with rfl | hr
    · exact hn.fresh
    · have h₁ : s.defs.size ≤ s₂.defs.size :=
        Nat.le_trans hn.stepped.grows.size_le hin.keeps.size_le
      exact Nat.le_trans h₁ (ha.fresh r hr)
  · have hall : s'.defs.callables = s.defs.callables ++ [g] ++ (TypedStmt.routinesIn ts).map Prod.fst := by
      rw [← hn.callables, ← hin.callables]
      exact ha.callables
    simpa [TypedStmt.routinesIn, TypedStmt.routines] using hall

/-! ## Simple statements -/

theorem annotateDeclaration_spec (h : Standing outer base f s) (names : List Ident)
    (type : TypeExpr) (pos : Position) :
    Sat (annotateDeclaration f names type pos) s fun t s' =>
      Annotated outer outer base f s s' [t] ∧
        (type.Named → s.defs.Solid → s'.defs.Solid) := by
  refine (declaredSize_spec h names type).bind fun size s₁ h₁ => ?_
  obtain ⟨hw, huses, hsize⟩ := h₁
  refine (declareVariables_spec type.type names hw.standing).bind fun ids s₂ h₂ => Sat.ret ?_
  have hstep := hw.stepped.trans h₂.stepped
  refine ⟨⟨?_, ⟨⟨fun u hu => ?_, fun id hid => ?_⟩, trivial⟩, fun hq hs => ⟨⟨fun id hid => ?_, ?_⟩, trivial⟩,
    nofun, ?_, nofun, ?_⟩, fun hn hs => h₂.solid hn (hw.solid_later hs)⟩
  · have hnew : TypedStmt.boundIn [.declare ids type.type size pos] = ids.reverse ++ [] := by
      simp [TypedStmt.boundIn, TypedStmt.bound]
    rw [hnew]
    exact hstep
  · exact h₂.stepped.world.allows (huses u hu)
  · rw [← hw.visible]
    exact h₂.declares id hid
  · obtain ⟨_, d, hd, ht, hk⟩ := h₂.declares id hid
    have htype : s₂.defs.typeOf id = type.type := by
      rw [Defs.typeOf_eq, show s₂.defs.signature? id = some d from hd, ← ht]
      rfl
    have hvar : s₂.defs.isVariable id = true := by
      rw [Defs.isVariable_eq, show s₂.defs.signature? id = some d from hd]
      rcases d with ⟨_, _, _, k, _⟩
      obtain rfl | ⟨rfl, _⟩ := hk <;> rfl
    exact ⟨htype, htype ▸ hs.typeOf_variable hvar⟩
  · intro ha
    obtain ⟨e, rfl, ht, hi⟩ := hsize (h₂.stepped.quiet hq) (h₂.stepped.solid hs) ha
    exact ⟨e, rfl, ht.grow h₂.stepped.grows, hi⟩
  · show 0 + _ ≤ _
    rw [Nat.zero_add]
    exact hstep.grows.size_le
  · exact (h₂.callables.trans hw.callables).trans (List.append_nil _).symm

theorem TypedExpr.uses_of_place? {e : TypedExpr} {p : Place} (h : e.place? = some p) :
    p.uses = e.uses := by
  cases e <;> cases h <;> rfl

theorem TypedExpr.WellTyped.place {ds : Defs} {e : TypedExpr} {p : Place} (he : e.WellTyped ds)
    (h : e.place? = some p) : p.WellTyped ds ∧ p.typeIn ds = e.type := by
  cases e with
  | name id i =>
    cases h
    obtain ⟨ht, hv, _⟩ := he
    exact ⟨(congrArg ValueType.isVoid ht).symm.trans hv, ht.symm⟩
  | element id index i =>
    cases h
    obtain ⟨ha, hi, hint, ht, hv, _⟩ := he
    refine ⟨⟨ha, ?_, hi, hint⟩, ht.symm⟩
    exact (congrArg ValueType.isVoid ht).symm.trans hv
  | _ => cases h

/-- What walking over a statement without parts gives: at most one statement,
and nothing declared. -/
structure Plain (outer : DefId → List DefId) (base : Nat) (f : DefId) (s s' : Progress)
    (r : Option TypedStmt) : Prop where
  walked : Walked outer base f s s'
  annotated : Annotated outer outer base f s s' r.toList

namespace Plain

theorem none (h : Walked outer base f s s') : Plain outer base f s s' none := ⟨h, .nil h⟩

theorem some {t : TypedStmt} (h : Walked outer base f s s') (hb : t.bound = [])
    (hr : t.routines = []) (ht : (s'.world outer).ScopedStmt f s.visible t)
    (hty : s'.Quiet base → s'.defs.Solid → t.WellTyped s'.defs f) :
    Plain outer base f s s' (some t) :=
  ⟨h, (Annotated.nil h).wrap hb hr ht hty⟩

theorem after {r : Option TypedStmt} (hw : Walked outer base f s s')
    (h : Plain outer base f s' s'' r) : Plain outer base f s s'' r :=
  ⟨hw.trans h.walked, h.annotated.after hw⟩

end Plain

theorem checkAssign_spec (h : Standing outer base f s) (name : Ident) {target value : TypedExpr}
    (ht : Fine outer base f s.visible s target) (hv : Fine outer base f s.visible s value) :
    Sat (checkAssign name target value) s fun r s' => Plain outer base f s s' r := by
  unfold checkAssign
  split
  · exact .none (.refl h)
  split
  · exact (report_spec h _ _).bind fun _ _ hr => Sat.ret (.none hr.1)
  split
  · exact (report_spec h _ _).bind fun _ _ hr => Sat.ret (.none hr.1)
  next ha harray =>
  cases hp : target.place? with
  | none => exact .none (.refl h)
  | some p =>
    have harray : target.type.isArray = false := by simpa using harray
    have ha : assignable target.type value.type = true := by simpa using ha
    refine Plain.some (.refl h) rfl rfl ⟨?_, hv.within⟩ fun hq hs => ?_
    · rw [TypedExpr.uses_of_place? hp]
      exact ht.within
    · obtain ⟨hwt, htype⟩ := (ht.typed hq hs).place hp
      exact ⟨hwt, hv.typed hq hs, htype ▸ harray, htype ▸ ha⟩

theorem annotateAssign_spec (h : Standing outer base f s) (target : Target) (value : Expr) :
    Sat (annotateAssign f target value) s fun r s' => Plain outer base f s s' r := by
  refine (annotateExpr_spec target.expr h).bind fun t s₁ h₁ => ?_
  refine (annotateExpr_spec value h₁.1.standing).bind fun v s₂ h₂ => ?_
  have hw := h₁.1.trans h₂.1
  refine (checkAssign_spec hw.standing target.ident ?_ ?_).mono fun r s₃ h₃ => h₃.after hw
  · rw [hw.visible]
    exact h₁.2.later h₂.1
  · rw [h₂.1.visible]
    exact h₂.2

theorem resolveCallable_spec (h : Standing outer base f s) (callee : Ident) :
    Sat (resolveCallable callee) s fun r s' =>
      Walked outer base f s s' ∧
        ∀ g kind, r = some (g, kind) → g ∈ s.visible ∧ s'.defs.kindOf? g = some kind := by
  unfold resolveCallable
  refine Sat.scopes ?_
  cases hf : s.scopes.find? callee.text with
  | none => exact (report_spec h _ _).bind fun _ _ hr => Sat.ret ⟨hr.1, nofun⟩
  | some id =>
    refine Sat.defs ?_
    cases hk : s.defs.kindOf? id with
    | some kind =>
      refine ⟨.refl h, ?_⟩
      rintro _ _ ⟨⟩
      exact ⟨mem_visible_of_find? hf, hk⟩
    | none => exact (report_spec h _ _).bind fun _ _ hr => Sat.ret ⟨hr.1, nofun⟩

theorem annotateCall_spec (h : Standing outer base f s) (callee : Ident) (args : List Expr) :
    Sat (annotateCall f callee args) s fun r s' => Plain outer base f s s' r := by
  refine (resolveCallable_spec h callee).bind fun r s₁ h₁ => ?_
  obtain ⟨w₁, hr⟩ := h₁
  match r with
  | none => exact .none w₁
  | some (g, kind) =>
    obtain ⟨hg, hk⟩ := hr g kind rfl
    obtain ⟨info, hi, rfl⟩ := Option.map_eq_some_iff.mp hk
    refine (annotateExprs_spec args w₁.standing).bind fun as s₂ h₂ => ?_
    obtain ⟨w₂, hargs⟩ := h₂
    obtain ⟨info₂, hi₂, hh₂⟩ := w₂.grows.callable hi
    have hvis : s₂.visible = s.visible := w₂.visible.trans w₁.visible
    refine (checkCall_spec w₂.standing (hvis ▸ hg) (by rw [hi₂]; rfl) callee
      (by rw [w₂.visible]; exact hargs)).bind fun _ s₃ h₃ => ?_
    obtain ⟨w₃, hallow, hacc⟩ := h₃
    have hw := (w₁.trans w₂).trans w₃
    split
    · exact (report_spec hw.standing _ _).bind fun _ _ hr => Sat.ret (.none (hw.trans hr.1))
    · next hkind =>
      have hargs := hargs.later w₃
      rw [w₁.visible] at hargs
      refine Sat.ret (Plain.some hw rfl rfl ⟨hvis ▸ hallow, hargs.within⟩ fun hq hs => ?_)
      obtain ⟨i, hi₃, ha⟩ := hacc hq hs
      obtain ⟨info₃, hi₃', hh₃⟩ := w₃.grows.callable hi₂
      cases hi₃'.symm.trans hi₃
      have hproc : i.kind = .procedure := by
        rw [CallableInfo.kind_of_heading (hh₃.trans hh₂)]
        cases hki : info.kind with
        | procedure => rfl
        | function => exact absurd hki hkind
      exact ⟨i, hi₃, congrArg ValueType.isVoid ((hs.callable hi₃).2 hproc), ha⟩

theorem checkReturn_spec (h : Standing outer base f s) {value : Option TypedExpr} (pos : Position)
    (huses : ∀ u ∈ TypedExpr.usesOption value, (s.world outer).Allows f s.visible u)
    (htyped : s.Quiet base → s.defs.Solid → ∀ e, value = some e → e.WellTyped s.defs) :
    Sat (checkReturn (s.defs.typeOf f) value pos) s fun r s' => Plain outer base f s s' r := by
  unfold checkReturn
  cases value with
  | some v =>
    dsimp only
    split
    · exact (report_spec h _ _).bind fun _ _ hr => Sat.ret (.none hr.1)
    next hres =>
    split
    · exact (report_spec h _ _).bind fun _ _ hr => Sat.ret (.none hr.1)
    next hbad =>
    refine Sat.ret (Plain.some (.refl h) rfl rfl huses fun hq hs => ?_)
    have ht := htyped hq hs v rfl
    refine ⟨by simpa using hres, ht, ?_⟩
    simpa [TypedExpr.isVoid, ht.not_void] using hbad
  | none =>
    dsimp only
    split
    · next hres => exact Plain.some (.refl h) rfl rfl huses fun _ _ => hres
    · exact (report_spec h _ _).bind fun _ _ hr => Sat.ret (.none hr.1)

theorem annotateOption_spec (h : Standing outer base f s) (value : Option Expr) :
    Sat (annotateOption f value) s fun v s' =>
      Walked outer base f s s' ∧
        (∀ u ∈ TypedExpr.usesOption v, (s'.world outer).Allows f s.visible u) ∧
        (s'.Quiet base → s'.defs.Solid → ∀ e, v = some e → e.WellTyped s'.defs) := by
  cases value with
  | none => exact ⟨.refl h, fun _ hu => (List.not_mem_nil hu).elim, fun _ _ _ => nofun⟩
  | some e =>
    refine (annotateExpr_spec e h).bind fun t s₁ h₁ => Sat.ret ⟨h₁.1, h₁.2.within, ?_⟩
    rintro hq hs _ ⟨⟩
    exact h₁.2.typed hq hs

theorem annotateReturn_spec (h : Standing outer base f s) (value : Option Expr) (pos : Position) :
    Sat (annotateReturn f value pos) s fun r s' => Plain outer base f s s' r := by
  refine (annotateOption_spec h value).bind fun v s₁ h₁ => ?_
  obtain ⟨hw, huses, htyped⟩ := h₁
  refine Sat.defs (k := fun ds => checkReturn (ds.typeOf f) v pos) ?_
  exact (checkReturn_spec hw.standing pos (hw.visible ▸ huses) htyped).mono fun _ _ h₂ => h₂.after hw

theorem annotateCond_spec (h : Standing outer base f s) (place : Condition) (e : Expr) :
    Sat (annotateCond f place e) s fun t s' =>
      Walked outer base f s s' ∧ Fine outer base f s.visible s' t ∧
        (s'.Quiet base → s'.defs.Solid → t.type = .bool) := by
  refine (annotateExpr_spec e h).bind fun t s₁ h₁ => ?_
  refine (reportIf_spec h₁.1.standing _ _ _).bind fun _ s₂ h₂ =>
    Sat.ret ⟨h₁.1.trans h₂.1, h₁.2.later h₂.1, fun hq hs => ?_⟩
  have ht := (h₁.2.later h₂.1).typed hq hs
  simpa [TypedExpr.isVoid, ht.not_void] using h₂.2 hq

/-! ## The walk -/

/-- The walk from `s` to `s'` has given `ts`, has been at the call sites `cs`, and
has made no definition without a type if the types in the source are named. -/
def Gave (outer : DefId → List DefId) (base : Nat) (f : DefId) (named : Prop) (cs : List CallSite)
    (s s' : Progress) (ts : List TypedStmt) : Prop :=
  ∃ outer', Annotated outer outer' base f s s' ts ∧ (named → s.defs.Solid → s'.defs.Solid) ∧
    ∀ c ∈ cs, c.Reached base (s'.world outer')

/-- Call sites where the statement begins. -/
theorem Stepped.sites {new : List DefId} {cs : List CallSite} (h : Stepped outer outer' base f new s s')
    (hs : Standing outer base f s) (hc : ∀ c ∈ cs, c.At f s) :
    ∀ c ∈ cs, c.Reached base (s'.world outer') :=
  fun c hin => ((hc c hin).reached hs).later h.world

theorem Plain.gave {named : Prop} {r : Option TypedStmt} {cs : List CallSite}
    (h : Plain outer base f s s' r) (hs : Standing outer base f s) (hc : ∀ c ∈ cs, c.At f s) :
    Gave outer base f named cs s s' r.toList :=
  ⟨outer, h.annotated, fun _ => h.walked.solid_later, h.walked.stepped.sites hs hc⟩

theorem assignSites_at (h : Standing outer base f s) (target : Target) (value : Expr) :
    ∀ c ∈ stmtMarks callMarks f (.assign target value) s, c.At f s := by
  intro c hc
  have hw := (annotateExpr_spec target.expr h).1
  rcases List.mem_append.mp hc with hc | hc
  · exact exprSites_at target.expr h c hc
  · exact (exprSites_at value hw.standing c hc).before h hw

theorem callSites_at (h : Standing outer base f s) (callee : Ident) (args : List Expr) :
    ∀ c ∈ stmtMarks callMarks f (.call callee args) s, c.At f s := by
  intro c hc
  rw [stmtMarks] at hc
  obtain ⟨hw, hr⟩ : Walked outer base f s (after (resolveCallable callee) s) ∧
    ∀ g kind, given (resolveCallable callee) s = some (g, kind) → g ∈ s.visible ∧ _ :=
      resolveCallable_spec h callee
  cases hg : given (resolveCallable callee) s with
  | none => rw [hg] at hc; cases hc
  | some r =>
    obtain ⟨g, kind⟩ := r
    simp only [hg] at hc
    have hargs := (annotateExprs_spec args hw.standing).1
    rcases List.mem_append.mp hc with hc | hc
    · exact (exprsSites_at args hw.standing c hc).before h hw
    · refine (siteOf_at ?_ hc).before h (hw.trans hargs)
      exact (hargs.visible.trans hw.visible).symm ▸ (hr g kind hg).1

mutual

theorem annotateStmt_spec (st : Stmt) (outer : DefId → List DefId) (f : DefId) :
    ∀ {s : Progress}, Standing outer base f s →
    Sat (annotateStmt f st) s fun r s' =>
      Gave outer base f st.Named (stmtMarks callMarks f st s) s s' r.toList := by
  intro s h
  cases st with
  | declare names type pos =>
    refine (annotateDeclaration_spec h names type pos).bind fun t s₁ h₁ => Sat.ret ?_
    exact ⟨outer, h₁.1, h₁.2, h₁.1.stepped.sites h (typeSites_at h type)⟩
  | callable heading start body =>
    refine (declareCallable_spec h heading).step fun r s₁ hr e₁ h₁ => ?_
    rw [stmtMarks, hr, e₁]
    cases r with
    | none =>
      refine Sat.ret ⟨outer, .nil h₁, fun _ => h₁.solid_later, ?_⟩
      rw [List.append_nil]
      exact h₁.stepped.sites h (headingSites_at h heading)
    | some g =>
      obtain ⟨outer', hnew⟩ := h₁
      refine Sat.modify ?_
      refine (declareParams_spec heading.params hnew.enter).step fun _ s₂ _ e₂ h₂ => ?_
      refine Sat.modify ?_
      refine (annotateStmts_spec body outer' g h₂.1.standing.enter).bind fun ts s₃ h₃ => ?_
      refine Sat.modify (Sat.modify (Sat.ret ?_))
      obtain ⟨outer'', ha, hsolid, hsites⟩ := h₃
      have hall := Annotated.callable h hnew h₂.1 ha
      have e₂ : after (declareParams g heading.params) (after enterScope s₁) = s₂ := e₂
      refine ⟨outer'', hall, fun hn hs => ?_, fun c hc => ?_⟩
      · exact hsolid hn.2 (h₂.2.2 hn.1.params (hnew.solid hn.1 hs))
      · rcases List.mem_append.mp hc with hc | hc
        · exact hall.stepped.sites h (headingSites_at h heading) c hc
        rcases List.mem_append.mp hc with hc | hc
        · have hparam : c.Reached base
              ((after (declareParams g heading.params) (after enterScope s₁)).world outer') :=
            paramsSites_reached heading.params hnew.enter c hc
          rw [e₂] at hparam
          exact hparam.keep ha.stepped.grows.keeps ha.stepped.outer
        · rw [e₂] at hc
          exact hsites c hc
  | assign target value =>
    exact (annotateAssign_spec h target value).mono fun _ _ h₁ => h₁.gave h (assignSites_at h target value)
  | ifThen cond yes pos =>
    refine (annotateCond_spec h .ifTest cond).step fun c s₁ _ e₁ h₁ => ?_
    obtain ⟨hw, hc, hbool⟩ := h₁
    refine (annotateStmt_spec yes outer f hw.standing).bind fun y s₂ h₂ => Sat.ret ?_
    obtain ⟨outer₂, hy, hsolid, hsites⟩ := h₂
    have hy := hy.branch
    refine ⟨outer₂, (hy.after hw).wrap ?_ ?_ ⟨?_, ?_⟩ ?_, fun hn hs => hsolid hn (hw.solid_later hs),
      fun c hin => ?_⟩
    · simp [TypedStmt.bound, TypedStmt.boundIn]
    · simp [TypedStmt.routines, TypedStmt.routinesIn]
    · exact hy.stepped.world.scopedExpr hc.within
    · exact hw.visible ▸ hy.within.1
    · intro hq hs
      have hq₁ := hy.stepped.quiet hq
      have hs₁ := hy.stepped.solid hs
      exact ⟨(hc.typed hq₁ hs₁).grow hy.stepped.grows, hbool hq₁ hs₁, (hy.typed hq hs).1⟩
    · rw [stmtMarks, e₁] at hin
      rcases List.mem_append.mp hin with hin | hin
      · exact (hy.after hw).stepped.sites h (exprSites_at cond h) c hin
      · exact hsites c hin
  | ifElse cond yes no pos =>
    refine (annotateCond_spec h .ifTest cond).step fun c s₁ _ e₁ h₁ => ?_
    obtain ⟨hw, hc, hbool⟩ := h₁
    refine (annotateStmt_spec yes outer f hw.standing).step fun y s₂ _ e₂ h₂ => ?_
    obtain ⟨outer₂, hy, hsolid₂, hsites₂⟩ := h₂
    refine (annotateStmt_spec no outer₂ f hy.stepped.standing).bind fun n s₃ h₃ => Sat.ret ?_
    obtain ⟨outer₃, hn, hsolid₃, hsites₃⟩ := h₃
    have hboth := hy.branch.append hn.branch
    refine ⟨outer₃, (hboth.after hw).wrap ?_ ?_ ⟨?_, ?_, ?_⟩ ?_, fun hnm hs => ?_, fun c hin => ?_⟩
    · simp [TypedStmt.bound, TypedStmt.boundIn]
    · simp [TypedStmt.routines, TypedStmt.routinesIn]
    · exact hboth.stepped.world.scopedExpr hc.within
    · exact hw.visible ▸ hboth.within.1
    · exact hw.visible ▸ hboth.within.2.1
    · intro hq hs
      have hq₁ := hboth.stepped.quiet hq
      have hs₁ := hboth.stepped.solid hs
      obtain ⟨hyes, hno, _⟩ := hboth.typed hq hs
      exact ⟨(hc.typed hq₁ hs₁).grow hboth.stepped.grows, hbool hq₁ hs₁, hyes, hno⟩
    · exact hsolid₃ hnm.2 (hsolid₂ hnm.1 (hw.solid_later hs))
    · rw [stmtMarks, e₁, e₂] at hin
      rcases List.mem_append.mp hin with hin | hin
      · exact (hboth.after hw).stepped.sites h (exprSites_at cond h) c hin
      rcases List.mem_append.mp hin with hin | hin
      · exact (hsites₂ c hin).later hn.stepped.world
      · exact hsites₃ c hin
  | whileDo cond body pos =>
    refine (annotateCond_spec h .whileCondition cond).step fun c s₁ _ e₁ h₁ => ?_
    obtain ⟨hw, hc, hbool⟩ := h₁
    refine (annotateStmt_spec body outer f hw.standing).bind fun b s₂ h₂ => Sat.ret ?_
    obtain ⟨outer₂, hb, hsolid, hsites⟩ := h₂
    have hb := hb.branch
    refine ⟨outer₂, (hb.after hw).wrap ?_ ?_ ⟨?_, ?_⟩ ?_, fun hn hs => hsolid hn (hw.solid_later hs),
      fun c hin => ?_⟩
    · simp [TypedStmt.bound, TypedStmt.boundIn]
    · simp [TypedStmt.routines, TypedStmt.routinesIn]
    · exact hb.stepped.world.scopedExpr hc.within
    · exact hw.visible ▸ hb.within.1
    · intro hq hs
      have hq₁ := hb.stepped.quiet hq
      have hs₁ := hb.stepped.solid hs
      exact ⟨(hc.typed hq₁ hs₁).grow hb.stepped.grows, hbool hq₁ hs₁, (hb.typed hq hs).1⟩
    · rw [stmtMarks, e₁] at hin
      rcases List.mem_append.mp hin with hin | hin
      · exact (hb.after hw).stepped.sites h (exprSites_at cond h) c hin
      · exact hsites c hin
  | call callee args =>
    exact (annotateCall_spec h callee args).mono fun _ _ h₁ => h₁.gave h (callSites_at h callee args)
  | ret value pos =>
    exact (annotateReturn_spec h value pos).mono fun _ _ h₁ => h₁.gave h (optionSites_at h value)
  | assert cond pos =>
    refine (annotateCond_spec h .assertion cond).bind fun c s₁ h₁ => Sat.ret ?_
    obtain ⟨hw, hc, hbool⟩ := h₁
    have hp : Plain outer base f s s₁ (some (.assert c pos)) :=
      .some hw rfl rfl hc.within fun hq hs => ⟨hc.typed hq hs, hbool hq hs⟩
    exact hp.gave h (exprSites_at cond h)
  | block start body =>
    refine Sat.modify ?_
    refine (annotateStmts_spec body outer f h.enter).bind fun ts s₁ h₁ => Sat.modify (Sat.ret ?_)
    obtain ⟨outer₁, ha, hsolid, hsites⟩ := h₁
    exact ⟨outer₁, .block h ha, hsolid, hsites⟩

theorem annotateStmts_spec (sts : List Stmt) (outer : DefId → List DefId) (f : DefId) :
    ∀ {s : Progress}, Standing outer base f s →
    Sat (annotateStmts f sts) s fun ts s' =>
      Gave outer base f (Stmt.NamedIn sts) (stmtsMarks callMarks f sts s) s s' ts := by
  intro s h
  cases sts with
  | nil => exact ⟨outer, .nil (.refl h), fun _ hs => hs, nofun⟩
  | cons st sts =>
    refine (annotateStmt_spec st outer f h).step fun r s₁ _ e₁ h₁ => ?_
    obtain ⟨outer₁, ha₁, hsolid₁, hsites₁⟩ := h₁
    refine (annotateStmts_spec sts outer₁ f ha₁.stepped.standing).bind fun ts s₂ h₂ => Sat.ret ?_
    obtain ⟨outer₂, ha₂, hsolid₂, hsites₂⟩ := h₂
    refine ⟨outer₂, ha₁.append ha₂, fun hn hs => hsolid₂ hn.2 (hsolid₁ hn.1 hs), fun c hin => ?_⟩
    rw [stmtsMarks, e₁] at hin
    rcases List.mem_append.mp hin with hin | hin
    · exact (hsites₁ c hin).later ha₂.stepped.world
    · exact hsites₂ c hin

end

end StackPascal
