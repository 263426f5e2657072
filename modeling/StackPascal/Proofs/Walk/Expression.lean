import StackPascal.Proofs.Walk.Standing

/-!
The walk over expressions.

An expression declares nothing. What it names is visible and within reach of
the callable it stands in, and if nothing has been reported the typed
expression obeys the typing rules: `annotateExpr_spec`.
-/

namespace StackPascal

open Analyze

variable {outer : DefId → List DefId} {base : Nat} {f : DefId} {s : Progress}

/-! ## Variables -/

theorem Standing.addCapture (h : Standing outer base f s) {id : DefId} (hid : id ∈ s.visible)
    (hv : s.defs.isVariable id = true) (ho : s.defs.owner id ≠ none)
    (hf : s.defs.owner id ≠ some f) (hl : s.defs.lacksCapture f id = true) :
    Walked outer base f s { s with defs := s.defs.addCapture f id } := by
  have hs := Defs.signature?_addCapture s.defs f id
  have hm := Defs.main_addCapture s.defs f id
  have hz := Defs.size_addCapture s.defs f id
  have hnear : id ∈ outer f := by
    obtain h' | h' | h' := h.near id hid hv
    · exact absurd h' ho
    · exact absurd h' hf
    · exact h'
  have hw : World.Consistent ⟨s.defs.addCapture f id, s.calls, outer⟩ :=
    h.consistent.addCapture hnear hv ho hl
  exact ⟨rfl, hz, .addCapture _ _ _, fun _ hc => hc, List.suffix_refl _, h.congr hm hz hs hw⟩

theorem capture_spec (h : Standing outer base f s) {id : DefId} (hid : id ∈ s.visible)
    (hv : s.defs.isVariable id = true) :
    Sat (capture f id) s fun _ s' =>
      Walked outer base f s s' ∧ (s'.world outer).Supplies f id := by
  unfold capture
  refine Sat.defs ?_
  cases ho : s.defs.owner id with
  | none => exact ⟨.refl h, .inl ho⟩
  | some o =>
    dsimp only
    split
    · next hc =>
      simp only [Bool.and_eq_true, decide_eq_true_eq] at hc
      have hw := h.addCapture hid hv (by simp [ho]) (by simpa [ho] using hc.1) hc.2
      refine ⟨hw.trans (hw.standing.note _), .inr (.inr ?_)⟩
      show id ∈ (s.defs.addCapture f id).capturesOf f
      rw [Defs.capturesOf_addCapture, if_pos ⟨rfl, hc.2⟩]
      exact List.mem_append_right _ (List.mem_singleton.mpr rfl)
    · next hc =>
      refine ⟨.refl h, ?_⟩
      by_cases hf : o = f
      · exact .inr (.inl (hf ▸ ho))
      · have hl : s.defs.lacksCapture f id = false := by simpa [hf] using hc
        refine .inr (.inr ?_)
        refine Classical.byContradiction fun hn => ?_
        have ht := Defs.lacksCapture_iff.mpr ⟨h.here, hn⟩
        exact absurd (hl.symm.trans ht) (by decide)

/-- Binding a name makes its definition visible. -/
theorem mem_visible_of_find? {name : String} {id : DefId} (h : s.scopes.find? name = some id) :
    id ∈ s.visible := by
  obtain ⟨b, hb, rfl⟩ := Option.map_eq_some_iff.mp h
  exact List.mem_map_of_mem (List.mem_of_find?_eq_some hb)

theorem resolveVariable_spec (h : Standing outer base f s) (name : Ident) :
    Sat (resolveVariable f name) s fun r s' =>
      Walked outer base f s s' ∧
        match r with
        | none => ¬ s'.Quiet base
        | some id => (s'.world outer).Allows f s.visible (.place id) := by
  unfold resolveVariable
  refine Sat.scopes ?_
  cases hf : s.scopes.find? name.text with
  | none => exact (report_spec h _ _).bind fun _ _ hr => Sat.ret hr
  | some id =>
    refine Sat.defs ?_
    have hid := mem_visible_of_find? hf
    split
    · next hv =>
      refine (capture_spec h hid hv).bind fun _ s' hc => Sat.ret ⟨hc.1, hid, ?_, hc.2⟩
      exact (Defs.isVariable_congr (hc.1.grows.signature id (h.range id hid))).trans hv
    · exact (report_spec h _ _).bind fun _ _ hr => Sat.ret hr

/-! ## Typed expressions on the way -/

/-- The expression names only what `f` may name where `Γ` is visible, and it is
well typed unless something has been reported. -/
structure Fine (outer : DefId → List DefId) (base : Nat) (f : DefId) (Γ : List DefId)
    (s : Progress) (t : TypedExpr) : Prop where
  within : (s.world outer).ScopedExpr f Γ t
  typed : s.Quiet base → s.defs.Solid → t.WellTyped s.defs

theorem Walked.solid {s' : Progress} (h : Walked outer base f s s') (hs : s'.defs.Solid) :
    s.defs.Solid := by
  intro id d hd
  obtain ⟨d', hd', _⟩ := Option.map_eq_some_iff.mp hd
  exact hs id d ((h.grows.signature id (Defs.lt_size_of_get? hd')).trans hd)

namespace Fine

variable {s' : Progress} {Γ : List DefId} {t : TypedExpr}

theorem later (h : Fine outer base f Γ s t) (hw : Walked outer base f s s') :
    Fine outer base f Γ s' t :=
  ⟨hw.world.scopedExpr h.within, fun hq hs => (h.typed (hw.quiet hq) (hw.solid hs)).grow hw.grows⟩

/-- Only what was reported is of type `Void`. -/
theorem of_void (h : Fine outer base f Γ s t) (hv : t.isVoid = true) (hs : s.defs.Solid) :
    ¬ s.Quiet base :=
  fun hq => absurd ((h.typed hq hs).not_void.symm.trans hv) (by decide)

theorem reported (h : s.defs.Solid → ¬ s.Quiet base) (pos : Position) :
    Fine outer base f Γ s (.reported pos) :=
  ⟨fun _ hu => (List.not_mem_nil hu).elim, fun hq hs => absurd hq (h hs)⟩

end Fine

theorem applySign_spec {Γ : List DefId} {e : TypedExpr} (h : Standing outer base f s)
    (sign : Sign) (he : Fine outer base f Γ s e) :
    Sat (applySign sign e) s fun t s' => Walked outer base f s s' ∧ Fine outer base f Γ s' t := by
  unfold applySign
  cases sign with
  | plus => exact ⟨.refl h, he⟩
  | minus =>
    dsimp only
    split
    · exact ⟨.refl h, he⟩
    · split
      · next hn =>
        refine Sat.ret ⟨.refl h, ?_, fun hq hs => (he.typed hq hs).withSign hn⟩
        intro u hu
        rw [TypedExpr.withSign, TypedExpr.uses_mapInfo] at hu
        exact he.within u hu
      · exact (report_spec h _ _).bind fun _ _ hr =>
          Sat.ret ⟨hr.1, .reported (fun _ => hr.2) _⟩

section Checks

variable {Γ : List DefId}

theorem checkBinary_spec (h : Standing outer base f s) (op : BinOp) {left right : TypedExpr}
    (hl : Fine outer base f Γ s left) (hr : Fine outer base f Γ s right) (pos : Position) :
    Sat (checkBinary op left right pos) s fun t s' =>
      Walked outer base f s s' ∧ Fine outer base f Γ s' t := by
  unfold checkBinary
  split
  · next hv =>
    refine ⟨.refl h, .reported (fun hs => ?_) _⟩
    rcases Bool.or_eq_true_iff.mp hv with hv | hv
    · exact hl.of_void hv hs
    · exact hr.of_void hv hs
  · cases hb : binaryResult op left.type right.type with
    | some r =>
      obtain ⟨operand, type⟩ := r
      refine ⟨.refl h, ?_, fun hq hs => ⟨hl.typed hq hs, hr.typed hq hs, hb, nofun⟩⟩
      intro u hu
      rcases List.mem_append.mp hu with hu | hu
      · exact hl.within u hu
      · exact hr.within u hu
    | none =>
      exact (report_spec h _ _).bind fun _ _ hr => Sat.ret ⟨hr.1, .reported (fun _ => hr.2) _⟩

theorem checkNot_spec (h : Standing outer base f s) {operand : TypedExpr}
    (ho : Fine outer base f Γ s operand) (pos : Position) :
    Sat (checkNot operand pos) s fun t s' =>
      Walked outer base f s s' ∧ Fine outer base f Γ s' t := by
  unfold checkNot
  split
  · next hv => exact ⟨.refl h, .reported (ho.of_void hv) _⟩
  · cases hn : notResult operand.type with
    | some type => exact ⟨.refl h, ho.within, fun hq hs => ⟨ho.typed hq hs, hn, nofun⟩⟩
    | none =>
      exact (report_spec h _ _).bind fun _ _ hr => Sat.ret ⟨hr.1, .reported (fun _ => hr.2) _⟩

theorem checkMember_spec (h : Standing outer base f s) {e : TypedExpr}
    (he : Fine outer base f Γ s e) (member : Ident) (pos : Position) :
    Sat (checkMember e member pos) s fun t s' =>
      Walked outer base f s s' ∧ Fine outer base f Γ s' t := by
  unfold checkMember
  split
  · next hv => exact ⟨.refl h, .reported (he.of_void hv) _⟩
  · split
    · next ha =>
      have ha : e.type.isArray = true := (Bool.and_eq_true_iff.mp ha).1
      exact ⟨.refl h, he.within, fun hq hs => ⟨he.typed hq hs, ha, rfl, nofun⟩⟩
    · exact (report_spec h _ _).bind fun _ _ hr => Sat.ret ⟨hr.1, .reported (fun _ => hr.2) _⟩

theorem checkElement_spec (h : Standing outer base f s) (name : Ident) {id : DefId}
    {index : TypedExpr} (hid : (s.world outer).Allows f Γ (.place id))
    (hi : Fine outer base f Γ s index) :
    Sat (checkElement name id index) s fun t s' =>
      Walked outer base f s s' ∧ Fine outer base f Γ s' t := by
  unfold checkElement
  refine Sat.defs ?_
  dsimp only
  split
  · next ha =>
    refine (reportIf_spec h _ _ _).bind fun _ s' hr => Sat.ret ⟨hr.1, ?_, fun hq hs => ?_⟩
    · intro u hu
      rcases List.mem_cons.mp hu with rfl | hu
      · exact hr.1.world.allows hid
      · exact hr.1.world.allows (hi.within u hu)
    · have ht := (hi.typed (hr.1.quiet hq) (hr.1.solid hs))
      have hv := (hr.1.solid hs).typeOf_variable hid.2.1
      have hint : index.type = .int := by
        have hw := hr.2 hq
        simpa [TypedExpr.isVoid, ht.not_void] using hw
      refine TypedExpr.WellTyped.grow hr.1.grows (e := .element id index _) ?_
      exact ⟨ha, ht, hint, rfl, hv, nofun⟩
  · exact (report_spec h _ _).bind fun _ _ hr => Sat.ret ⟨hr.1, .reported (fun _ => hr.2) _⟩

end Checks

/-! ## Calls -/

/-- As `Fine`, for the arguments of a call. -/
structure FineArgs (outer : DefId → List DefId) (base : Nat) (f : DefId) (Γ : List DefId)
    (s : Progress) (args : List TypedExpr) : Prop where
  within : ∀ u ∈ TypedExpr.usesAll args, (s.world outer).Allows f Γ u
  typed : s.Quiet base → s.defs.Solid → ∀ e ∈ args, e.WellTyped s.defs

theorem FineArgs.later {s' : Progress} {Γ : List DefId} {args : List TypedExpr}
    (h : FineArgs outer base f Γ s args) (hw : Walked outer base f s s') :
    FineArgs outer base f Γ s' args :=
  ⟨fun u hu => hw.world.allows (h.within u hu),
    fun hq hs e he => (h.typed (hw.quiet hq) (hw.solid hs) e he).grow hw.grows⟩

theorem checkIntrinsicArg_spec (h : Standing outer base f s) (name : Ident) (i : Intrinsic)
    (n : Nat) (arg : TypedExpr) :
    Sat (checkIntrinsicArg name i n arg) s fun _ s' =>
      Walked outer base f s s' ∧
        (s'.Quiet base → arg.isVoid = false →
          arg.type.isArray = false ∧ (i = .read → arg.isVariable = true)) := by
  unfold checkIntrinsicArg
  split
  · next hv => exact ⟨.refl h, fun _ hn => absurd (hv.symm.trans hn) (by decide)⟩
  · split
    · exact (report_spec h _ _).mono fun _ _ hr => ⟨hr.1, fun hq => absurd hq hr.2⟩
    · next ha =>
      refine (reportIf_spec h _ _ _).mono fun _ s' hr => ⟨hr.1, fun hq _ => ⟨by simpa using ha, ?_⟩⟩
      rintro rfl
      simpa using hr.2 hq

theorem checkIntrinsicArgs_spec (name : Ident) (i : Intrinsic) (args : List TypedExpr) :
    ∀ {s : Progress}, Standing outer base f s → ∀ n,
    Sat (checkIntrinsicArgs name i n args) s fun _ s' =>
      Walked outer base f s s' ∧
        (s'.Quiet base → ∀ arg ∈ args, arg.isVoid = false →
          arg.type.isArray = false ∧ (i = .read → arg.isVariable = true)) := by
  induction args with
  | nil => exact fun h n => ⟨.refl h, fun _ => nofun⟩
  | cons arg args ih =>
    intro s h n
    refine (checkIntrinsicArg_spec h name i n arg).bind fun _ s₁ h₁ => ?_
    refine (ih h₁.1.standing (n + 1)).mono fun _ s₂ h₂ => ⟨h₁.1.trans h₂.1, fun hq e he => ?_⟩
    rcases List.mem_cons.mp he with rfl | he
    · exact h₁.2 (h₂.1.quiet hq)
    · exact h₂.2 hq e he

theorem checkArg_spec (h : Standing outer base f s) (name : Ident) (n : Nat) (arg : TypedExpr)
    (param : DefId) :
    Sat (checkArg name n arg param) s fun _ s' =>
      Walked outer base f s s' ∧
        (s'.Quiet base → arg.isVoid = false → s.defs.Takes param arg) := by
  unfold checkArg
  refine Sat.defs ?_
  refine (reportIf_spec h _ _ _).bind fun _ s₁ h₁ => ?_
  refine (reportIf_spec h₁.1.standing _ _ _).mono fun _ s₂ h₂ =>
    ⟨h₁.1.trans h₂.1, fun hq hv => ?_⟩
  have hfits := h₁.2 (h₂.1.quiet hq)
  have hvar := h₂.2 hq
  simp only [hv, Bool.not_false, Bool.true_and, Bool.not_eq_false'] at hfits
  unfold Defs.Takes
  unfold fits at hfits
  split
  · next hr =>
    simp only [hr, if_true, decide_eq_true_eq] at hfits
    exact ⟨by simpa [hv, hr] using hvar, hfits⟩
  · next hr => simpa [hr] using hfits

theorem checkArgs_spec (name : Ident) (args : List TypedExpr) :
    ∀ {params : List DefId} {s : Progress}, Standing outer base f s → ∀ n,
    args.length = params.length →
    Sat (checkArgs name n args params) s fun _ s' =>
      Walked outer base f s s' ∧
        (s'.Quiet base → (∀ e ∈ args, e.WellTyped s.defs) →
          TypedExpr.WellTypedArgs s'.defs params args) := by
  induction args with
  | nil =>
    intro params s h n hl
    cases params with
    | nil => exact ⟨.refl h, fun _ _ => trivial⟩
    | cons _ _ => cases hl
  | cons arg args ih =>
    intro params s h n hl
    cases params with
    | nil => cases hl
    | cons param params =>
      refine (checkArg_spec h name n arg param).bind fun _ s₁ h₁ => ?_
      refine (ih h₁.1.standing (n + 1) (Nat.succ.inj hl)).mono fun _ s₂ h₂ =>
        ⟨h₁.1.trans h₂.1, fun hq ht => ?_⟩
      have hw := h₁.1.trans h₂.1
      have harg := ht arg (List.mem_cons_self ..)
      refine ⟨harg.grow hw.grows, hw.grows.takes harg.not_void ?_, h₂.2 hq fun e he => ?_⟩
      · exact h₁.2 (h₂.1.quiet hq) harg.not_void
      · exact (ht e (List.mem_cons_of_mem _ he)).grow h₁.1.grows

theorem Standing.addCall (h : Standing outer base f s) {g : DefId} (hg : g ∈ s.visible)
    (hc : (s.defs.callable? g).isSome) :
    Walked outer base f s { s with calls := (f, g) :: s.calls } := by
  have hw : World.Consistent ⟨s.defs, (f, g) :: s.calls, outer⟩ := by
    refine h.consistent.extend rfl rfl (fun _ => rfl) (fun _ => rfl) (fun _ => rfl) (fun _ => rfl)
      h.consistent.captured h.consistent.nodup fun f' g' hfg => ?_
    rcases List.mem_cons.mp hfg with he | hfg
    · cases he
      exact ⟨h.here, hc, fun v hv => h.near v (h.callables g hg hc hv)⟩
    · exact h.consistent.called f' g' hfg
  exact ⟨rfl, rfl, .refl _, List.subset_cons_self _ _, List.suffix_refl _,
    h.congr rfl rfl (fun _ => rfl) hw⟩

theorem checkCall_spec (h : Standing outer base f s) {g : DefId} (hg : g ∈ s.visible)
    (hc : (s.defs.callable? g).isSome) (name : Ident) {args : List TypedExpr}
    (ha : FineArgs outer base f s.visible s args) :
    Sat (checkCall f g name args) s fun _ s' =>
      Walked outer base f s s' ∧ (s'.world outer).Allows f s.visible (.callee g) ∧
        (s'.Quiet base → s'.defs.Solid →
          ∃ info, s'.defs.callable? g = some info ∧ info.Accepts s'.defs args) := by
  unfold checkCall
  refine Sat.defs ?_
  obtain ⟨info, hi⟩ := Option.isSome_iff_exists.mp hc
  have ho : outer g ⊆ s.visible := h.callables g hg hc
  simp only [hi]
  cases hn : info.intrinsic with
  | some i =>
    have hallow : (s.world outer).Allows f s.visible (.callee g) :=
      ⟨hg, ho, hc, .inl ⟨info, hi, by simp [hn]⟩⟩
    refine (checkIntrinsicArgs_spec name i args h 1).mono fun _ s' hr =>
      ⟨hr.1, hr.1.world.allows hallow, fun hq hs => ?_⟩
    obtain ⟨info', hi', hh⟩ := hr.1.grows.callable hi
    refine ⟨info', hi', ?_⟩
    unfold CallableInfo.Accepts
    rw [CallableInfo.intrinsic_of_heading hh, hn]
    intro e he
    have ht := ha.typed (hr.1.quiet hq) (hr.1.solid hs) e he
    exact ⟨ht.grow hr.1.grows, hr.2 hq e he ht.not_void⟩
  | none =>
    have hw := h.addCall hg hc
    have hallow : World.Allows ⟨s.defs, (f, g) :: s.calls, outer⟩ f s.visible (.callee g) :=
      ⟨hg, ho, hc, .inr (List.mem_cons_self ..)⟩
    refine Sat.modify ?_
    split
    · next hl =>
      refine (checkArgs_spec name args hw.standing 1 hl).mono fun _ s' hr =>
        ⟨hw.trans hr.1, hr.1.world.allows hallow, fun hq hs => ?_⟩
      obtain ⟨info', hi', hh⟩ := hr.1.grows.callable hi
      refine ⟨info', hi', ?_⟩
      unfold CallableInfo.Accepts
      rw [CallableInfo.intrinsic_of_heading hh, CallableInfo.params_of_heading hh, hn]
      exact hr.2 hq (ha.typed ((hw.trans hr.1).quiet hq) ((hw.trans hr.1).solid hs))
    · exact (report_spec hw.standing _ _).mono fun _ s' hr =>
        ⟨hw.trans hr.1, hr.1.world.allows hallow, fun hq => absurd hq hr.2⟩

theorem resolveFunction_spec (h : Standing outer base f s) (callee : Ident) :
    Sat (resolveFunction callee) s fun r s' =>
      Walked outer base f s s' ∧
        match r with
        | none => ¬ s'.Quiet base
        | some id => id ∈ s.visible ∧ s'.defs.kindOf? id = some .function := by
  unfold resolveFunction
  refine Sat.scopes ?_
  cases hf : s.scopes.find? callee.text with
  | none => exact (report_spec h _ _).bind fun _ _ hr => Sat.ret hr
  | some id =>
    refine Sat.defs ?_
    split
    · next hk => exact Sat.ret ⟨.refl h, mem_visible_of_find? hf, hk⟩
    · exact (report_spec h _ _).bind fun _ _ hr => Sat.ret hr

/-! ## The walk -/

mutual

theorem annotateExpr_spec (e : Expr) : ∀ {s : Progress}, Standing outer base f s →
    Sat (annotateExpr f e) s fun t s' =>
      Walked outer base f s s' ∧ Fine outer base f s.visible s' t := by
  intro s h
  cases e with
  | literal value sign pos =>
    refine applySign_spec h sign ⟨fun _ hu => (List.not_mem_nil hu).elim, fun _ _ => ⟨rfl, nofun⟩⟩
  | binary op left right sign pos =>
    refine (annotateExpr_spec left h).bind fun l s₁ h₁ => ?_
    refine (annotateExpr_spec right h₁.1.standing).bind fun r s₂ h₂ => ?_
    rw [h₁.1.visible] at h₂
    refine (checkBinary_spec h₂.1.standing op (h₁.2.later h₂.1) h₂.2 pos).bind fun t s₃ h₃ => ?_
    exact (applySign_spec h₃.1.standing sign h₃.2).mono fun t s₄ h₄ =>
      ⟨((h₁.1.trans h₂.1).trans h₃.1).trans h₄.1, h₄.2⟩
  | not operand sign pos =>
    refine (annotateExpr_spec operand h).bind fun o s₁ h₁ => ?_
    refine (checkNot_spec h₁.1.standing h₁.2 pos).bind fun t s₂ h₂ => ?_
    exact (applySign_spec h₂.1.standing sign h₂.2).mono fun t s₃ h₃ =>
      ⟨(h₁.1.trans h₂.1).trans h₃.1, h₃.2⟩
  | call callee args sign =>
    refine (resolveFunction_spec h callee).bind fun r s₁ h₁ => ?_
    cases r with
    | none => exact ⟨h₁.1, .reported (fun _ => h₁.2) _⟩
    | some g =>
      obtain ⟨w₁, hg, hk⟩ := h₁
      refine (annotateExprs_spec args w₁.standing).bind fun as s₂ h₂ => ?_
      obtain ⟨info, hi, hfun⟩ := Option.map_eq_some_iff.mp hk
      obtain ⟨info₂, hi₂, hh₂⟩ := h₂.1.grows.callable hi
      have hvis : s₂.visible = s.visible := h₂.1.visible.trans w₁.visible
      refine (checkCall_spec h₂.1.standing (hvis ▸ hg) (by rw [hi₂]; rfl) callee
        (by rw [h₂.1.visible]; exact h₂.2)).bind fun _ s₃ h₃ => ?_
      obtain ⟨w₃, hallow, hacc⟩ := h₃
      rw [hvis] at hallow
      refine Sat.defs ?_
      have hargs := h₂.2.later w₃
      rw [w₁.visible] at hargs
      refine (applySign_spec w₃.standing sign ⟨?_, ?_⟩).mono fun t s₄ h₄ =>
        ⟨((w₁.trans h₂.1).trans w₃).trans h₄.1, h₄.2⟩
      · intro u hu
        rcases List.mem_cons.mp hu with rfl | hu
        · exact hallow
        · exact hargs.within u hu
      · intro hq hs
        obtain ⟨info₃, hi₃, hh₃⟩ := w₃.grows.callable hi₂
        obtain ⟨i, hi, ha⟩ := hacc hq hs
        cases hi₃.symm.trans hi
        have hkind : info₃.kind = .function :=
          (CallableInfo.kind_of_heading (hh₃.trans hh₂)).trans hfun
        obtain ⟨hv, hn⟩ := (hs.callable hi₃).1 hkind
        unfold CallableInfo.Accepts at ha
        rw [hn] at ha
        exact ⟨info₃, hi₃, hn, ha, rfl, hv, nofun⟩
  | member base member sign pos =>
    refine (annotateExpr_spec base h).bind fun b s₁ h₁ => ?_
    refine (checkMember_spec h₁.1.standing h₁.2 member pos).bind fun t s₂ h₂ => ?_
    exact (applySign_spec h₂.1.standing sign h₂.2).mono fun t s₃ h₃ =>
      ⟨(h₁.1.trans h₂.1).trans h₃.1, h₃.2⟩
  | name name sign =>
    refine (resolveVariable_spec h name).bind fun r s₁ h₁ => ?_
    cases r with
    | none => exact ⟨h₁.1, .reported (fun _ => h₁.2) _⟩
    | some id =>
      refine Sat.defs ?_
      refine (applySign_spec h₁.1.standing sign ⟨?_, ?_⟩).mono fun t s₂ h₂ =>
        ⟨h₁.1.trans h₂.1, h₂.2⟩
      · intro u hu
        cases List.mem_singleton.mp hu
        exact h₁.2
      · exact fun _ hs => ⟨rfl, hs.typeOf_variable h₁.2.2.1, nofun⟩
  | element name index sign =>
    refine (resolveVariable_spec h name).bind fun r s₁ h₁ => ?_
    cases r with
    | none => exact ⟨h₁.1, .reported (fun _ => h₁.2) _⟩
    | some id =>
      refine (annotateExpr_spec index h₁.1.standing).bind fun i s₂ h₂ => ?_
      rw [h₁.1.visible] at h₂
      refine (checkElement_spec h₂.1.standing name (h₂.1.world.allows h₁.2) h₂.2).bind
        fun t s₃ h₃ => ?_
      exact (applySign_spec h₃.1.standing sign h₃.2).mono fun t s₄ h₄ =>
        ⟨((h₁.1.trans h₂.1).trans h₃.1).trans h₄.1, h₄.2⟩

theorem annotateExprs_spec (es : List Expr) : ∀ {s : Progress}, Standing outer base f s →
    Sat (annotateExprs f es) s fun ts s' =>
      Walked outer base f s s' ∧ FineArgs outer base f s.visible s' ts := by
  intro s h
  cases es with
  | nil => exact ⟨.refl h, fun _ hu => (List.not_mem_nil hu).elim, fun _ _ => nofun⟩
  | cons e es =>
    refine (annotateExpr_spec e h).bind fun t s₁ h₁ => ?_
    refine (annotateExprs_spec es h₁.1.standing).bind fun ts s₂ h₂ => ?_
    rw [h₁.1.visible] at h₂
    have ht := h₁.2.later h₂.1
    refine Sat.ret ⟨h₁.1.trans h₂.1, fun u hu => ?_, fun hq hs e he => ?_⟩
    · rcases List.mem_append.mp hu with hu | hu
      · exact ht.within u hu
      · exact h₂.2.within u hu
    · rcases List.mem_cons.mp he with rfl | he
      · exact ht.typed hq hs
      · exact h₂.2.typed hq hs e he

end

end StackPascal
