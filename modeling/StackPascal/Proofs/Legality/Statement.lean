import StackPascal.Proofs.Legality.Heading

/-!
The verdict of the walk on statements.

* `annotateAssign_judged`, `annotateCall_judged`, `annotateReturn_judged`: the
  simple statements;
* `annotateStmts_accepted`: what the walk over statements asks of them;
* `annotateStmts_judged`: if they are settled, it reports nothing exactly if they
  are legal one after the other.
-/

namespace StackPascal

open Analyze

variable {outer outer' : DefId → List DefId} {base : Nat} {f g : DefId}
  {s s' s'' s₁ t t' : Progress}

/-! ## Simple statements -/

theorem annotateCond_judged (h : Located outer base f s) (place : Condition) (cond : Expr) :
    Sat (annotateCond f place cond) s fun _ s' =>
      Verdict base s s' (HasType s.context cond .bool) :=
  annotateExpr_asked h cond .bool TypedExpr.pos (.badCondition place)

theorem checkAssign_judged (h : Located outer base f s) (name : Ident) {t v : TypedExpr}
    {Γ : List DefId} (ht : Fine outer base f Γ s t) (hv : Fine outer base f Γ s v) :
    Sat (checkAssign name t v) s fun _ s' =>
      Verdict base s s' (assignable t.type v.type = true ∧ t.type.isArray = false) := by
  unfold checkAssign
  split
  · next hvoid =>
    have hnot : ¬ s.Quiet base := by
      rcases Bool.or_eq_true_iff.mp hvoid with hvoid | hvoid
      · exact ht.of_void hvoid h.solid
      · exact hv.of_void hvoid h.solid
    exact ⟨fun hq => absurd hq hnot, fun hq => absurd hq.1 hnot⟩
  split
  · next ha =>
    refine (report_spec h.standing _ _).bind fun _ _ hr => Sat.ret (.reported hr.2 fun hp => ?_)
    rw [hp.1] at ha
    cases ha
  split
  · next harray =>
    refine (report_spec h.standing _ _).bind fun _ _ hr => Sat.ret (.reported hr.2 fun hp => ?_)
    rw [hp.2] at harray
    cases harray
  next ha harray => exact .silent rfl ⟨by simpa using ha, by simpa using harray⟩

theorem annotateAssign_judged (h : Located outer base f s) (result : Option ValueType)
    (target : Target) (value : Expr) :
    Sat (annotateAssign f target value) s fun _ s' =>
      Verdict base s s' (Legal s.context result (.assign target value)) := by
  refine ((annotateExpr_spec target.expr h.standing).and (annotateExpr_judged target.expr h)).bind
    fun t s₁ hx => ?_
  obtain ⟨⟨w₁, ht⟩, jt⟩ := hx
  have h₁ := h.walked w₁
  refine ((annotateExpr_spec value h₁.standing).and (annotateExpr_judged value h₁)).bind
    fun v s₂ hx => ?_
  obtain ⟨⟨w₂, hv⟩, jv⟩ := hx
  have h₂ := h₁.walked w₂
  have hctx := w₁.context h.standing
  rw [w₁.visible] at hv
  refine ((checkAssign_spec h₂.standing target.ident
    (by rw [w₂.visible, w₁.visible]; exact ht.later w₂)
    (by rw [w₂.visible, w₁.visible]; exact hv)).and
      (checkAssign_judged h₂ target.ident (ht.later w₂) hv)).mono fun _ s₃ hx => ?_
  obtain ⟨hp, hc⟩ := hx
  constructor
  · intro hq
    have hq₂ := hp.walked.quiet hq
    have hq₁ := w₂.quiet hq₂
    obtain ⟨_, ha, harray⟩ := hc.mp hq
    have htype := jt.sound hq₁
    rw [ValueType.eq_scalar harray] at htype ha
    refine ⟨w₁.quiet hq₁, .assign htype (hctx ▸ jv.sound hq₂) ?_⟩
    exact (assigns_iff (hv.typed hq₂ h₂.solid).not_void).mp ha
  · rintro ⟨hq, hl⟩
    cases hl with
    | assign htype hvtype ha =>
    have hq₁ := jt.complete hq _ htype
    rw [← hctx] at hvtype
    have hq₂ := jv.complete hq₁ _ hvtype
    have ht' := jt.type_eq hq htype
    have hv' := jv.type_eq hq₁ hvtype
    refine hc.mpr ⟨hq₂, ?_, by rw [ht']; rfl⟩
    rw [ht', hv']
    exact (assigns_iff (hv' ▸ (hv.typed hq₂ h₂.solid).not_void)).mpr ha

/-! ## Calls -/

theorem CallableInfo.Asks.hasType {Γ : Context} {ds : Defs} {info : CallableInfo} {es : List Expr}
    (h : info.Asks Γ ds es) : ∀ e ∈ es, ∃ τ, HasType Γ e τ := by
  unfold Asks at h
  split at h
  · exact allPass_hasType h
  · intro e he
    obtain ⟨b, hb, _⟩ := h e he
    exact ⟨_, hb⟩

/-- A statement may call what gives no result. -/
theorem Located.call_iff (h : Located outer base f s) {callee : Ident}
    (hf : s.scopes.find? callee.text = some g) {info : CallableInfo}
    (hi : s.defs.callable? g = some info) {result : Option ValueType} {args : List Expr} :
    Legal s.context result (.call callee args) ↔
      info.kind ≠ .function ∧ info.Asks s.context s.defs args := by
  have hfind : s.context.find? callee.text = some (s.defs.entityOf g) := by
    rw [Progress.find?_context h.layered, hf]
    rfl
  unfold CallableInfo.Asks
  cases hn : info.intrinsic with
  | some i =>
    have hk : info.kind ≠ .function := by
      intro hk
      rw [((h.solid.callable hi).1 hk).2] at hn
      cases hn
    rw [Defs.entityOf_intrinsic hi hn] at hfind
    constructor
    · intro hl
      cases hl with
      | call hc _ => cases hfind.symm.trans hc
      | intrinsic hc ht => cases hfind.symm.trans hc; exact ⟨hk, ht⟩
    · exact fun ht => .intrinsic hfind ht.2
  | none =>
    rw [Defs.entityOf_callable hi hn] at hfind
    constructor
    · intro hl
      cases hl with
      | call hc hp =>
        obtain ⟨hparams, hresult⟩ := Entity.routine.inj (Option.some.inj (hfind.symm.trans hc))
        refine ⟨fun hk => ?_, hparams ▸ hp⟩
        rw [if_pos hk] at hresult
        cases hresult
      | intrinsic hc _ => cases hfind.symm.trans hc
    · rintro ⟨hk, hp⟩
      rw [if_neg hk] at hfind
      exact .call hfind hp

theorem resolveCallable_judged (h : Located outer base f s) (callee : Ident)
    (result : Option ValueType) (args : List Expr) :
    Sat (resolveCallable callee) s fun r s' =>
      match r with
      | none => Verdict base s s' (Legal s.context result (.call callee args))
      | some (g, kind) => s' = s ∧ s.scopes.find? callee.text = some g ∧
          s.defs.kindOf? g = some kind := by
  have hcallable : Legal s.context result (.call callee args) →
      ∃ g, s.scopes.find? callee.text = some g ∧ s.defs.kindOf? g ≠ none := by
    intro hl
    have hentity : ∃ e, s.context.find? callee.text = some e ∧ ∀ t, e ≠ .variable t := by
      cases hl with
      | call hc _ => exact ⟨_, hc, nofun⟩
      | intrinsic hc _ => exact ⟨_, hc, nofun⟩
    obtain ⟨e, he, hne⟩ := hentity
    rw [Progress.find?_context h.layered] at he
    obtain ⟨g, hg, rfl⟩ := Option.map_eq_some_iff.mp he
    refine ⟨g, hg, fun hk => hne _ (Defs.entityOf_variable ?_)⟩
    exact Option.map_eq_none_iff.mp hk
  unfold resolveCallable
  refine Sat.scopes ?_
  cases hf : s.scopes.find? callee.text with
  | none =>
    refine (report_spec h.standing _ _).bind fun _ _ hr => Sat.ret (.reported hr.2 fun hl => ?_)
    obtain ⟨g, hg, _⟩ := hcallable hl
    cases hf.symm.trans hg
  | some g =>
    refine Sat.defs ?_
    cases hk : s.defs.kindOf? g with
    | some kind => exact ⟨rfl, rfl, hk⟩
    | none =>
      refine (report_spec h.standing _ _).bind fun _ _ hr => Sat.ret (.reported hr.2 fun hl => ?_)
      obtain ⟨g', hg, hne⟩ := hcallable hl
      cases hf.symm.trans hg
      exact hne hk

theorem annotateCall_judged (h : Located outer base f s) (result : Option ValueType)
    (callee : Ident) (args : List Expr) :
    Sat (annotateCall f callee args) s fun _ s' =>
      Verdict base s s' (Legal s.context result (.call callee args)) := by
  refine (resolveCallable_judged h callee result args).bind fun r s₁ hx => ?_
  match r with
  | none => exact hx
  | some (g, kind) =>
    obtain ⟨rfl, hf, hk⟩ := hx
    obtain ⟨info, hi, rfl⟩ := Option.map_eq_some_iff.mp hk
    refine ((annotateExprs_spec args h.standing).and (annotateExprs_judged args h)).bind
      fun as s₂ hx => ?_
    obtain ⟨⟨w₂, has⟩, jas⟩ := hx
    have h₂ := h.walked w₂
    obtain ⟨info₂, hi₂, hh₂⟩ := w₂.grows.callable hi
    have hg : g ∈ s₂.visible := w₂.visible.symm ▸ mem_visible_of_find? hf
    refine ((checkCall_spec h₂.standing hg (by rw [hi₂]; rfl) callee
      (by rw [w₂.visible]; exact has)).and (checkCall_judged h₂ hg hi₂ callee
        (by rw [w₂.visible]; exact has) jas.sound)).bind fun _ s₃ hx => ?_
    obtain ⟨⟨w₃, _, _⟩, hsound, hcomplete⟩ := hx
    have hasks : info₂.Asks s₁.context s₂.defs args ↔ info.Asks s₁.context s₁.defs args :=
      CallableInfo.asks_grow w₂.grows h.standing.listsParams hi hh₂
    have hlegal : Legal s₁.context result (.call callee args) ↔
        info.kind ≠ .function ∧ info.Asks s₁.context s₁.defs args := h.call_iff hf hi
    split
    · next hfun =>
      refine (report_spec w₃.standing _ _).bind fun _ _ hr => Sat.ret (.reported hr.2 fun hl => ?_)
      exact (hlegal.mp hl).1 hfun
    · next hproc =>
      refine Sat.ret ⟨fun hq => ?_, fun hq => ?_⟩
      · exact ⟨w₂.quiet (w₃.quiet hq), hlegal.mpr ⟨hproc, hasks.mp (hsound hq)⟩⟩
      · obtain ⟨hq, hl⟩ := hq
        have hask := (hlegal.mp hl).2
        exact hcomplete (jas.complete hq hask.hasType) (hasks.mpr hask)

/-! ## Returns -/

/-- The callable `f` around the walk has this result. -/
structure Returning (base : Nat) (f : DefId) (s : Progress) (result : Option ValueType) : Prop where
  type : s.Quiet base → s.defs.typeOf f = result.getD .void
  solid : ∀ t, result = some t → t.isVoid = false

namespace Returning

variable {result : Option ValueType}

theorem later (h : Returning base f s result) (hs : Standing outer base f s)
    (hg : s.defs.Grows s'.defs) (he : s.events <:+ s'.events) : Returning base f s' result := by
  refine ⟨fun hq => ?_, h.solid⟩
  have hf := Defs.lt_size_of_callable? hs.here
  exact (Defs.typeOf_congr (hg.signature f hf)).trans
    (h.type (Nat.le_trans (reportCount_mono he) hq))

theorem isVoid_iff (h : Returning base f s result) (hq : s.Quiet base) :
    (s.defs.typeOf f).isVoid = true ↔ result = none := by
  rw [h.type hq]
  cases result with
  | none => exact ⟨fun _ => rfl, fun _ => rfl⟩
  | some t =>
    have ht := h.solid t rfl
    exact ⟨fun hv => absurd (ht.symm.trans hv) (by decide), nofun⟩

end Returning

theorem annotateReturn_judged (h : Located outer base f s) {result : Option ValueType}
    (hr : Returning base f s result) (value : Option Expr) (pos : Position) :
    Sat (annotateReturn f value pos) s fun _ s' =>
      Verdict base s s' (Legal s.context result (.ret value pos)) := by
  cases value with
  | none =>
    refine Sat.bind (P := fun v s' => v = none ∧ s' = s) ⟨rfl, rfl⟩ fun v s' hx => ?_
    obtain ⟨rfl, rfl⟩ := hx
    refine Sat.defs ?_
    unfold checkReturn
    dsimp only
    split
    · next hv =>
      refine Sat.ret (.of_quiet (List.suffix_refl _) fun hq => .silent rfl ?_)
      rw [(hr.isVoid_iff hq).mp hv]
      exact .ret
    · next hv =>
      refine (report_spec h.standing _ _).bind fun _ _ hx =>
        Sat.ret (.of_quiet hx.1.events fun hq => .reported hx.2 fun hl => hv ?_)
      refine (hr.isVoid_iff hq).mpr ?_
      cases hl
      rfl
  | some e =>
    refine Sat.bind (P := fun v s' => ∃ t, v = some t ∧ (Walked outer base f s s' ∧
      Fine outer base f s.visible s' t) ∧ Judged base s s' e t) ?_ fun v s₁ hx => ?_
    · refine ((annotateExpr_spec e h.standing).and (annotateExpr_judged e h)).bind
        fun t s₁ hx => Sat.ret ⟨t, rfl, hx⟩
    obtain ⟨t, rfl, ⟨w₁, ht⟩, jt⟩ := hx
    have hr₁ := hr.later h.standing w₁.grows w₁.events
    have h₁ := h.walked w₁
    refine Sat.defs ?_
    unfold checkReturn
    dsimp only
    split
    · next hv =>
      refine (report_spec h₁.standing _ _).bind fun _ _ hx => Sat.ret ⟨fun hq => absurd hq hx.2, ?_⟩
      rintro ⟨hq, hl⟩
      cases hl with
      | retValue hty _ =>
        exact absurd ((hr₁.isVoid_iff (jt.complete hq _ hty)).mp hv) nofun
    next hv =>
    split
    · next hbad =>
      refine (report_spec h₁.standing _ _).bind fun _ _ hx => Sat.ret ⟨fun hq => absurd hq hx.2, ?_⟩
      rintro ⟨hq, hl⟩
      cases hl with
      | retValue hty ha =>
        have hq₁ := jt.complete hq _ hty
        have hnot := (ht.typed hq₁ h₁.solid).not_void
        rw [hr₁.type hq₁] at hbad
        have hok := (assigns_iff (jt.type_eq hq hty ▸ hnot)).mpr ha
        rw [← jt.type_eq hq hty] at hok
        simp [hok] at hbad
    next hgood =>
    refine Sat.ret ⟨fun hq => ⟨w₁.quiet hq, ?_⟩, ?_⟩
    · have hnot := (ht.typed hq h₁.solid).not_void
      have ha : assignable (s₁.defs.typeOf f) t.type = true := by
        simpa [TypedExpr.isVoid, hnot] using hgood
      rw [hr₁.type hq] at ha
      cases result with
      | none => exact absurd ((hr₁.isVoid_iff hq).mpr rfl) hv
      | some u => exact .retValue (jt.sound hq) ((assigns_iff hnot).mp ha)
    · rintro ⟨hq, hl⟩
      cases hl with
      | retValue hty _ => exact jt.complete hq _ hty

/-! ## The walk -/

/-- The walk goes on after a statement. -/
theorem Located.gave {named : Prop} {cs : List CallSite} {ts : List TypedStmt}
    (h : Located outer base f s) (hg : Gave outer base f named cs s s' ts) (hn : named)
    (hl : s'.Labelled) :
    ∃ outer' new, Stepped outer outer' base f new s s' ∧ Located outer' base f s' := by
  obtain ⟨outer', new, hs, ht⟩ := hg.tidy h.tidy hn hl
  exact ⟨outer', new, hs, ht, h.layered.above hs.scopes⟩

mutual

theorem annotateStmt_accepted (st : Stmt) (hn : st.Named)
    (outer : DefId → List DefId) (f : DefId) (result : Option ValueType) :
    ∀ {s : Progress}, Located outer base f s → Returning base f s result →
    Sat (annotateStmt f st) s fun _ s' =>
      Conforms base s s' (st.Accepted s.context result) st.declared := by
  intro s h hr
  cases st with
  | declare names type pos =>
    exact (annotateDeclaration_judged h result names hn pos).bind fun _ _ hc => Sat.ret hc
  | callable heading start body =>
    refine (((declareCallable_spec h.standing heading).and
      (declareCallable_reads h.tidy heading)).and (declareCallable_judged h heading)).bind
        fun r s₁ hx => ?_
    obtain ⟨⟨hnew, hl₁, hread⟩, hv₁, hlayers⟩ := hx
    cases r with
    | none =>
      refine ⟨⟨fun hq => absurd hq hread, fun hq => ?_⟩, fun hq => absurd hq hread⟩
      exact hv₁.mpr ⟨hq.1, hq.2.1.1⟩
    | some g =>
      obtain ⟨outer', hnew⟩ := hnew
      have hs₁ : s₁.scopes.Layered := h.layered.above hnew.stepped.scopes
      have hlayers := hlayers g rfl
      have hat : AtHeading s heading.name.text g [] { s₁ with scopes := s₁.scopes.enter } := by
        obtain ⟨scope, hl⟩ := hlayers
        refine ⟨⟨scope, ?_⟩, nofun⟩
        show s₁.scopes.enter.layers = _
        rw [hs₁.layers_enter, hl]
      have htaken₁ : Taken heading [] g [] { s₁ with scopes := s₁.scopes.enter } := ⟨rfl, hread⟩
      have hsolid := hnew.solid hn.1 h.solid
      refine Sat.modify ?_
      refine (((declareParams_spec heading.params hnew.enter).and
        (declareParams_reads heading.params hn.1.params hnew.enter hsolid hl₁ hread)).and
          (declareParams_judged h.standing hs₁ heading heading.params hn.1.params hnew.enter hsolid
            hl₁ hat fun _ => htaken₁)).bind fun _ s₂ hx => ?_
      obtain ⟨⟨⟨hin, _, hsolid₂⟩, hl₂, he₂, _⟩, own, hat₂, hv₂, htaken⟩ := hx
      rw [List.nil_append] at htaken
      have h₂ : Located outer' base g s₂ :=
        ⟨⟨hin.standing, hsolid₂ hn.1.params hsolid, hl₂⟩, hin.layered hs₁⟩
      have hreturning : Returning base g s₂ (heading.result.map TypeExpr.type) := by
        refine ⟨fun hq => ?_, ?_⟩
        · exact Defs.typeOf_of_headingOf h₂.solid hin.standing.here (htaken hq).heading
        · intro t ht
          obtain ⟨u, hu, rfl⟩ := Option.map_eq_some_iff.mp ht
          exact hn.1.result u hu
      refine Sat.modify ?_
      refine ((annotateStmts_spec body outer' g h₂.enter.standing).and
        (annotateStmts_accepted body hn.2 outer' g (heading.result.map TypeExpr.type) h₂.enter
          ⟨hreturning.type, hreturning.solid⟩)).bind fun ts s₃ hx => ?_
      obtain ⟨⟨outer'', hbody, _, _⟩, hv₃⟩ := hx
      refine Sat.modify (Sat.modify (Sat.ret ?_))
      have hst := hbody.stepped
      have hbody₃ : s₂.Quiet base → Verdict base s₂ s₃ (Stmt.AcceptedIn body
          ([] :: heading.inside s.context) (heading.result.map TypeExpr.type)) := fun hq => by
        rw [Progress.context_enter h₂.layered, (htaken hq).context hat₂ h.standing hin] at hv₃
        exact hv₃
      refine ⟨(hv₁.trans he₂ fun _ => hv₂).trans hst.events hbody₃, fun hq => ?_⟩
      have hq₂ : s₂.Quiet base := hst.quiet hq
      obtain ⟨new, hparams⟩ := hin.scopes
      have hleave : s₁.scopes.Above s₃.scopes.leave.leave [] :=
        (hparams.trans hst.scopes.leave).leave
      have hsame : s₃.defs.entityOf g = s₂.defs.entityOf g :=
        hst.grows.entityOf_eq hin.standing.listsParams (Defs.lt_size_of_callable? hin.standing.here)
      have hleft : Progress.context { s₃ with scopes := s₃.scopes.leave.leave } =
          s.context.declare [(heading.name.text, s₃.defs.entityOf g)] :=
        AtHeading.context_left h.standing (hin.grows.trans hst.grows)
          (hleave.layers_eq.symm ▸ hlayers)
      rw [hleft, hsame, (htaken hq₂).entity hin]
      rfl
  | assign target value =>
    refine ((annotateAssign_spec h.standing target value).and
      (annotateAssign_judged h result target value)).mono fun _ _ hx => ?_
    obtain ⟨hp, hv⟩ := hx
    exact .walked hv h.standing hp.walked
  | ifThen cond yes pos =>
    refine ((annotateCond_spec h.standing .ifTest cond).and
      (annotateCond_judged h .ifTest cond)).bind fun c s₁ hx => ?_
    obtain ⟨⟨w₁, _⟩, hv⟩ := hx
    have h₁ := h.walked w₁
    have hc₁ := Conforms.walked hv h.standing w₁
    refine ((annotateStmt_spec yes outer f h₁.standing).and
      (annotateStmt_accepted yes hn outer f result h₁
        (hr.later h.standing w₁.grows w₁.events))).bind fun y s₂ hx => ?_
    obtain ⟨⟨_, hy, _⟩, hc₂⟩ := hx
    rw [w₁.context h.standing] at hc₂
    have hc := hc₁.trans hy.stepped.events hc₂
    rw [List.append_nil] at hc
    exact Sat.ret hc
  | ifElse cond yes no pos =>
    refine ((annotateCond_spec h.standing .ifTest cond).and
      (annotateCond_judged h .ifTest cond)).bind fun c s₁ hx => ?_
    obtain ⟨⟨w₁, _⟩, hv⟩ := hx
    have h₁ := h.walked w₁
    have hr₁ := hr.later h.standing w₁.grows w₁.events
    have hc₁ := Conforms.walked hv h.standing w₁
    refine (((annotateStmt_spec yes outer f h₁.standing).and
      (annotateStmt_reads yes hn.1 outer f h₁.tidy)).and
        (annotateStmt_accepted yes hn.1 outer f result h₁ hr₁)).bind fun y s₂ hx => ?_
    obtain ⟨⟨hg₂, hl₂, _⟩, hc₂⟩ := hx
    obtain ⟨outer₂, new₂, st₂, h₂⟩ := h₁.gave hg₂ hn.1 hl₂
    refine ((annotateStmt_spec no outer₂ f h₂.standing).and
      (annotateStmt_accepted no hn.2 outer₂ f result h₂
        (hr₁.later h₁.standing st₂.grows st₂.events))).bind fun n s₃ hx => ?_
    obtain ⟨⟨_, hno, _⟩, hc₃⟩ := hx
    rw [w₁.context h.standing] at hc₂
    have hc₁₂ := hc₁.trans st₂.events hc₂
    rw [List.append_nil] at hc₁₂
    refine Sat.ret ⟨?_, fun hq => ?_⟩
    · exact hc₁₂.verdict.trans hno.stepped.events fun hq₂ => hc₁₂.context hq₂ ▸ hc₃.verdict
    · rw [hc₃.context hq, hc₁₂.context (hno.stepped.quiet hq), Context.declare_declare]
      rfl
  | whileDo cond body pos =>
    refine ((annotateCond_spec h.standing .whileCondition cond).and
      (annotateCond_judged h .whileCondition cond)).bind fun c s₁ hx => ?_
    obtain ⟨⟨w₁, _⟩, hv⟩ := hx
    have h₁ := h.walked w₁
    have hc₁ := Conforms.walked hv h.standing w₁
    refine ((annotateStmt_spec body outer f h₁.standing).and
      (annotateStmt_accepted body hn outer f result h₁
        (hr.later h.standing w₁.grows w₁.events))).bind fun y s₂ hx => ?_
    obtain ⟨⟨_, hb, _⟩, hc₂⟩ := hx
    rw [w₁.context h.standing] at hc₂
    have hc := hc₁.trans hb.stepped.events hc₂
    rw [List.append_nil] at hc
    exact Sat.ret hc
  | call callee args =>
    refine ((annotateCall_spec h.standing callee args).and
      (annotateCall_judged h result callee args)).mono fun _ _ hx => ?_
    obtain ⟨hp, hv⟩ := hx
    exact .walked hv h.standing hp.walked
  | ret value pos =>
    refine ((annotateReturn_spec h.standing value pos).and
      (annotateReturn_judged h hr value pos)).mono fun _ _ hx => ?_
    obtain ⟨hp, hv⟩ := hx
    exact .walked hv h.standing hp.walked
  | assert cond pos =>
    refine ((annotateCond_spec h.standing .assertion cond).and
      (annotateCond_judged h .assertion cond)).bind fun c s₁ hx => ?_
    obtain ⟨⟨w₁, _⟩, hv⟩ := hx
    refine Sat.ret (Conforms.walked (hv.iff ⟨.assert, fun hl => ?_⟩) h.standing w₁)
    cases hl with
    | assert hcond => exact hcond
  | block start body =>
    refine Sat.modify ?_
    refine ((annotateStmts_spec body outer f h.enter.standing).and
      (annotateStmts_accepted body hn outer f result h.enter ⟨hr.type, hr.solid⟩)).bind
        fun ts s₁ hx => ?_
    obtain ⟨⟨_, hb, _⟩, hv⟩ := hx
    rw [Progress.context_enter h.layered] at hv
    refine Sat.modify (Sat.ret ⟨hv, fun _ => ?_⟩)
    rw [context_leave h.standing hb.stepped.grows hb.stepped.scopes.leave]
    exact (Context.declare_nil s.context_ne_nil).symm

theorem annotateStmts_accepted (sts : List Stmt) (hn : Stmt.NamedIn sts)
    (outer : DefId → List DefId) (f : DefId) (result : Option ValueType) :
    ∀ {s : Progress}, Located outer base f s → Returning base f s result →
    Sat (annotateStmts f sts) s fun _ s' =>
      Verdict base s s' (Stmt.AcceptedIn sts s.context result) := by
  intro s h hr
  cases sts with
  | nil => exact .silent rfl trivial
  | cons st sts =>
    refine (((annotateStmt_spec st outer f h.standing).and
      (annotateStmt_reads st hn.1 outer f h.tidy)).and
        (annotateStmt_accepted st hn.1 outer f result h hr)).bind fun r s₁ hx => ?_
    obtain ⟨⟨hg₁, hl₁, _⟩, hc₁⟩ := hx
    obtain ⟨outer₁, new₁, st₁, h₁⟩ := h.gave hg₁ hn.1 hl₁
    refine ((annotateStmts_spec sts outer₁ f h₁.standing).and
      (annotateStmts_accepted sts hn.2 outer₁ f result h₁
        (hr.later h.standing st₁.grows st₁.events))).bind fun ts s₂ hx => ?_
    obtain ⟨⟨_, hrest, _⟩, hv₂⟩ := hx
    exact Sat.ret (hc₁.verdict.trans hrest.stepped.events fun hq => hc₁.context hq ▸ hv₂)

end

/-- About settled statements the walk reports nothing exactly if they are legal. -/
theorem annotateStmts_judged (sts : List Stmt) (hn : Stmt.NamedIn sts) (ha : Stmt.SettledIn sts)
    (outer : DefId → List DefId) (f : DefId) (result : Option ValueType)
    (h : Located outer base f s) (hr : Returning base f s result) :
    Sat (annotateStmts f sts) s fun _ s' => Verdict base s s' (LegalIn s.context result sts) :=
  (annotateStmts_accepted sts hn outer f result h hr).mono fun _ _ hv =>
    hv.iff (Stmt.acceptedIn_iff_legalIn sts ha _ _)

end StackPascal
