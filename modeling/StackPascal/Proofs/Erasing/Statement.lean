import StackPascal.Proofs.Erasing.Expression

/-!
What the walk gives for statements is what was written.

* `ReadsAs`: unless something has been reported, there is a statement, and it
  erases to what was written;
* `declareParams_reads`: the heading of a callable can be read off the
  definitions;
* `annotateStmts_reads`: the walk over statements drops none of them.
-/

namespace StackPascal

open Analyze

variable {outer outer' : DefId → List DefId} {base : Nat} {f g : DefId} {s s' s'' : Progress}

/-! ## Declarations -/

theorem annotateSize_reads (h : Tidy outer base f s) (size : Expr) :
    Sat (annotateSize f size) s fun e s' => Reads base s' e size.bare := by
  refine ((annotateExpr_spec size h.standing).and (annotateExpr_reads size h)).bind
    fun e s₁ hx => ?_
  obtain ⟨⟨w₁, _⟩, re⟩ := hx
  refine (reportIf_spec w₁.standing _ _ _).bind fun _ s₂ hx => ?_
  obtain ⟨w₂, _⟩ := hx
  exact Sat.ret (re.later w₂)

/-- A declaration keeps the size that was written. -/
theorem declaredSize_reads (h : Tidy outer base f s) (names : List Ident) (type : TypeExpr) :
    Sat (declaredSize f names type) s fun size s' =>
      (type.type.isArray = false → size = none) ∧ (s'.Quiet base → ∀ es, s'.defs.Grows es →
        type.type.written (size.map (TypedExpr.erase es)) = type.bare) := by
  cases type with
  | scalar b pos => exact ⟨fun _ => rfl, fun _ _ _ => rfl⟩
  | array b size pos =>
    cases size with
    | some size =>
      refine (annotateSize_reads h size).bind fun e s₁ re => Sat.ret ⟨nofun, fun hq es hes => ?_⟩
      show TypeExpr.array b (some (e.erase es)) .nowhere = .array b (some size.bare) .nowhere
      rw [re hq es hes]
    | none =>
      exact (report_spec h.standing pos _).bind fun _ _ hr =>
        Sat.ret ⟨fun _ => rfl, fun hq => absurd hq hr.2⟩

theorem Progress.Labelled.identOf_declared {name : Ident} {type : ValueType} {kind : DefKind}
    (h : (s.declared name type kind).Labelled) {es : Defs}
    (he : (s.declared name type kind).defs.Grows es) :
    es.identOf s.defs.nextId = name.bare := by
  have hlt : s.defs.nextId.number < (s.declared name type kind).defs.size := by
    show s.defs.size < (s.defs.push _).size
    rw [Defs.size_push]
    exact Nat.lt_succ_self _
  have hname : (s.declared name type kind).defs.nameOf s.defs.nextId = name.text :=
    h _ (List.mem_cons_self ..)
  rw [Defs.identOf_congr (he.signature _ hlt), Defs.identOf, hname]
  rfl

/-- A variable that could be declared has the name that was written. -/
theorem declareVariable_reads (h : Tidy outer base f s) (name : Ident) (type : ValueType) :
    Sat (declareVariable f name type) s fun r s' => s'.Labelled ∧ (s'.Quiet base →
      ∃ id, r = some id ∧ ∀ es, s'.defs.Grows es → es.identOf id = name.bare) := by
  have hnew : ∀ kind, (s.declared name type kind).Labelled :=
    h.labelled.declared h.standing name type
  unfold declareVariable
  refine Sat.scopes ?_
  split
  · refine (declare_spec h.standing name type .global).mono fun r s' hr => ?_
    cases r with
    | none => exact ⟨h.labelled.walked h.standing hr.1, fun hq => absurd hq hr.2⟩
    | some id =>
      obtain ⟨rfl, rfl⟩ := hr
      exact ⟨hnew .global, fun _ => ⟨_, rfl, fun es hes => (hnew .global).identOf_declared hes⟩⟩
  · refine (declare_spec h.standing name type (.owned f)).bind fun r s' hr => ?_
    cases r with
    | none => exact ⟨h.labelled.walked h.standing hr.1, fun hq => absurd hq hr.2⟩
    | some id =>
      obtain ⟨rfl, rfl⟩ := hr
      have hvar := h.standing.newVariable name type (.inl (Eq.refl (DefKind.owned f)))
      have hlocal := hvar.stepped.standing.addLocal f s.defs.nextId
      refine ⟨(hnew (.owned f)).walked hvar.stepped.standing hlocal, fun _ => ⟨_, rfl, ?_⟩⟩
      exact fun es hes => (hnew (.owned f)).identOf_declared (hlocal.grows.trans hes)

theorem declareVariables_reads (type : ValueType) (hv : type.isVoid = false) (names : List Ident) :
    ∀ {s : Progress}, Tidy outer base f s →
    Sat (declareVariables f type names) s fun ids s' => s'.Labelled ∧ (s'.Quiet base →
      ∀ es, s'.defs.Grows es → ids.map es.identOf = names.map Ident.bare) := by
  induction names with
  | nil => exact fun h => ⟨h.labelled, fun _ _ _ => rfl⟩
  | cons name names ih =>
    intro s h
    refine ((declareVariable_spec h.standing name type).and
      (declareVariable_reads h name type)).bind fun r s₁ hx => ?_
    obtain ⟨hn, hl, hr⟩ := hx
    have h₁ : Tidy outer base f s₁ := ⟨hn.stepped.standing, hn.solid hv h.solid, hl⟩
    refine ((declareVariables_spec type names h₁.standing).and (ih h₁)).bind fun ids s₂ hx => ?_
    obtain ⟨hns, hls, hrs⟩ := hx
    refine Sat.ret ⟨hls, fun hq es hes => ?_⟩
    obtain ⟨id, rfl, hid⟩ := hr (hns.stepped.quiet hq)
    show es.identOf id :: ids.map es.identOf = name.bare :: names.map Ident.bare
    rw [hid es (hns.stepped.grows.trans hes), hrs hq es hes]

/-- Unless something has been reported, there is a statement, and `x` is what it
erases to, now and later. -/
def ReadsAs (base : Nat) (s : Progress) (r : Option TypedStmt) (x : Stmt) : Prop :=
  s.Quiet base → ∃ t, r = some t ∧ t.Sized ∧ ∀ es, s.defs.Grows es → t.erase es = x

theorem ReadsAs.reported {x : Stmt} {r : Option TypedStmt} (h : ¬ s.Quiet base) :
    ReadsAs base s r x :=
  fun hq => absurd hq h

theorem annotateDeclaration_reads (h : Tidy outer base f s) (names : List Ident) {type : TypeExpr}
    (hn : type.Named) (pos : Position) :
    Sat (annotateDeclaration f names type pos) s fun t s' =>
      s'.Labelled ∧ ReadsAs base s' (some t) (.declare (names.map Ident.bare) type.bare .nowhere) := by
  refine ((declaredSize_spec h.standing names type).and (declaredSize_reads h names type)).bind
    fun size s₁ hx => ?_
  obtain ⟨⟨w₁, _⟩, hnone, hsize⟩ := hx
  have h₁ := h.walked w₁
  refine ((declareVariables_spec type.type names h₁.standing).and
    (declareVariables_reads type.type hn names h₁)).bind fun ids s₂ hx => ?_
  obtain ⟨hv, hl, hids⟩ := hx
  refine Sat.ret ?_
  refine ⟨hl, fun hq => ⟨_, rfl, hnone, fun es hes => ?_⟩⟩
  rw [TypedStmt.erase, hids hq es hes,
    hsize (hv.stepped.quiet hq) es (hv.stepped.grows.trans hes)]

/-! ## Headings -/

/-- A callable that has just been declared has the heading that was written, but
no parameters. -/
theorem headingOf_declared (s : Progress) (heading : Heading) :
    (s.declared heading.name ((heading.result.map TypeExpr.type).getD .void)
        (.callable (.new (headingKind heading) (some f)))).defs.headingOf s.defs.nextId =
      { heading.bare with params := [] } := by
  let d := s.newDef heading.name ((heading.result.map TypeExpr.type).getD .void)
    (.callable (.new (headingKind heading) (some f)))
  have hget : (s.defs.push d).get? s.defs.nextId = some d := by rw [Defs.get?_push, if_pos rfl]
  have hcall : (s.defs.push d).callable? s.defs.nextId =
      some (.new (headingKind heading) (some f)) := by
    rw [Defs.callable?_eq, hget]
    rfl
  have hname : (s.defs.push d).nameOf s.defs.nextId = heading.name.text := by
    unfold Defs.nameOf
    rw [hget]
    rfl
  have htype : (s.defs.push d).typeOf s.defs.nextId =
      (heading.result.map TypeExpr.type).getD .void := by
    unfold Defs.typeOf
    rw [hget]
    rfl
  show (s.defs.push d).headingOf s.defs.nextId = _
  unfold Defs.headingOf Defs.resultOf Defs.kindOf? Defs.identOf
  rw [Defs.paramsOf_eq hcall, hcall, hname, htype]
  unfold headingKind Heading.bare
  cases heading.result with
  | some type => simp [CallableInfo.new, TypeExpr.written_type, Ident.bare]
  | none => simp [CallableInfo.new, Ident.bare]

theorem declareCallable_reads (h : Tidy outer base f s) (heading : Heading) :
    Sat (declareCallable f heading) s fun r s' => s'.Labelled ∧
      match r with
      | none => ¬ s'.Quiet base
      | some g => s'.defs.headingOf g = { heading.bare with params := [] } := by
  unfold declareCallable
  refine Sat.scopes ?_
  split
  · refine (report_spec h.standing _ _).bind fun _ s₁ hr => Sat.ret ⟨?_, hr.2⟩
    exact h.labelled.walked h.standing hr.1
  · refine (resultType_spec h.standing heading).bind fun type s₁ hx => ?_
    obtain ⟨hw, ht⟩ := hx
    subst ht
    have h₁ := h.walked hw
    refine (declare_spec h₁.standing heading.name _ _).bind fun r s₂ hr => ?_
    cases r with
    | none => exact ⟨h₁.labelled.walked h₁.standing hr.1, hr.2⟩
    | some id =>
      obtain ⟨rfl, rfl⟩ := hr
      exact ⟨h₁.labelled.declared h₁.standing heading.name _ _, headingOf_declared s₁ heading⟩

theorem paramOf_declared (t : Progress) (p : Param) :
    (t.declared p.name p.type.type (.param g p.byRef)).defs.paramOf t.defs.nextId = p.bare := by
  have hget : (t.declared p.name p.type.type (.param g p.byRef)).defs.get? t.defs.nextId =
      some (t.newDef p.name p.type.type (.param g p.byRef)) := by
    show (t.defs.push _).get? _ = _
    rw [Defs.get?_push, if_pos rfl]
  unfold Defs.paramOf Defs.identOf Defs.nameOf Defs.typeOf Defs.isByRef
  rw [hget]
  show (⟨p.name.bare, p.type.type.written none, p.byRef⟩ : Param) = p.bare
  rw [TypeExpr.written_type]
  rfl

section Parameters

variable {s₁ t : Progress} {h : Heading}

theorem declareParam_reads (hin : InHeading outer base g s s₁ t) (hs : t.defs.Solid)
    (hl : t.Labelled) (hh : t.defs.headingOf g = h) (p : Param) :
    Sat (declareParam g p) t fun _ t' => t'.Labelled ∧ t.events <:+ t'.events ∧ (t'.Quiet base →
      t'.defs.headingOf g = { h with params := h.params ++ [p.bare] }) := by
  have ht : Tidy outer base g t := ⟨hin.standing, hs, hl⟩
  refine (signatureType_spec hin.standing p.type).bind fun type t₁ hx => ?_
  obtain ⟨hw, htype⟩ := hx
  subst htype
  have h₁ := ht.walked hw
  have hh₁ : t₁.defs.headingOf g = h :=
    (hw.grows.headingOf_eq hin.standing.listsParams hin.standing.here).trans hh
  refine (declare_spec h₁.standing p.name p.type.type (.param g p.byRef)).bind fun r t₂ hr => ?_
  cases r with
  | none =>
    exact ⟨h₁.labelled.walked h₁.standing hr.1, hw.events.trans hr.1.events,
      fun hq => absurd hq hr.2⟩
  | some id =>
    obtain ⟨rfl, rfl⟩ := hr
    let d := t₁.declared p.name p.type.type (.param g p.byRef)
    have hl₂ : d.Labelled := h₁.labelled.declared h₁.standing _ _ _
    have hpush : t₁.defs.Grows d.defs := .push _ _ nofun
    have hcall : (d.defs.callable? g).isSome :=
      (hpush.keeps.callable g (Defs.lt_size_of_callable? h₁.standing.here)).trans h₁.standing.here
    refine ⟨hl₂.updated (Defs.nameOf_addParam d.defs g t₁.defs.nextId),
      hw.events.trans (List.suffix_cons _ _), fun _ => ?_⟩
    show (d.defs.addParam g t₁.defs.nextId).headingOf g = _
    rw [Defs.headingOf_addParam hcall, hpush.headingOf_eq h₁.standing.listsParams h₁.standing.here,
      hh₁, paramOf_declared]

theorem declareParams_reads (ps : List Param) (hn : ∀ p ∈ ps, p.type.Named) :
    ∀ {t : Progress} {h : Heading}, InHeading outer base g s s₁ t → t.defs.Solid → t.Labelled →
    t.defs.headingOf g = h →
    Sat (declareParams g ps) t fun _ t' => t'.Labelled ∧ t.events <:+ t'.events ∧ (t'.Quiet base →
      t'.defs.headingOf g = { h with params := h.params ++ ps.map Param.bare }) := by
  induction ps with
  | nil =>
    intro t h _ _ hl hh
    refine ⟨hl, List.suffix_refl _, fun _ => ?_⟩
    show t.defs.headingOf g = _
    rw [hh, List.map_nil, List.append_nil]
  | cons p ps ih =>
    intro t h hin hs hl hh
    obtain ⟨hp, hps⟩ := List.forall_mem_cons.mp hn
    refine ((declareParam_spec hin p).and (declareParam_reads hin hs hl hh p)).bind
      fun _ t₁ hx => ?_
    obtain ⟨⟨hin₁, _, hsolid⟩, hl₁, he₁, hh₁⟩ := hx
    -- the heading is only known to be right as long as nothing is reported
    refine (ih hps hin₁ (hsolid hp hs) hl₁ rfl).mono fun _ t₂ hx => ?_
    obtain ⟨hl₂, he₂, hh₂⟩ := hx
    refine ⟨hl₂, he₁.trans he₂, fun hq => ?_⟩
    rw [hh₂ hq, hh₁ (Nat.le_trans (reportCount_mono he₂) hq), List.map_cons, List.append_assoc]
    rfl

end Parameters

/-! ## Simple statements -/

theorem annotateCond_reads (h : Tidy outer base f s) (place : Condition) (cond : Expr) :
    Sat (annotateCond f place cond) s fun e s' => Reads base s' e cond.bare := by
  refine ((annotateExpr_spec cond h.standing).and (annotateExpr_reads cond h)).bind
    fun e s₁ hx => ?_
  obtain ⟨⟨w₁, _⟩, re⟩ := hx
  refine (reportIf_spec w₁.standing _ _ _).bind fun _ s₂ hx => ?_
  obtain ⟨w₂, _⟩ := hx
  exact Sat.ret (re.later w₂)

/-- An assignment is dropped only if a report tells why. -/
theorem checkAssign_reads (h : Tidy outer base f s) (name : Ident) {t v : TypedExpr}
    {target : Target} {value : Expr} {Γ : List DefId} (ht : Fine outer base f Γ s t)
    (hv : Fine outer base f Γ s v) (rt : Reads base s t target.expr.bare)
    (rv : Reads base s v value.bare) :
    Sat (checkAssign name t v) s fun r s' => ReadsAs base s' r (.assign target.bare value.bare) := by
  unfold checkAssign
  split
  · next hvoid =>
    refine ReadsAs.reported ?_
    rcases Bool.or_eq_true_iff.mp hvoid with hvoid | hvoid
    · exact ht.of_void hvoid h.solid
    · exact hv.of_void hvoid h.solid
  split
  · exact (report_spec h.standing _ _).bind fun _ _ hr => Sat.ret (.reported hr.2)
  split
  · exact (report_spec h.standing _ _).bind fun _ _ hr => Sat.ret (.reported hr.2)
  refine Sat.ret fun hq => ?_
  obtain ⟨p, hp, _⟩ := TypedExpr.erase_place (rt hq s.defs (.refl _))
  refine ⟨.assign p v name.pos, by rw [hp]; rfl, trivial, fun es hes => ?_⟩
  obtain ⟨q, hq', he⟩ := TypedExpr.erase_place (rt hq es hes)
  cases hp.symm.trans hq'
  rw [TypedStmt.erase, he, rv hq es hes]

theorem annotateAssign_reads (h : Tidy outer base f s) (target : Target) (value : Expr) :
    Sat (annotateAssign f target value) s fun r s' =>
      ReadsAs base s' r (.assign target.bare value.bare) := by
  refine ((annotateExpr_spec target.expr h.standing).and (annotateExpr_reads target.expr h)).bind
    fun t s₁ hx => ?_
  obtain ⟨⟨w₁, ht⟩, rt⟩ := hx
  have h₁ := h.walked w₁
  refine ((annotateExpr_spec value h₁.standing).and (annotateExpr_reads value h₁)).bind
    fun v s₂ hx => ?_
  obtain ⟨⟨w₂, hv⟩, rv⟩ := hx
  rw [w₁.visible] at hv
  exact checkAssign_reads (h₁.walked w₂) target.ident (ht.later w₂) hv (rt.later w₂) rv

theorem resolveCallable_reads (h : Tidy outer base f s) (callee : Ident) :
    Sat (resolveCallable callee) s fun r s' =>
      match r with
      | none => ¬ s'.Quiet base
      | some (g, _) => ∀ es, s.defs.Grows es → es.identOf g = callee.bare := by
  unfold resolveCallable
  refine Sat.scopes ?_
  cases hf : s.scopes.find? callee.text with
  | none => exact (report_spec h.standing _ _).bind fun _ _ hr => Sat.ret hr.2
  | some id =>
    refine Sat.defs ?_
    cases hk : s.defs.kindOf? id with
    | some kind => exact Sat.ret fun es hes => h.identOf hf hes
    | none => exact (report_spec h.standing _ _).bind fun _ _ hr => Sat.ret hr.2

/-- So is a call of a function. -/
theorem annotateCall_reads (h : Tidy outer base f s) (callee : Ident) (args : List Expr) :
    Sat (annotateCall f callee args) s fun r s' =>
      ReadsAs base s' r (.call callee.bare (Expr.bareAll args)) := by
  refine ((resolveCallable_spec h.standing callee).and (resolveCallable_reads h callee)).bind
    fun r s₁ hx => ?_
  obtain ⟨⟨w₁, hg⟩, hr⟩ := hx
  match r with
  | none => exact .reported hr
  | some (g, kind) =>
    obtain ⟨hvis, hk⟩ := hg g kind rfl
    obtain ⟨info, hi, _⟩ := Option.map_eq_some_iff.mp hk
    have h₁ := h.walked w₁
    refine ((annotateExprs_spec args h₁.standing).and (annotateExprs_reads args h₁)).bind
      fun as s₂ hx => ?_
    obtain ⟨⟨w₂, has⟩, ras⟩ := hx
    have h₂ := h₁.walked w₂
    have hvis₂ : g ∈ s₂.visible := (w₂.visible.trans w₁.visible).symm ▸ hvis
    obtain ⟨info₂, hi₂, _⟩ := w₂.grows.callable hi
    refine (checkCall_spec h₂.standing hvis₂ (by rw [hi₂]; rfl) callee
      (by rw [w₂.visible]; exact has)).bind fun _ s₃ hx => ?_
    obtain ⟨w₃, _, _⟩ := hx
    split
    · exact (report_spec w₃.standing _ _).bind fun _ _ hr => Sat.ret (.reported hr.2)
    · refine Sat.ret fun hq => ⟨_, rfl, trivial, fun es hes => ?_⟩
      rw [TypedStmt.erase, hr es (((w₁.trans w₂).trans w₃).grows.trans hes),
        (ras.later w₃) hq es hes]

theorem annotateOption_reads (h : Tidy outer base f s) (value : Option Expr) :
    Sat (annotateOption f value) s fun v s' => s'.Quiet base → ∀ es, s'.defs.Grows es →
      v.map (TypedExpr.erase es) = value.map Expr.bare := by
  cases value with
  | none => exact fun _ _ _ => rfl
  | some e =>
    exact (annotateExpr_reads e h).bind fun t s₁ rt => Sat.ret fun hq es hes =>
      congrArg some (rt hq es hes)

theorem annotateReturn_reads (h : Tidy outer base f s) (value : Option Expr) (pos : Position) :
    Sat (annotateReturn f value pos) s fun r s' =>
      ReadsAs base s' r (.ret (value.map Expr.bare) .nowhere) := by
  refine ((annotateOption_spec h.standing value).and (annotateOption_reads h value)).bind
    fun v s₁ hx => ?_
  obtain ⟨⟨w₁, _⟩, rv⟩ := hx
  refine Sat.defs ?_
  have hret : ReadsAs base s₁ (some (.ret v pos)) (.ret (value.map Expr.bare) .nowhere) :=
    fun hq => ⟨_, rfl, trivial, fun es hes => by rw [TypedStmt.erase, rv hq es hes]⟩
  unfold checkReturn
  cases v with
  | some v =>
    dsimp only
    split
    · exact (report_spec w₁.standing _ _).bind fun _ _ hr => Sat.ret (.reported hr.2)
    split
    · exact (report_spec w₁.standing _ _).bind fun _ _ hr => Sat.ret (.reported hr.2)
    · exact hret
  | none =>
    dsimp only
    split
    · exact hret
    · exact (report_spec w₁.standing _ _).bind fun _ _ hr => Sat.ret (.reported hr.2)

/-! ## Statements -/

/-- Where the walk goes on after statements. -/
theorem Gave.tidy {named : Prop} {cs : List CallSite} {ts : List TypedStmt}
    (h : Tidy outer base f s) (hg : Gave outer base f named cs s s' ts) (hn : named)
    (hl : s'.Labelled) :
    ∃ outer' new, Stepped outer outer' base f new s s' ∧ Tidy outer' base f s' := by
  obtain ⟨outer', ha, hsolid, _⟩ := hg
  exact ⟨outer', _, ha.stepped, ha.stepped.standing, hsolid hn h.solid, hl⟩

mutual

theorem annotateStmt_reads (st : Stmt) (hn : st.Named) (outer : DefId → List DefId) (f : DefId) :
    ∀ {s : Progress}, Tidy outer base f s →
    Sat (annotateStmt f st) s fun r s' => s'.Labelled ∧ ReadsAs base s' r st.bare := by
  intro s h
  cases st with
  | declare names type pos =>
    exact (annotateDeclaration_reads h names hn pos).bind fun t s₁ h₁ => Sat.ret h₁
  | callable heading start body =>
    refine ((declareCallable_spec h.standing heading).and (declareCallable_reads h heading)).bind
      fun r s₁ hx => ?_
    obtain ⟨hr, hl₁, hr₁⟩ := hx
    cases r with
    | none => exact ⟨hl₁, .reported hr₁⟩
    | some g =>
      obtain ⟨outer', hnew⟩ := hr
      have hsolid := hnew.solid hn.1 h.solid
      refine Sat.modify ?_
      refine ((declareParams_spec heading.params hnew.enter).and
        (declareParams_reads heading.params hn.1.params hnew.enter hsolid hl₁ hr₁)).bind
          fun _ s₂ hx => ?_
      obtain ⟨⟨hin, _, hsolid₂⟩, hl₂, _, hh₂⟩ := hx
      have h₂ : Tidy outer' base g s₂ := ⟨hin.standing, hsolid₂ hn.1.params hsolid, hl₂⟩
      refine Sat.modify ?_
      refine ((annotateStmts_spec body outer' g h₂.enter.standing).and
        (annotateStmts_reads body hn.2 outer' g h₂.enter)).bind fun ts s₃ hx => ?_
      obtain ⟨hg, hl₃, rts⟩ := hx
      refine Sat.modify (Sat.modify (Sat.ret ⟨hl₃.leave.leave, fun hq => ?_⟩))
      obtain ⟨hsized, rts⟩ := rts hq
      refine ⟨_, rfl, hsized, fun es hes => ?_⟩
      obtain ⟨_, ha, _⟩ := hg
      have hes : s₃.defs.Grows es := hes
      have hq₂ : s₂.Quiet base := ha.stepped.quiet hq
      have hheading : es.headingOf g = heading.bare :=
        ((ha.stepped.grows.trans hes).headingOf_eq hin.standing.listsParams hin.standing.here).trans
          (hh₂ hq₂)
      rw [TypedStmt.erase, hheading, rts es hes]
      rfl
  | assign target value =>
    refine ((annotateAssign_spec h.standing target value).and
      (annotateAssign_reads h target value)).mono fun _ _ hx => ?_
    obtain ⟨hp, hr⟩ := hx
    refine ⟨?_, hr⟩
    exact h.labelled.walked h.standing hp.walked
  | ifThen cond yes pos =>
    refine ((annotateCond_spec h.standing .ifTest cond).and (annotateCond_reads h .ifTest cond)).bind
      fun c s₁ hx => ?_
    obtain ⟨⟨w₁, _⟩, rc⟩ := hx
    have h₁ := h.walked w₁
    refine ((annotateStmt_spec yes outer f h₁.standing).and
      (annotateStmt_reads yes hn outer f h₁)).bind fun y s₂ hx => ?_
    obtain ⟨hg, hl, ry⟩ := hx
    refine Sat.ret ⟨hl, fun hq => ?_⟩
    obtain ⟨_, ha, _⟩ := hg
    obtain ⟨t, rfl, hsized, ht⟩ := ry hq
    refine ⟨_, rfl, hsized, fun es hes => ?_⟩
    show Stmt.ifThen (c.erase es) (t.erase es) .nowhere = _
    rw [rc (ha.stepped.quiet hq) es (ha.stepped.grows.trans hes), ht es hes]
    rfl
  | ifElse cond yes no pos =>
    refine ((annotateCond_spec h.standing .ifTest cond).and (annotateCond_reads h .ifTest cond)).bind
      fun c s₁ hx => ?_
    obtain ⟨⟨w₁, _⟩, rc⟩ := hx
    have h₁ := h.walked w₁
    refine ((annotateStmt_spec yes outer f h₁.standing).and
      (annotateStmt_reads yes hn.1 outer f h₁)).bind fun y s₂ hx => ?_
    obtain ⟨hg₂, hl₂, ry⟩ := hx
    obtain ⟨outer₂, new₂, st₂, h₂⟩ := hg₂.tidy h₁ hn.1 hl₂
    refine ((annotateStmt_spec no outer₂ f h₂.standing).and
      (annotateStmt_reads no hn.2 outer₂ f h₂)).bind fun n s₃ hx => ?_
    obtain ⟨hg₃, hl₃, rn⟩ := hx
    refine Sat.ret ⟨hl₃, fun hq => ?_⟩
    obtain ⟨outer₃, new₃, st₃, _⟩ := hg₃.tidy h₂ hn.2 hl₃
    have hq₂ := st₃.quiet hq
    obtain ⟨t, rfl, hyes, ht⟩ := ry hq₂
    obtain ⟨u, rfl, hno, hu⟩ := rn hq
    refine ⟨_, rfl, ⟨hyes, hno⟩, fun es hes => ?_⟩
    have hes₂ := st₃.grows.trans hes
    show Stmt.ifElse (c.erase es) (t.erase es) (u.erase es) .nowhere = _
    rw [rc (st₂.quiet hq₂) es (st₂.grows.trans hes₂), ht es hes₂, hu es hes]
    rfl
  | whileDo cond body pos =>
    refine ((annotateCond_spec h.standing .whileCondition cond).and
      (annotateCond_reads h .whileCondition cond)).bind fun c s₁ hx => ?_
    obtain ⟨⟨w₁, _⟩, rc⟩ := hx
    have h₁ := h.walked w₁
    refine ((annotateStmt_spec body outer f h₁.standing).and
      (annotateStmt_reads body hn outer f h₁)).bind fun b s₂ hx => ?_
    obtain ⟨hg, hl, rb⟩ := hx
    refine Sat.ret ⟨hl, fun hq => ?_⟩
    obtain ⟨_, ha, _⟩ := hg
    obtain ⟨t, rfl, hsized, ht⟩ := rb hq
    refine ⟨_, rfl, hsized, fun es hes => ?_⟩
    show Stmt.whileDo (c.erase es) (t.erase es) .nowhere = _
    rw [rc (ha.stepped.quiet hq) es (ha.stepped.grows.trans hes), ht es hes]
    rfl
  | call callee args =>
    refine ((annotateCall_spec h.standing callee args).and
      (annotateCall_reads h callee args)).mono fun _ _ hx => ?_
    obtain ⟨hp, hr⟩ := hx
    refine ⟨?_, hr⟩
    exact h.labelled.walked h.standing hp.walked
  | ret value pos =>
    refine ((annotateReturn_spec h.standing value pos).and
      (annotateReturn_reads h value pos)).mono fun _ _ hx => ?_
    obtain ⟨hp, hr⟩ := hx
    refine ⟨?_, hr⟩
    exact h.labelled.walked h.standing hp.walked
  | assert cond pos =>
    refine ((annotateCond_spec h.standing .assertion cond).and
      (annotateCond_reads h .assertion cond)).bind fun c s₁ hx => ?_
    obtain ⟨⟨w₁, _⟩, rc⟩ := hx
    refine Sat.ret ⟨?_, fun hq => ?_⟩
    · exact h.labelled.walked h.standing w₁
    · exact ⟨_, rfl, trivial, fun es hes => by rw [TypedStmt.erase, rc hq es hes, Stmt.bare]⟩
  | block start body =>
    refine Sat.modify ?_
    refine (annotateStmts_reads body hn outer f h.enter).bind fun ts s₁ hx => ?_
    obtain ⟨hl, rts⟩ := hx
    refine Sat.modify (Sat.ret ⟨hl.leave, fun hq => ?_⟩)
    obtain ⟨hsized, rts⟩ := rts hq
    exact ⟨_, rfl, hsized, fun es hes => by rw [TypedStmt.erase, rts es hes, Stmt.bare]⟩

theorem annotateStmts_reads (sts : List Stmt) (hn : Stmt.NamedIn sts) (outer : DefId → List DefId)
    (f : DefId) : ∀ {s : Progress}, Tidy outer base f s →
    Sat (annotateStmts f sts) s fun ts s' => s'.Labelled ∧ (s'.Quiet base → TypedStmt.SizedIn ts ∧
      ∀ es, s'.defs.Grows es → TypedStmt.eraseIn es ts = Stmt.bareIn sts) := by
  intro s h
  cases sts with
  | nil => exact ⟨h.labelled, fun _ => ⟨trivial, fun _ _ => rfl⟩⟩
  | cons st sts =>
    refine ((annotateStmt_spec st outer f h.standing).and
      (annotateStmt_reads st hn.1 outer f h)).bind fun r s₁ hx => ?_
    obtain ⟨hg₁, hl₁, hr₁⟩ := hx
    obtain ⟨outer₁, new₁, st₁, h₁⟩ := hg₁.tidy h hn.1 hl₁
    refine ((annotateStmts_spec sts outer₁ f h₁.standing).and
      (annotateStmts_reads sts hn.2 outer₁ f h₁)).bind fun ts s₂ hx => ?_
    obtain ⟨hg₂, hl₂, rts⟩ := hx
    refine Sat.ret ⟨hl₂, fun hq => ?_⟩
    obtain ⟨outer₂, new₂, st₂, _⟩ := hg₂.tidy h₁ hn.2 hl₂
    obtain ⟨t, rfl, hsized, ht⟩ := hr₁ (st₂.quiet hq)
    obtain ⟨hsizedIn, rts⟩ := rts hq
    refine ⟨⟨hsized, hsizedIn⟩, fun es hes => ?_⟩
    show t.erase es :: TypedStmt.eraseIn es ts = st.bare :: Stmt.bareIn sts
    rw [ht es (st₂.grows.trans hes), rts es hes]

end

end StackPascal
