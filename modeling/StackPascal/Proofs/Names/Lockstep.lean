import StackPascal.Proofs.Names.Twins

/-!
The walks over a program and over the renamed program go in lock-step.

* `Occurrence.Right`: nothing is wrong with a name where it occurs;
* `Lockstep`: two steps that give the same, from twins to twins;
* `annotateExpr_lockstep`, `annotateStmt_lockstep`: where the names in a tree are
  right, the walks over it and over the renamed tree are such steps.
-/

namespace StackPascal

open Analyze

/-! ## Names that are right -/

/-- Nothing is wrong with the name; if it is declared, it is one of those to rename. -/
def Occurrence.Right (names : List Ident) (o : Occurrence) : Prop :=
  o.problem? = none ∧ (o.role = .declaration → o.name ∈ names)

theorem Occurrence.right_followedBy {names : List Ident} {o : Occurrence} {nested : List Occurrence}
    (h : ∀ o' ∈ o.followedBy nested, o'.Right names) :
    o.Right names ∧ ∀ o' ∈ nested, o'.Right names := by
  obtain ⟨ho, hnested⟩ := List.forall_mem_cons.mp h
  rw [ho.1] at hnested
  exact ⟨ho, hnested⟩

theorem Scopes.rename_eq (new : Ident → String) {around : Scopes} {n : Ident} {d : Declaration}
    (h : around.find? n.text = some d) : around.rename new n = ⟨new d.name, n.pos⟩ := by
  unfold rename
  rw [h]

/-! ## Steps -/

/-- Two steps give the same and leave twins. -/
structure Lockstep (new : Ident → String) (names : List Ident) {α : Type} (m n : Analyze α)
    (s t : Progress) : Prop where
  given_eq : given n t = given m s
  twins : Twins new names (after m s) (after n t)

section

variable {new : Ident → String} {names : List Ident} {s t : Progress}

namespace Lockstep

variable {α β : Type} {m n : Analyze α} {k l : α → Analyze β}

theorem pure (h : Twins new names s t) (a : α) :
    Lockstep new names (pure a : Analyze α) (pure a) s t := ⟨rfl, h⟩

theorem bind (h : Lockstep new names m n s t)
    (hk : Lockstep new names (k (given m s)) (l (given m s)) (after m s) (after n t)) :
    Lockstep new names (m >>= k) (n >>= l) s t := by
  rw [← h.given_eq] at hk
  obtain ⟨hgiven, htwins⟩ := hk
  rw [h.given_eq] at hgiven htwins
  refine ⟨?_, ?_⟩
  · rw [given_bind, given_bind, h.given_eq]
    exact hgiven
  · show Twins new names (after (k (given m s)) (after m s)) (after (l (given n t)) (after n t))
    rw [h.given_eq]
    exact htwins

theorem checks (h : Twins new names s t) (hc : Checks m n) : Lockstep new names m n s t := by
  obtain ⟨hgiven, hsimilar⟩ := hc.similar h.similar
  refine ⟨hgiven, h.update hsimilar ?_ ?_ (hc.scopes_eq s) (hc.symm.scopes_eq t)⟩
  · rw [hc.defs_eq, hc.symm.defs_eq]
    exact h.defs
  · rw [hc.defs_eq]
    exact .refl _

/-- A check after a step. -/
theorem checked (h : Lockstep new names m n s t) (hc : ∀ a, Checks (k a) (l a)) :
    Lockstep new names (m >>= k) (n >>= l) s t :=
  h.bind (.checks h.twins (hc _))

theorem map (h : Lockstep new names m n s t) (g : α → β) :
    Lockstep new names (g <$> m) (g <$> n) s t := ⟨congrArg g h.given_eq, h.twins⟩

theorem defs {k l : Defs → Analyze β} (h : Lockstep new names (k s.defs) (l t.defs) s t) :
    Lockstep new names (Analyze.defs >>= k) (Analyze.defs >>= l) s t := ⟨h.given_eq, h.twins⟩

theorem scopes {k l : ScopeTable DefId → Analyze β}
    (h : Lockstep new names (k s.scopes) (l t.scopes) s t) :
    Lockstep new names (Analyze.scopes >>= k) (Analyze.scopes >>= l) s t := ⟨h.given_eq, h.twins⟩

theorem note (h : Twins new names s t) (e e' : Event) (he : e.report? = none)
    (he' : e'.report? = none) : Lockstep new names (note e) (note e') s t := by
  refine ⟨rfl, h.update ⟨h.defs.alike, h.calls, ?_⟩ h.defs (.refl _) rfl rfl⟩
  have hcount : ∀ (u : Progress) (e : Event), e.report? = none →
      (after (Analyze.note e) u).reportCount = u.reportCount := fun u e he =>
    congrArg List.length (List.filterMap_cons_none he)
  rw [hcount s e he, hcount t e' he', h.reportCount]

theorem update (h : Twins new names s t) (f : DefId) {g : CallableInfo → CallableInfo}
    (hg : ∀ info, (g info).kind = info.kind) :
    Lockstep new names (updateDefs (·.updateCallable f g)) (updateDefs (·.updateCallable f g)) s t :=
  ⟨rfl, h.update ⟨h.defs.alike.updateCallable f g, h.calls, h.reportCount⟩
    (h.defs.updateCallable f g) (.update s.defs f hg) rfl rfl⟩

end Lockstep

/-! ## Names -/

theorem capture_lockstep (h : Twins new names s t) (f id : DefId) :
    Lockstep new names (capture f id) (capture f id) s t := by
  refine Lockstep.defs ?_
  rw [h.defs.alike.owner_eq]
  cases s.defs.owner id with
  | none => exact .pure h ()
  | some owner =>
    dsimp only
    rw [h.defs.alike.lacksCapture_eq]
    split
    · next hlacks =>
      have hlacks : s.defs.lacksCapture f id = true := (Bool.and_eq_true_iff.mp hlacks).2
      have hadd : Lockstep new names (updateDefs (·.addCapture f id)) (updateDefs (·.addCapture f id))
          s t := by
        have hmatch := h.defs.addCapture f id
        have hr : s.defs.Retains (s.defs.addCapture f id) :=
          .of_signature fun v => Defs.signature?_addCapture s.defs f id v
        exact ⟨rfl, h.update ⟨hmatch.alike, h.calls, h.reportCount⟩ hmatch hr rfl rfl⟩
      exact hadd.bind (.note hadd.twins _ _ rfl rfl)
    · exact .pure h ()

variable {around : Scopes}

/-- A name that is right is found in both walks, and means the same. -/
theorem Twins.resolves (h : Twins new names s t) (hs : s.Amid around) {n : Ident} {purpose : Purpose}
    (ho : Occurrence.Right names ⟨n, .use purpose, around⟩) :
    ∃ id d y, s.scopes.find? n.text = some id ∧ s.defs.declaration? id = some d ∧
      purpose.takes d ∧ around.rename new n = ⟨y, n.pos⟩ ∧ t.scopes.find? y = some id := by
  obtain ⟨d, hmeans, htakes⟩ := Occurrence.fits_of_problem? rfl ho.1
  obtain ⟨-, hnone⟩ | ⟨id, e, hid, he, hd⟩ := hs.found n.text
  · exact absurd (hmeans.symm.trans hnone) (Option.some_ne_none d)
  obtain rfl := Option.some.inj (hmeans.symm.trans he)
  have htext : d.name.text = n.text := by
    obtain ⟨scope, -, hscope⟩ := List.exists_of_findSome?_eq_some he
    exact name_of_firstOf hscope
  exact ⟨id, d, new d.name, hid, hd, htakes, Scopes.rename_eq new he, h.find? hid hd htext⟩

theorem resolveVariable_lockstep (h : Twins new names s t) (hs : s.Amid around) (f : DefId)
    {n : Ident} (ho : Occurrence.Right names ⟨n, .use .variable, around⟩) :
    Lockstep new names (resolveVariable f n) (resolveVariable f (around.rename new n)) s t := by
  obtain ⟨v, d, y, hid, hd, htakes, hy, hid'⟩ := h.resolves hs ho
  rw [hy]
  refine Lockstep.scopes ?_
  rw [hid, hid']
  refine Lockstep.defs ?_
  rw [h.defs.alike.isVariable_eq, Defs.isVariable_of_declaration? hd, if_pos htakes, if_pos htakes]
  have hc := capture_lockstep h f v
  exact hc.bind (.pure hc.twins _)

theorem resolveFunction_lockstep (h : Twins new names s t) (hs : s.Amid around) {n : Ident}
    (ho : Occurrence.Right names ⟨n, .use .function, around⟩) :
    Lockstep new names (resolveFunction n) (resolveFunction (around.rename new n)) s t := by
  obtain ⟨g, d, y, hid, hd, htakes, hy, hid'⟩ := h.resolves hs ho
  have hkind : s.defs.kindOf? g = some .function :=
    (Defs.kindOf?_of_declaration? hd).trans (of_decide_eq_true htakes)
  rw [hy]
  refine Lockstep.scopes ?_
  rw [hid, hid']
  refine Lockstep.defs ?_
  rw [h.defs.alike.kindOf?_eq, if_pos hkind, if_pos hkind]
  exact .pure h _

theorem resolveCallable_lockstep (h : Twins new names s t) (hs : s.Amid around) {n : Ident}
    (ho : Occurrence.Right names ⟨n, .use .routine, around⟩) :
    Lockstep new names (resolveCallable n) (resolveCallable (around.rename new n)) s t := by
  obtain ⟨g, d, y, hid, hd, htakes, hy, hid'⟩ := h.resolves hs ho
  obtain ⟨kind, hkind⟩ := Option.isSome_iff_exists.mp htakes
  rw [hy]
  refine Lockstep.scopes ?_
  rw [hid, hid']
  refine Lockstep.defs ?_
  rw [h.defs.alike.kindOf?_eq, Defs.kindOf?_of_declaration? hd, hkind]
  exact .pure h _

/-! ## Expressions -/

/-- A name is renamed where it stands. -/
theorem Scopes.rename_pos (new : Ident → String) (around : Scopes) (n : Ident) :
    ∃ y, around.rename new n = ⟨y, n.pos⟩ := by
  unfold rename
  cases around.find? n.text with
  | none => exact ⟨n.text, rfl⟩
  | some d => exact ⟨new d.name, rfl⟩

mutual

theorem annotateExpr_lockstep (f : DefId) : ∀ (e : Expr) {s t : Progress}, Twins new names s t →
    s.Amid around → (∀ o ∈ e.occurrences around, o.Right names) →
      Lockstep new names (annotateExpr f e) (annotateExpr f (e.rename new around)) s t
  | .literal value sign pos, s, t, h, _, _ => .checks h (checks_applySign sign _)
  | .binary op left right sign pos, s, t, h, hs, ho => by
    obtain ⟨hleft, hright⟩ := List.forall_mem_append.mp ho
    have hl := annotateExpr_lockstep f left h hs hleft
    have hr := annotateExpr_lockstep f right hl.twins (annotateExpr_visits f left hs).amid hright
    exact hl.bind (hr.checked fun r =>
      (checks_checkBinary pos op _ r).bind fun e => checks_applySign sign e)
  | .not operand sign pos, s, t, h, hs, ho =>
    (annotateExpr_lockstep f operand h hs ho).checked fun o =>
      (checks_checkNot pos o).bind fun e => checks_applySign sign e
  | .call callee args sign, s, t, h, hs, ho => by
    obtain ⟨hcallee, hargs⟩ := Occurrence.right_followedBy ho
    have hr := resolveFunction_lockstep h hs hcallee
    have hamid := (resolveFunction_resolves hs callee).visits.amid
    obtain ⟨y, hy⟩ := Scopes.rename_pos new around callee
    rw [Expr.rename]
    rw [hy] at hr ⊢
    refine hr.bind ?_
    cases given (resolveFunction callee) s with
    | none => exact .pure hr.twins _
    | some g =>
      refine (annotateExprs_lockstep f args hr.twins hamid hargs).checked fun args => ?_
      exact (checks_checkCall callee.text y callee.pos f g args).bind fun _ =>
        checks_applySigned sign fun ds es h => by rw [h.typeOf_eq]
  | .member base member sign pos, s, t, h, hs, ho =>
    (annotateExpr_lockstep f base h hs ho).checked fun b =>
      (checks_checkMember pos b member).bind fun e => checks_applySign sign e
  | .name n sign, s, t, h, hs, ho => by
    have hr := resolveVariable_lockstep h hs f (ho _ (List.mem_singleton_self _))
    obtain ⟨y, hy⟩ := Scopes.rename_pos new around n
    rw [Expr.rename]
    rw [hy] at hr ⊢
    refine hr.bind ?_
    cases given (resolveVariable f n) s with
    | none => exact .pure hr.twins _
    | some v =>
      exact .checks hr.twins (checks_applySigned sign fun ds es h => by rw [h.typeOf_eq])
  | .element n index sign, s, t, h, hs, ho => by
    obtain ⟨hname, hindex⟩ := Occurrence.right_followedBy ho
    have hr := resolveVariable_lockstep h hs f hname
    have hamid := (resolveVariable_resolves hs f n).visits.amid
    obtain ⟨y, hy⟩ := Scopes.rename_pos new around n
    rw [Expr.rename]
    rw [hy] at hr ⊢
    refine hr.bind ?_
    cases given (resolveVariable f n) s with
    | none => exact .pure hr.twins _
    | some v =>
      exact (annotateExpr_lockstep f index hr.twins hamid hindex).checked fun i =>
        (checks_checkElement n.text y n.pos v i).bind fun e => checks_applySign sign e

theorem annotateExprs_lockstep (f : DefId) : ∀ (es : List Expr) {s t : Progress},
    Twins new names s t → s.Amid around → (∀ o ∈ Expr.occurrencesAll around es, o.Right names) →
      Lockstep new names (annotateExprs f es) (annotateExprs f (Expr.renameAll new around es)) s t
  | [], s, t, h, _, _ => .pure h []
  | e :: es, s, t, h, hs, ho => by
    obtain ⟨he, hes⟩ := List.forall_mem_append.mp ho
    have hl := annotateExpr_lockstep f e h hs he
    have hr := annotateExprs_lockstep f es hl.twins (annotateExpr_visits f e hs).amid hes
    exact hl.bind (hr.checked fun _ => .pure _)

end

theorem annotateOption_lockstep (h : Twins new names s t) (hs : s.Amid around) (f : DefId) :
    ∀ value : Option Expr, (∀ o ∈ Expr.occurrencesOption around value, o.Right names) →
      Lockstep new names (annotateOption f value)
        (annotateOption f (value.map (Expr.rename new around))) s t
  | some e, ho => (annotateExpr_lockstep f e h hs ho).map some
  | none, _ => .pure h none

/-! ## Written types -/

theorem annotateSize_lockstep (h : Twins new names s t) (hs : s.Amid around) (f : DefId) (size : Expr)
    (ho : ∀ o ∈ size.occurrences around, o.Right names) :
    Lockstep new names (annotateSize f size) (annotateSize f (size.rename new around)) s t :=
  (annotateExpr_lockstep f size h hs ho).checked fun _ =>
    (checks_reportIf _ _ rfl rfl).bind fun _ => .pure _

theorem declaredSize_lockstep (h : Twins new names s t) (hs : s.Amid around) (f : DefId)
    (ns ns' : List Ident) : ∀ type : TypeExpr, (∀ o ∈ type.occurrences around, o.Right names) →
      Lockstep new names (declaredSize f ns type) (declaredSize f ns' (type.rename new around)) s t
  | .scalar _ _, _ => .pure h none
  | .array _ none pos, _ => .checks h (checks_reported pos rfl rfl none)
  | .array _ (some size) _, ho => (annotateSize_lockstep h hs f size ho).map some

theorem signatureType_lockstep (h : Twins new names s t) (hs : s.Amid around) (f : DefId) :
    ∀ type : TypeExpr, (∀ o ∈ type.occurrences around, o.Right names) →
      Lockstep new names (signatureType f type) (signatureType f (type.rename new around)) s t
  | .scalar _ _, _ => .pure h _
  | .array _ none _, _ => .pure h _
  | .array _ (some size) _, ho => (annotateSize_lockstep h hs f size ho).checked fun _ => .pure _

theorem resultType_lockstep (h : Twins new names s t) (hs : s.Amid around) (f : DefId)
    (heading : Heading)
    (ho : ∀ o ∈ TypeExpr.occurrencesOption around heading.result, o.Right names) :
    Lockstep new names (resultType f heading) (resultType f (heading.rename new around)) s t := by
  unfold resultType Heading.rename
  cases hr : heading.result with
  | none => exact .pure h _
  | some type =>
    rw [hr] at ho
    exact signatureType_lockstep h hs f type ho

/-! ## Declarations -/

theorem declare_lockstep (h : Twins new names s t) (hs : s.Amid around) {n : Ident}
    (ho : Occurrence.Right names ⟨n, .declaration, around⟩) (type : ValueType) (kind : DefKind)
    (hkind : kind = .global → s.scopes.current ≠ .predefined) :
    Lockstep new names (declare n type kind) (declare (n.rename new) type kind) s t := by
  have hn : n ∈ names := ho.2 rfl
  have hfree := Occurrence.declares_of_problem? rfl ho.1
  have hhere : s.scopes.here? n.text = none := by
    rw [← Option.not_isSome_iff_eq_none, hs.declares]
    exact hfree
  have hhere' : t.scopes.here? (n.rename new).text = none := h.here? hs hn hfree
  have hrun := declare_run hhere type kind
  have hrun' := declare_run hhere' type kind
  refine ⟨?_, ?_⟩
  · unfold given
    rw [hrun, hrun']
    exact congrArg some h.defs.alike.nextId_eq
  · unfold after
    rw [hrun, hrun']
    exact h.declared hn type hkind

theorem declareVariable_lockstep (h : Twins new names s t) (hs : s.Amid around) (f : DefId) {n : Ident}
    (ho : Occurrence.Right names ⟨n, .declaration, around⟩) (type : ValueType) :
    Lockstep new names (declareVariable f n type) (declareVariable f (n.rename new) type) s t := by
  refine Lockstep.scopes ?_
  rw [h.current_eq]
  split
  · next hprogram =>
    refine declare_lockstep h hs ho type .global fun _ => ?_
    rw [hprogram]
    exact ne_of_beq_false rfl
  · have hd := declare_lockstep h hs ho type (.owned f) (by rintro ⟨⟩)
    refine hd.bind ?_
    cases given (declare n type (.owned f)) s with
    | none => exact .pure hd.twins none
    | some v =>
      have hu := Lockstep.update hd.twins f
        (g := fun info => { info with locals := info.locals ++ [v] }) fun _ => rfl
      exact hu.bind (.pure hu.twins _)

theorem declareVariables_lockstep (f : DefId) (type : ValueType) : ∀ (ns : List Ident)
    {s t : Progress} {around : Scopes}, Twins new names s t → s.Amid around →
      (∀ o ∈ Ident.occurrences around ns, o.Right names) →
        Lockstep new names (declareVariables f type ns)
          (declareVariables f type (ns.map (Ident.rename new))) s t
  | [], s, t, around, h, _, _ => .pure h []
  | n :: ns, s, t, around, h, hs, ho => by
    obtain ⟨hn, hns⟩ := List.forall_mem_cons.mp ho
    have hd := declareVariable_lockstep h hs f hn type
    have hr := declareVariables_lockstep f type ns hd.twins
      (declareVariable_visits hs f n type).amid hns
    exact hd.bind (hr.checked fun _ => .pure _)

theorem declareCallable_lockstep (h : Twins new names s t) (hs : s.Amid around) (f : DefId)
    (heading : Heading) (hn : Occurrence.Right names ⟨heading.name, .declaration, around⟩)
    (ho : ∀ o ∈ TypeExpr.occurrencesOption around heading.result, o.Right names) :
    Lockstep new names (declareCallable f heading) (declareCallable f (heading.rename new around))
      s t := by
  have hfree := Occurrence.declares_of_problem? rfl hn.1
  have hkind : headingKind (heading.rename new around) = headingKind heading := by
    unfold headingKind Heading.rename
    cases heading.result <;> rfl
  have hhere : ¬ (s.scopes.here? heading.name.text).isSome := by
    rw [hs.declares]
    exact hfree
  have hhere' : ¬ (t.scopes.here? (heading.rename new around).name.text).isSome := by
    rw [show t.scopes.here? (heading.rename new around).name.text = none from
      h.here? hs (hn.2 rfl) hfree]
    exact Bool.false_ne_true
  refine Lockstep.scopes ?_
  rw [if_neg hhere, if_neg hhere', hkind]
  have htype := resultType_lockstep h hs f heading ho
  have hamid := (resultType_visits hs f heading).amid
  refine htype.bind ?_
  have hd := declare_lockstep htype.twins hamid hn (given (resultType f heading) s)
    (.callable (.new (headingKind heading) (some f))) (by rintro ⟨⟩)
  refine hd.bind ?_
  cases given (declare _ _ _) _ with
  | none => exact .pure hd.twins none
  | some g =>
    have hnote := Lockstep.note hd.twins (.declared (headingKind heading) heading.name.text g)
      (.declared (headingKind heading) (new heading.name) g) rfl rfl
    exact hnote.bind (.pure hnote.twins _)

theorem declareParam_lockstep (h : Twins new names s t) (hs : s.Amid around) (g : DefId) (p : Param)
    (hn : Occurrence.Right names ⟨p.name, .declaration, around⟩)
    (ho : ∀ o ∈ p.type.occurrences around, o.Right names) :
    Lockstep new names (declareParam g p)
      (declareParam g ⟨p.name.rename new, p.type.rename new around, p.byRef⟩) s t := by
  have htype := signatureType_lockstep h hs g p.type ho
  have hamid := (signatureType_visits hs g p.type).amid
  refine htype.bind ?_
  have hd := declare_lockstep htype.twins hamid hn (given (signatureType g p.type) s)
    (.param g p.byRef) (by rintro ⟨⟩)
  refine hd.bind ?_
  cases given (declare _ _ _) _ with
  | none => exact .pure hd.twins ()
  | some v =>
    exact .update hd.twins g (g := fun info => { info with params := info.params ++ [v] }) fun _ => rfl

theorem declareParams_lockstep (g : DefId) : ∀ (ps : List Param) {s t : Progress} {around : Scopes},
    Twins new names s t → s.Amid around → (∀ o ∈ Param.occurrences around ps, o.Right names) →
      Lockstep new names (declareParams g ps) (declareParams g (Param.renameAll new around ps)) s t
  | [], s, t, around, h, _, _ => .pure h ()
  | p :: ps, s, t, around, h, hs, ho => by
    obtain ⟨htype, hrest⟩ := List.forall_mem_append.mp ho
    obtain ⟨hn, hps⟩ := List.forall_mem_cons.mp hrest
    have hp := declareParam_lockstep h hs g p hn htype
    exact hp.bind (k := fun _ => declareParams g ps)
      (declareParams_lockstep g ps hp.twins (declareParam_visits hs g p).amid hps)

theorem annotateDeclaration_lockstep (h : Twins new names s t) (hs : s.Amid around) (f : DefId)
    (ns : List Ident) (type : TypeExpr) (pos : Position)
    (ho : ∀ o ∈ type.occurrences around ++ Ident.occurrences around ns, o.Right names) :
    Lockstep new names (annotateDeclaration f ns type pos)
      (annotateDeclaration f (ns.map (Ident.rename new)) (type.rename new around) pos) s t := by
  obtain ⟨hsize, hns⟩ := List.forall_mem_append.mp ho
  have htype : (type.rename new around).type = type.type := by cases type <;> rfl
  have hd := declaredSize_lockstep h hs f ns (ns.map (Ident.rename new)) type hsize
  have hamid := (declaredSize_visits hs f ns type).amid
  unfold annotateDeclaration
  rw [htype]
  exact hd.bind ((declareVariables_lockstep f type.type ns hd.twins hamid hns).checked fun _ =>
    .pure _)

/-! ## Statements -/

theorem annotateCond_lockstep (h : Twins new names s t) (hs : s.Amid around) (f : DefId)
    (place : Condition) (cond : Expr) (ho : ∀ o ∈ cond.occurrences around, o.Right names) :
    Lockstep new names (annotateCond f place cond) (annotateCond f place (cond.rename new around))
      s t :=
  (annotateExpr_lockstep f cond h hs ho).checked fun _ =>
    (checks_reportIf _ _ rfl rfl).bind fun _ => .pure _

theorem annotateReturn_lockstep (h : Twins new names s t) (hs : s.Amid around) (f : DefId)
    (value : Option Expr) (pos : Position)
    (ho : ∀ o ∈ Expr.occurrencesOption around value, o.Right names) :
    Lockstep new names (annotateReturn f value pos)
      (annotateReturn f (value.map (Expr.rename new around)) pos) s t :=
  (annotateOption_lockstep h hs f value ho).checked fun v => .defs fun ds es h => by
    rw [h.typeOf_eq]
    exact checks_checkReturn pos _ v

theorem annotateAssign_lockstep (h : Twins new names s t) (hs : s.Amid around) (f : DefId)
    (target : Target) (value : Expr)
    (ho : ∀ o ∈ target.expr.occurrences around ++ value.occurrences around, o.Right names) :
    Lockstep new names (annotateAssign f target value)
      (annotateAssign f (target.rename new around) (value.rename new around)) s t := by
  obtain ⟨htarget, hvalue⟩ := List.forall_mem_append.mp ho
  have ht := annotateExpr_lockstep f target.expr h hs htarget
  have hamid := (annotateExpr_visits f target.expr hs).amid
  have hv := annotateExpr_lockstep f value ht.twins hamid hvalue
  have hexpr : (target.rename new around).expr = target.expr.rename new around := by
    cases target <;> rfl
  have hident : (target.rename new around).ident = around.rename new target.ident := by
    cases target <;> rfl
  obtain ⟨y, hy⟩ := Scopes.rename_pos new around target.ident
  unfold annotateAssign
  rw [hexpr, hident, hy]
  exact ht.bind (hv.checked fun v => checks_checkAssign target.ident.text y target.ident.pos _ v)

theorem annotateCall_lockstep (h : Twins new names s t) (hs : s.Amid around) (f : DefId)
    (callee : Ident) (args : List Expr)
    (ho : ∀ o ∈ Occurrence.followedBy ⟨callee, .use .routine, around⟩
      (Expr.occurrencesAll around args), o.Right names) :
    Lockstep new names (annotateCall f callee args)
      (annotateCall f (around.rename new callee) (Expr.renameAll new around args)) s t := by
  obtain ⟨hcallee, hargs⟩ := Occurrence.right_followedBy ho
  have hr := resolveCallable_lockstep h hs hcallee
  have hamid := (resolveCallable_resolves hs callee).visits.amid
  obtain ⟨y, hy⟩ := Scopes.rename_pos new around callee
  rw [hy] at hr ⊢
  refine hr.bind ?_
  cases given (resolveCallable callee) s with
  | none => exact .pure hr.twins _
  | some found =>
    obtain ⟨g, kind⟩ := found
    refine (annotateExprs_lockstep f args hr.twins hamid hargs).checked fun args => ?_
    refine (checks_checkCall callee.text y callee.pos f g args).bind fun _ => ?_
    by_cases hk : kind = .function
    · rw [if_pos hk, if_pos hk]
      exact checks_reported _ rfl rfl _
    · rw [if_neg hk, if_neg hk]
      exact .pure _

theorem enterScope_lockstep (h : Twins new names s t) :
    Lockstep new names enterScope enterScope s t := ⟨rfl, h.enter⟩

theorem leaveScope_lockstep (h : Twins new names s t) :
    Lockstep new names leaveScope leaveScope s t := ⟨rfl, h.leave⟩

end

section

variable {new : Ident → String} {names : List Ident}

mutual

theorem annotateStmt_lockstep (f : DefId) : ∀ (st : Stmt) {s t : Progress} {around : Scopes},
    Twins new names s t → s.Amid around → (∀ o ∈ st.occurrences around, o.Right names) →
      Lockstep new names (annotateStmt f st) (annotateStmt f (st.rename new around)) s t
  | .declare ns type pos, s, t, around, h, hs, ho =>
    (annotateDeclaration_lockstep h hs f ns type pos ho).map some
  | .callable heading start body, s, t, around, h, hs, ho => by
    obtain ⟨hname, hinside⟩ := Occurrence.right_followedBy ho
    obtain ⟨hresult, hinside⟩ := List.forall_mem_append.mp hinside
    obtain ⟨hparams, hbody⟩ := List.forall_mem_append.mp hinside
    have hd := declareCallable_lockstep h hs f heading hname hresult
    have hamid := (declareCallable_introduces hs f heading).visits.amid
    refine hd.bind ?_
    cases given (declareCallable f heading) s with
    | none => exact .pure hd.twins none
    | some g =>
      have hin := enterScope_lockstep hd.twins
      have hamid' := (enterScope_visits hamid).amid
      have hps := declareParams_lockstep g heading.params hin.twins hamid' hparams
      have hin' := enterScope_lockstep hps.twins
      have hamid'' := (enterScope_visits (declareParams_visits g heading.params hamid').amid).amid
      have hb := annotateStmts_lockstep g body hin'.twins hamid'' hbody
      have hout := leaveScope_lockstep hb.twins
      have hout' := leaveScope_lockstep hout.twins
      let k (body : List TypedStmt) : Analyze (Option TypedStmt) := do
        leaveScope
        leaveScope
        return some (.callable g body)
      have hrest := hb.bind (k := k) (l := k) (hout.bind (hout'.bind (.pure hout'.twins _)))
      exact hin.bind (hps.bind (hin'.bind hrest))
  | .assign target value, s, t, around, h, hs, ho => annotateAssign_lockstep h hs f target value ho
  | .ifThen cond yes pos, s, t, around, h, hs, ho => by
    obtain ⟨hcond, hyes⟩ := List.forall_mem_append.mp ho
    have hc := annotateCond_lockstep h hs f .ifTest cond hcond
    have hamid := (annotateCond_visits hs f .ifTest cond).amid
    exact hc.bind ((annotateStmt_lockstep f yes hc.twins hamid hyes).checked fun _ => .pure _)
  | .ifElse cond yes no pos, s, t, around, h, hs, ho => by
    obtain ⟨hcond, hrest⟩ := List.forall_mem_append.mp ho
    obtain ⟨hyes, hno⟩ := List.forall_mem_append.mp hrest
    have hc := annotateCond_lockstep h hs f .ifTest cond hcond
    have hamid := (annotateCond_visits hs f .ifTest cond).amid
    have hy := annotateStmt_lockstep f yes hc.twins hamid hyes
    have hamid' := (annotateStmt_visits f yes hamid).amid
    exact hc.bind (hy.bind ((annotateStmt_lockstep f no hy.twins hamid' hno).checked fun _ => .pure _))
  | .whileDo cond body pos, s, t, around, h, hs, ho => by
    obtain ⟨hcond, hbody⟩ := List.forall_mem_append.mp ho
    have hc := annotateCond_lockstep h hs f .whileCondition cond hcond
    have hamid := (annotateCond_visits hs f .whileCondition cond).amid
    exact hc.bind ((annotateStmt_lockstep f body hc.twins hamid hbody).checked fun _ => .pure _)
  | .call callee args, s, t, around, h, hs, ho => annotateCall_lockstep h hs f callee args ho
  | .ret value pos, s, t, around, h, hs, ho => annotateReturn_lockstep h hs f value pos ho
  | .assert cond pos, s, t, around, h, hs, ho =>
    (annotateCond_lockstep h hs f .assertion cond ho).checked fun _ => .pure _
  | .block start body, s, t, around, h, hs, ho => by
    have hin := enterScope_lockstep h
    have hb := annotateStmts_lockstep f body hin.twins (enterScope_visits hs).amid ho
    have hout := leaveScope_lockstep hb.twins
    exact hin.bind (hb.bind (hout.bind (.pure hout.twins _)))

theorem annotateStmts_lockstep (f : DefId) : ∀ (sts : List Stmt) {s t : Progress} {around : Scopes},
    Twins new names s t → s.Amid around → (∀ o ∈ Stmt.occurrencesIn around sts, o.Right names) →
      Lockstep new names (annotateStmts f sts) (annotateStmts f (Stmt.renameIn new around sts)) s t
  | [], s, t, around, h, _, _ => .pure h []
  | st :: sts, s, t, around, h, hs, ho => by
    obtain ⟨hst, hsts⟩ := List.forall_mem_append.mp ho
    have hl := annotateStmt_lockstep f st h hs hst
    have hamid := (annotateStmt_visits f st hs).amid
    exact hl.bind ((annotateStmts_lockstep f sts hl.twins hamid hsts).checked fun _ => .pure _)

end

end

end StackPascal
