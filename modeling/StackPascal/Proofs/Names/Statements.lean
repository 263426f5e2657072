import StackPascal.Proofs.Names.Resolution

/-!
Names in statements mean what the scopes around them say.

* `TypedStmt.mentions`: the definitions in a typed statement;
* `declareVariable_visits`: declaring a name makes the definition for it, or reports
  that the scope declares the name already;
* `annotateStmt_visits`: the walk over a statement visits the names in it and
  leaves the scopes with what it declares.
-/

namespace StackPascal

open Analyze

/-! ## Mentions -/

/-- The target of an assignment stands where the assignment does. -/
def Place.mentions (pos : Position) : Place → List Mention
  | name id => [⟨pos, id⟩]
  | element id index => ⟨pos, id⟩ :: index.mentions

theorem Place.mentions_of_place? {e : TypedExpr} {place : Place} (h : e.place? = some place) :
    place.mentions e.pos = e.mentions := by
  cases e <;> cases h <;> rfl

namespace TypedStmt

mutual

def mentions : TypedStmt → List Mention
  | declare _ _ size _ => TypedExpr.mentionsOption size
  | callable _ body => mentionsIn body
  | assign target value pos => target.mentions pos ++ value.mentions
  | ifThen cond yes _ => cond.mentions ++ yes.mentions
  | ifElse cond yes no _ => cond.mentions ++ (yes.mentions ++ no.mentions)
  | whileDo cond body _ => cond.mentions ++ body.mentions
  | call callee args pos => ⟨pos, callee⟩ :: TypedExpr.mentionsAll args
  | ret value _ => TypedExpr.mentionsOption value
  | assert cond _ => cond.mentions
  | block body => mentionsIn body

def mentionsIn : List TypedStmt → List Mention
  | [] => []
  | st :: sts => st.mentions ++ mentionsIn sts

end

theorem mentionsIn_append : ∀ sts more : List TypedStmt,
    mentionsIn (sts ++ more) = mentionsIn sts ++ mentionsIn more
  | [], _ => rfl
  | st :: sts, more => by
    rw [List.cons_append, mentionsIn, mentionsIn_append sts more, mentionsIn, List.append_assoc]

/-- The mentions of what the walk makes of a statement, if it makes anything. -/
def mentionsOption (st : Option TypedStmt) : List Mention := mentionsIn st.toList

theorem mentionsOption_some (st : TypedStmt) : mentionsOption (some st) = st.mentions :=
  List.append_nil _

theorem mentions_branchOr (st : Option TypedStmt) : (branchOr st).mentions = mentionsOption st := by
  cases st with
  | none => rfl
  | some st => exact (mentionsOption_some st).symm

end TypedStmt

theorem given_bind {α β : Type} (m : Analyze α) (k : α → Analyze β) (s : Progress) :
    given (m >>= k) s = given (k (given m s)) (after m s) := rfl

/-! ## Declaring a name -/

/-- What the statements declare in the scope they stand in. -/
def Stmt.declarationsIn (sts : List Stmt) : List Declaration := sts.flatMap Stmt.declarations

theorem Scopes.declare_cons (around : Scopes) (d : Declaration) (ds : List Declaration) :
    around.declare (d :: ds) = (around.declare [d]).declare ds :=
  around.declare_append [d] ds

theorem Scopes.declare_ne_nil (around : Scopes) (ds : List Declaration) : around.declare ds ≠ [] := by
  cases around <;> exact List.cons_ne_nil _ _

section

variable {s : Progress} {around : Scopes}

/-- Changing what is known of a callable keeps its declaration. -/
theorem Defs.Retains.update (ds : Defs) (f : DefId) {g : CallableInfo → CallableInfo}
    (hg : ∀ info, (g info).kind = info.kind) : ds.Retains (ds.updateCallable f g) := by
  intro id d hd
  rw [Defs.declaration?, Defs.get?_updateCallable]
  split
  · next e =>
    subst e
    rw [Option.map_map, ← hd]
    refine congrArg (Option.map · _) (funext fun e => ?_)
    rcases e with ⟨_, _, _, k, _⟩
    cases k with
    | callable info => exact congrArg (Declaration.mk _ ∘ some) (hg info)
    | _ => rfl
  · exact hd

theorem addLocal_visits (h : s.Amid around) (f v : DefId) :
    Visits (updateDefs (·.addLocal f v)) s around [] [] :=
  .quietly h rfl (.update s.defs f fun _ => rfl) (Defs.names_updateCallable ..) rfl

theorem addParam_visits (h : s.Amid around) (f v : DefId) :
    Visits (updateDefs (·.addParam f v)) s around [] [] :=
  .quietly h rfl (.update s.defs f fun _ => rfl) (Defs.names_updateCallable ..) rfl

theorem note_visits (h : s.Amid around) {e : Event} (he : e.report? = none) :
    Visits (note e) s around [] [] :=
  .quietly h rfl (.refl _) rfl (congrArg (List.filter _) (List.filterMap_cons_none he))

/-- The step declares the name if its scope does not yet, and otherwise reports
that it does. -/
structure Introduces {α : Type} (m : Analyze (Option α)) (s : Progress) (around : Scopes)
    (d : Declaration) (nested : List Occurrence) : Prop where
  visits : Visits m s (around.declare [d])
    (Occurrence.followedBy ⟨d.name, .declaration, around⟩ nested) []
  isSome : (given m s).isSome = (Occurrence.problem? ⟨d.name, .declaration, around⟩).isNone

theorem redeclared_introduces {α : Type} (h : s.Amid around) {d : Declaration}
    (hd : around.declares d.name.text) (nested : List Occurrence) :
    Introduces (report d.name.pos (.redeclared d.name.text) >>= fun _ => pure (none : Option α)) s
      around d nested := by
  have hp : Occurrence.problem? ⟨d.name, .declaration, around⟩ = some (.redeclared d.name.text) :=
    Occurrence.problem?_redeclared rfl hd
  have hr := Visits.report h hp rfl
  refine ⟨?_, by rw [hp]; rfl⟩
  rw [Occurrence.followedBy, hp]
  exact ⟨h.again hd, hr.retains, hr.names, hr.reports, hr.mentions⟩

theorem Introduces.congr {α : Type} {m n : Analyze (Option α)} {d : Declaration}
    {nested : List Occurrence} (h : Introduces n s around d nested) (hrun : m.run s = n.run s) :
    Introduces m s around d nested := by
  have hafter : after m s = after n s := congrArg Prod.snd hrun
  have hgiven : given m s = given n s := congrArg Prod.fst hrun
  obtain ⟨⟨hamid, hretains, hnames, hreports, hmentions⟩, hsome⟩ := h
  rw [← hafter] at hamid hretains hnames hreports hmentions
  exact ⟨⟨hamid, hretains, hnames, hreports, hmentions⟩, hgiven ▸ hsome⟩

theorem declared_introduces (h : s.Amid around) {name : Ident} {type : ValueType} {kind : DefKind}
    {d : Declaration} (hd : (s.newDef name type kind).declaration = d)
    (hnew : ¬ around.declares d.name.text) :
    Introduces (do set (s.declared name type kind); return some s.defs.nextId : Analyze _) s around d
      [] := by
  have hp : Occurrence.problem? ⟨d.name, .declaration, around⟩ = none :=
    Occurrence.problem?_declared rfl hnew
  have hr : s.defs.Retains (s.declared name type kind).defs :=
    Defs.Retains.push s.defs (s.newDef name type kind)
  have hid : (s.declared name type kind).defs.declaration? s.defs.nextId = some d :=
    hd ▸ Defs.declaration?_nextId_push s.defs (s.newDef name type kind)
  have hname : d.name.text = name.text := by subst hd; rfl
  refine ⟨?_, by rw [hp]; rfl⟩
  rw [Occurrence.followedBy_nil]
  refine ⟨?_, hr, ?_, ?_, fun _ hx => absurd hx List.not_mem_nil⟩
  · have hb := h.bind hnew hr hid
    rwa [hname] at hb
  · rw [List.filterMap_cons_some (Occurrence.declared?_declaration rfl hp)]
    have hnames : (s.declared name type kind).defs.names = s.defs.names ++ [d.name] := by
      subst hd
      exact Defs.names_push ..
    exact (List.Perm.of_eq hnames).trans List.perm_append_comm
  · rw [List.filterMap_cons_none (Occurrence.report?_of_problem? hp)]
    rfl

/-- A name that is free gets a definition. -/
theorem declare_run {name : Ident} (h : s.scopes.here? name.text = none) (type : ValueType)
    (kind : DefKind) : (declare name type kind).run s =
      (do set (s.declared name type kind); return some s.defs.nextId : Analyze _).run s := by
  have hget : (get : Analyze Progress).run s = pure (s, s) := rfl
  simp only [declare, StateT.run_bind, hget, pure_bind, ScopeTable.insert, h]
  rfl

theorem declare_introduces (h : s.Amid around) (name : Ident) (type : ValueType) (kind : DefKind)
    {d : Declaration} (hd : (s.newDef name type kind).declaration = d) :
    Introduces (declare name type kind) s around d [] := by
  have hname : d.name = name := by subst hd; rfl
  have hhere := h.declares d.name.text
  cases hs : s.scopes.here? d.name.text with
  | some id =>
    rw [hs] at hhere
    have hget : (get : Analyze Progress).run s = pure (s, s) := rfl
    have hrun : (declare name type kind).run s =
        (do report name.pos (.redeclared name.text); return none : Analyze _).run s := by
      simp only [declare, StateT.run_bind, hget, pure_bind, ScopeTable.insert, ← hname, hs]
    rw [← hname] at hrun ⊢
    exact (redeclared_introduces h hhere.symm []).congr hrun
  | none =>
    rw [hs] at hhere
    have hnew : ¬ around.declares d.name.text := by
      rw [← hhere]
      exact Bool.false_ne_true
    exact (declared_introduces h hd hnew).congr (declare_run (hname ▸ hs) type kind)

/-- More may be done about a name that has been declared. -/
theorem Introduces.bind {α β : Type} {m : Analyze (Option α)} {d : Declaration}
    (h : Introduces m s around d []) {k : Option α → Analyze β}
    (hk : ∀ a t, t.Amid (around.declare [d]) → Visits (k a) t (around.declare [d]) [] []) :
    Visits (m >>= k) s (around.declare [d]) [⟨d.name, .declaration, around⟩] [] := by
  have hv := h.visits
  rw [Occurrence.followedBy_nil] at hv
  exact hv.bind (hk _ _ hv.amid)

theorem Introduces.also {α β : Type} {m : Analyze (Option α)} {d : Declaration}
    (h : Introduces m s around d []) {k : Option α → Analyze (Option β)}
    (hk : ∀ a t, t.Amid (around.declare [d]) → Visits (k a) t (around.declare [d]) [] [])
    (hsome : ∀ a t, (given (k a) t).isSome = a.isSome) : Introduces (m >>= k) s around d [] where
  visits := by
    rw [Occurrence.followedBy_nil]
    exact h.bind hk
  isSome := (hsome _ _).trans h.isSome

theorem Introduces.scopes {α : Type} {k : ScopeTable DefId → Analyze (Option α)} {d : Declaration}
    {nested : List Occurrence} (h : Introduces (k s.scopes) s around d nested) :
    Introduces (Analyze.scopes >>= k) s around d nested :=
  ⟨h.visits.scopes, h.isSome⟩

/-- What stands inside a callable is visited if the name of it has been declared. -/
theorem Introduces.nested {α β : Type} {m : Analyze (Option α)} {d : Declaration}
    {os inside : List Occurrence} (h : Introduces m s around d os) {k : Option α → Analyze β}
    (mentions : β → List Mention)
    (hnone : ∀ t, t.Amid (around.declare [d]) →
      Visits (k none) t (around.declare [d]) [] (mentions (given (k none) t)))
    (hsome : ∀ a t, t.Amid (around.declare [d]) →
      Visits (k (some a)) t (around.declare [d]) inside (mentions (given (k (some a)) t))) :
    Visits (m >>= k) s (around.declare [d])
      (Occurrence.followedBy ⟨d.name, .declaration, around⟩ (os ++ inside))
      (mentions (given (m >>= k) s)) := by
  have hvisits := h.visits
  have hintroduced := h.isSome
  rw [given_bind]
  unfold Occurrence.followedBy at hvisits ⊢
  cases hg : given m s with
  | none =>
    rw [hg] at hintroduced
    rw [← hintroduced] at hvisits ⊢
    exact hvisits.bind (by rw [hg]; exact hnone _ hvisits.amid)
  | some a =>
    rw [hg] at hintroduced
    rw [← hintroduced] at hvisits ⊢
    exact hvisits.bind (by rw [hg]; exact hsome a _ hvisits.amid)

/-! ## Variables -/

theorem declareVariable_visits (h : s.Amid around) (f : DefId) (name : Ident) (type : ValueType) :
    Visits (declareVariable f name type) s (around.declare [⟨name, none⟩])
      [⟨name, .declaration, around⟩] [] := by
  refine Visits.scopes ?_
  split
  · have hv := (declare_introduces h name type .global rfl).visits
    rwa [Occurrence.followedBy_nil] at hv
  · refine (declare_introduces h name type (.owned f) rfl).bind fun r t ht => ?_
    cases r with
    | none => exact .pure ht none
    | some v => exact (addLocal_visits ht f v).bind (.pure (addLocal_visits ht f v).amid _)

theorem declareVariables_visits (f : DefId) (type : ValueType) : ∀ (names : List Ident)
    {s : Progress} {around : Scopes}, s.Amid around →
      Visits (declareVariables f type names) s (around.declare (names.map (Declaration.mk · none)))
        (Ident.occurrences around names) []
  | [], s, around, h => by
    rw [List.map_nil, Scopes.declare_nil h.ne_nil]
    exact .pure h []
  | name :: names, s, around, h => by
    have hv := declareVariable_visits h f name type
    rw [List.map_cons, Scopes.declare_cons]
    exact hv.bind ((declareVariables_visits f type names hv.amid).map _)

/-! ## Written types -/

theorem annotateSize_visits (h : s.Amid around) (f : DefId) (size : Expr) :
    Visits (annotateSize f size) s around (size.occurrences around)
      (given (annotateSize f size) s).mentions :=
  (annotateExpr_visits f size h).checked fun _ =>
    (checks_reportIf _ _ rfl rfl).bind fun _ => .pure _

theorem declaredSize_visits (h : s.Amid around) (f : DefId) (names : List Ident) :
    ∀ type : TypeExpr, Visits (declaredSize f names type) s around (type.occurrences around)
      (TypedExpr.mentionsOption (given (declaredSize f names type) s))
  | .scalar _ _ => .pure h none
  | .array element none pos => by
    let m := declaredSize f names (.array element none pos)
    have hm : Checks m m := checks_reported pos (p := .missingSize _) rfl rfl none
    exact hm.visits h
  | .array _ (some size) _ => (annotateSize_visits h f size).map some

theorem signatureType_visits (h : s.Amid around) (f : DefId) : ∀ type : TypeExpr,
    Visits (signatureType f type) s around (type.occurrences around) []
  | .scalar _ _ => .pure h _
  | .array _ none _ => .pure h _
  | .array _ (some size) _ =>
    ((annotateSize_visits h f size).fewer (List.nil_subset _)).checked fun _ => .pure _

theorem resultType_visits (h : s.Amid around) (f : DefId) (heading : Heading) :
    Visits (resultType f heading) s around (TypeExpr.occurrencesOption around heading.result) [] := by
  unfold resultType
  cases heading.result with
  | some type => exact signatureType_visits h f type
  | none => exact .pure h _

/-! ## Headings -/

theorem headingKind_eq (h : Heading) : h.declaration = ⟨h.name, some (headingKind h)⟩ := by
  unfold Heading.declaration headingKind
  cases h.result <;> rfl

/-- What comes before the declaration of a name that is free does not matter. -/
theorem Introduces.after {α β : Type} {m : Analyze α} {k : α → Analyze (Option β)}
    {os : List Occurrence} {d : Declaration} (h : Visits m s around os [])
    (hd : ¬ around.declares d.name.text)
    (hk : Introduces (k (given m s)) (Analyze.after m s) around d []) :
    Introduces (m >>= k) s around d os := by
  have hp : Occurrence.problem? ⟨d.name, .declaration, around⟩ = none :=
    Occurrence.problem?_declared rfl hd
  have hv := hk.visits
  rw [Occurrence.followedBy_nil] at hv
  have hall := h.bind hv
  refine ⟨?_, hk.isSome⟩
  rw [Occurrence.followedBy, hp]
  refine ⟨hall.amid, hall.retains, hall.names.trans ?_, ?_, fun _ hx => absurd hx List.not_mem_nil⟩
  · exact (List.perm_append_comm.filterMap _).append_right _
  have hr := hall.reports
  rw [List.filterMap_append] at hr
  rw [hr]
  simp [Occurrence.report?_of_problem? hp]

theorem declareCallable_introduces (h : s.Amid around) (f : DefId) (heading : Heading) :
    Introduces (declareCallable f heading) s around heading.declaration
      (TypeExpr.occurrencesOption around heading.result) := by
  refine Introduces.scopes ?_
  have hhere : _ = around.declares heading.declaration.name.text := h.declares heading.name.text
  rw [hhere]
  by_cases hd : around.declares heading.declaration.name.text
  · rw [if_pos hd]
    exact redeclared_introduces h hd _
  · rw [if_neg hd]
    have htype := resultType_visits h f heading
    refine .after htype hd ?_
    refine (declare_introduces htype.amid heading.name _
      (.callable (.new (headingKind heading) (some f))) (headingKind_eq heading).symm).also ?_ ?_
    · intro r t ht
      cases r with
      | none => exact .pure ht none
      | some id =>
        have hnote := note_visits ht (e := .declared (headingKind heading) heading.name.text id) rfl
        exact hnote.bind (.pure hnote.amid _)
    · intro r t
      cases r <;> rfl

/-! ## Parameters -/

theorem declareParam_visits (h : s.Amid around) (g : DefId) (p : Param) :
    Visits (declareParam g p) s (around.declare [p.declaration])
      (p.type.occurrences around ++ [⟨p.name, .declaration, around⟩]) [] := by
  have htype := signatureType_visits h g p.type
  refine htype.bind ((declare_introduces htype.amid p.name _ _ rfl).bind fun r t ht => ?_)
  cases r with
  | none => exact .pure ht ()
  | some v => exact addParam_visits ht g v

theorem declareParams_visits (g : DefId) : ∀ (ps : List Param) {s : Progress} {around : Scopes},
    s.Amid around →
      Visits (declareParams g ps) s (around.declare (ps.map Param.declaration))
        (Param.occurrences around ps) []
  | [], s, around, h => by
    rw [List.map_nil, Scopes.declare_nil h.ne_nil]
    exact .pure h ()
  | p :: ps, s, around, h => by
    have hp := declareParam_visits h g p
    rw [List.map_cons, Scopes.declare_cons]
    have hall : Visits (declareParams g (p :: ps)) s _ _ [] :=
      hp.bind (k := fun _ => declareParams g ps) (declareParams_visits g ps hp.amid)
    rwa [List.append_assoc] at hall

/-! ## Simple statements -/

theorem annotateDeclaration_visits (h : s.Amid around) (f : DefId) (names : List Ident)
    (type : TypeExpr) (pos : Position) :
    Visits (annotateDeclaration f names type pos) s
      (around.declare (names.map (Declaration.mk · none)))
      (type.occurrences around ++ Ident.occurrences around names)
      (given (annotateDeclaration f names type pos) s).mentions := by
  have hsize := declaredSize_visits h f names type
  have hnames := declareVariables_visits f type.type names hsize.amid
  refine Visits.fewer (hsize.bind (hnames.checked fun ids => .pure _)) ?_
  rw [List.append_nil]
  exact List.Subset.refl _

theorem annotateCond_visits (h : s.Amid around) (f : DefId) (place : Condition) (cond : Expr) :
    Visits (annotateCond f place cond) s around (cond.occurrences around)
      (given (annotateCond f place cond) s).mentions :=
  (annotateExpr_visits f cond h).checked fun _ =>
    (checks_reportIf _ _ rfl rfl).bind fun _ => .pure _

theorem annotateOption_visits (h : s.Amid around) (f : DefId) : ∀ value : Option Expr,
    Visits (annotateOption f value) s around (Expr.occurrencesOption around value)
      (TypedExpr.mentionsOption (given (annotateOption f value) s))
  | some e => (annotateExpr_visits f e h).map some
  | none => .pure h none

theorem mentions_checkReturn (s : Progress) (result : ValueType) (value : Option TypedExpr)
    (pos : Position) : TypedStmt.mentionsOption (given (checkReturn result value pos) s) ⊆
      TypedExpr.mentionsOption value := by
  unfold checkReturn
  split
  · split
    · exact List.nil_subset _
    split
    · exact List.nil_subset _
    · show TypedStmt.mentionsOption (some _) ⊆ _
      rw [TypedStmt.mentionsOption_some]
      exact List.Subset.refl _
  · split
    · exact List.Subset.refl _
    · exact List.Subset.refl _

theorem annotateReturn_visits (h : s.Amid around) (f : DefId) (value : Option Expr)
    (pos : Position) :
    Visits (annotateReturn f value pos) s around (Expr.occurrencesOption around value)
      (TypedStmt.mentionsOption (given (annotateReturn f value pos) s)) := by
  have hv := annotateOption_visits h f value
  refine Visits.fewer (hv.checked fun v => ?_) (mentions_checkReturn _ _ _ _)
  exact .defs fun ds es h => by
    rw [h.typeOf_eq]
    exact checks_checkReturn pos _ v

theorem pos_checkElement (s : Progress) (name : Ident) (id : DefId) (index : TypedExpr) :
    (given (checkElement name id index) s).pos = name.pos := by
  show (given (if (s.defs.typeOf id).isArray then _ else _ : Analyze TypedExpr) s).pos = _
  split <;> rfl

/-- An assignment stands where the name of its target does. -/
theorem pos_target (f : DefId) (s : Progress) (target : Target) :
    (given (annotateExpr f target.expr) s).pos = target.ident.pos := by
  cases target with
  | name name =>
    show (given (annotateExpr f (.name name .plus)) s).pos = name.pos
    rw [annotateExpr, given_bind]
    cases given (resolveVariable f name) s <;> rfl
  | element name index =>
    show (given (annotateExpr f (.element name index .plus)) s).pos = name.pos
    rw [annotateExpr, given_bind]
    cases given (resolveVariable f name) s with
    | none => rfl
    | some v => exact pos_checkElement ..

theorem annotateCall_visits (h : s.Amid around) (f : DefId) (callee : Ident) (args : List Expr) :
    Visits (annotateCall f callee args) s around
      (Occurrence.followedBy ⟨callee, .use .routine, around⟩ (Expr.occurrencesAll around args))
      (TypedStmt.mentionsOption (given (annotateCall f callee args) s)) := by
  have hr := resolveCallable_resolves h callee
  refine hr.bind TypedStmt.mentionsOption (fun t ht => .pure ht _) fun g t ht => ?_
  obtain ⟨g, kind⟩ := g
  refine ⟨_, (annotateExprs_visits f args ht).checked fun args => ?_, ?_⟩
  · refine (checks_checkCall callee.text callee.text callee.pos f g args).bind fun _ => ?_
    by_cases hk : kind = .function
    · rw [if_pos hk]
      exact checks_reported _ rfl rfl _
    · rw [if_neg hk]
      exact .pure _
  · show TypedStmt.mentionsOption (given (if kind = .function then _ else _ : Analyze _) _) ⊆ _
    split
    · exact List.nil_subset _
    · show TypedStmt.mentionsOption (some _) ⊆ _
      rw [TypedStmt.mentionsOption_some]
      exact List.Subset.refl _

theorem mentions_checkAssign (s : Progress) {name : Ident} {target value : TypedExpr}
    (hpos : target.pos = name.pos) :
    TypedStmt.mentionsOption (given (checkAssign name target value) s) ⊆
      target.mentions ++ value.mentions := by
  unfold checkAssign
  split
  · exact List.nil_subset _
  split
  · exact List.nil_subset _
  split
  · exact List.nil_subset _
  · show TypedStmt.mentionsOption (target.place?.map _) ⊆ _
    cases hp : target.place? with
    | none => exact List.nil_subset _
    | some place =>
      rw [Option.map_some, TypedStmt.mentionsOption_some, ← Place.mentions_of_place? hp, hpos]
      exact List.Subset.refl _

theorem annotateAssign_visits (h : s.Amid around) (f : DefId) (target : Target) (value : Expr) :
    Visits (annotateAssign f target value) s around
      (target.expr.occurrences around ++ value.occurrences around)
      (TypedStmt.mentionsOption (given (annotateAssign f target value) s)) := by
  have ht := annotateExpr_visits f target.expr h
  have hv := annotateExpr_visits f value ht.amid
  refine Visits.fewer (ht.bind (hv.checked fun v => ?_)) (mentions_checkAssign _ (pos_target f s target))
  exact checks_checkAssign target.ident.text target.ident.text target.ident.pos _ v

/-! ## Scopes -/

theorem enterScope_visits (h : s.Amid around) : Visits enterScope s ([] :: around) [] [] :=
  ⟨h.enter, .refl _, .refl _, rfl, nofun⟩

theorem leaveScope_visits {scope : List Declaration} (h : s.Amid (scope :: around))
    (hout : around ≠ []) : Visits leaveScope s around [] [] :=
  ⟨h.leave hout, .refl _, .refl _, rfl, nofun⟩


end

/-! ## Statements -/

theorem Visits.stmt {m : Analyze (Option TypedStmt)} {s : Progress} {around : Scopes}
    {os : List Occurrence} {ms : List Mention} (h : Visits m s around os ms) {st : TypedStmt}
    (hgiven : given m s = some st) (hst : st.mentions = ms) :
    Visits m s around os (TypedStmt.mentionsOption (given m s)) := by
  rw [hgiven, TypedStmt.mentionsOption_some, hst]
  exact h

mutual

/-- The walk over a statement visits the names in it, mentions them, and leaves
the scopes with what the statement declares. -/
theorem annotateStmt_visits (f : DefId) : ∀ (st : Stmt) {s : Progress} {around : Scopes},
    s.Amid around →
      Visits (annotateStmt f st) s (around.declare st.declarations) (st.occurrences around)
        (TypedStmt.mentionsOption (given (annotateStmt f st) s))
  | .declare names type pos, s, around, h =>
    Visits.stmt ((annotateDeclaration_visits h f names type pos).map some) rfl rfl
  | .callable heading start body, s, around, h => by
    refine (declareCallable_introduces h f heading).nested TypedStmt.mentionsOption
      (fun t ht => .pure ht none) fun g t ht => ?_
    have hin := enterScope_visits ht
    have hps := declareParams_visits g heading.params hin.amid
    have hin' := enterScope_visits hps.amid
    have hb := annotateStmts_visits g body hin'.amid
    have hout := leaveScope_visits hb.amid (Scopes.declare_ne_nil _ _)
    have hout' := leaveScope_visits hout.amid (Scopes.declare_ne_nil _ _)
    let k (body : List TypedStmt) : Analyze (Option TypedStmt) := do
      leaveScope
      leaveScope
      return some (.callable g body)
    have hbody := hb.last (k := k) (hout.bind (hout'.checked fun _ => .pure _))
    have hparams := hps.bind (k := fun _ => do enterScope; k (← annotateStmts g body))
      (hin'.bind (k := fun _ => annotateStmts g body >>= k) hbody)
    exact Visits.stmt (hin.bind (k := fun _ => do
      declareParams g heading.params
      enterScope
      k (← annotateStmts g body)) hparams) rfl rfl
  | .assign target value, s, around, h => by
    rw [Stmt.declarations, Scopes.declare_nil h.ne_nil]
    exact annotateAssign_visits h f target value
  | .ifThen cond yes pos, s, around, h => by
    have hc := annotateCond_visits h f .ifTest cond
    have hy := annotateStmt_visits f yes hc.amid
    refine Visits.stmt (hc.bind (hy.checked fun _ => .pure _)) rfl ?_
    rw [TypedStmt.mentions, TypedStmt.mentions_branchOr]
    rfl
  | .ifElse cond yes no pos, s, around, h => by
    have hc := annotateCond_visits h f .ifTest cond
    have hy := annotateStmt_visits f yes hc.amid
    have hn := annotateStmt_visits f no hy.amid
    rw [Stmt.declarations, Scopes.declare_append]
    refine Visits.stmt (hc.bind (hy.bind (hn.checked fun _ => .pure _))) rfl ?_
    rw [TypedStmt.mentions, TypedStmt.mentions_branchOr, TypedStmt.mentions_branchOr]
    rfl
  | .whileDo cond body pos, s, around, h => by
    have hc := annotateCond_visits h f .whileCondition cond
    have hb := annotateStmt_visits f body hc.amid
    refine Visits.stmt (hc.bind (hb.checked fun _ => .pure _)) rfl ?_
    rw [TypedStmt.mentions, TypedStmt.mentions_branchOr]
    rfl
  | .call callee args, s, around, h => by
    rw [Stmt.declarations, Scopes.declare_nil h.ne_nil]
    exact annotateCall_visits h f callee args
  | .ret value pos, s, around, h => by
    rw [Stmt.declarations, Scopes.declare_nil h.ne_nil]
    exact annotateReturn_visits h f value pos
  | .assert cond pos, s, around, h => by
    rw [Stmt.declarations, Scopes.declare_nil h.ne_nil]
    exact Visits.stmt ((annotateCond_visits h f .assertion cond).checked fun _ => .pure _) rfl rfl
  | .block start body, s, around, h => by
    rw [Stmt.declarations, Scopes.declare_nil h.ne_nil]
    have hin := enterScope_visits h
    have hb := annotateStmts_visits f body hin.amid
    have hout := leaveScope_visits hb.amid h.ne_nil
    let k (body : List TypedStmt) : Analyze (Option TypedStmt) := do
      leaveScope
      return some (.block body)
    have hall := hb.last (k := k) (hout.checked fun _ => .pure _)
    exact Visits.stmt (hin.bind (k := fun _ => annotateStmts f body >>= k) hall) rfl rfl

theorem annotateStmts_visits (f : DefId) : ∀ (sts : List Stmt) {s : Progress} {around : Scopes},
    s.Amid around →
      Visits (annotateStmts f sts) s (around.declare (Stmt.declarationsIn sts))
        (Stmt.occurrencesIn around sts) (TypedStmt.mentionsIn (given (annotateStmts f sts) s))
  | [], s, around, h => by
    rw [Stmt.declarationsIn, List.flatMap_nil, Scopes.declare_nil h.ne_nil]
    exact .pure h []
  | st :: sts, s, around, h => by
    have hst := annotateStmt_visits f st h
    have hsts := annotateStmts_visits f sts hst.amid
    have hgiven : given (annotateStmts f (st :: sts)) s =
        (given (annotateStmt f st) s).toList ++ given (annotateStmts f sts) (after (annotateStmt f st) s) :=
      rfl
    rw [Stmt.declarationsIn, List.flatMap_cons, Scopes.declare_append, hgiven,
      TypedStmt.mentionsIn_append]
    exact hst.bind (hsts.checked fun _ => .pure _)

end

end StackPascal
