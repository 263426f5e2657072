import StackPascal.Proofs.Names.Checks
import StackPascal.Proofs.Names.Tables

/-!
Names in expressions mean what the scopes around them say.

* `TypedExpr.mentions`: the definitions in a typed expression, each with the
  position of the name that it stands for;
* `Occurrence.ResolvesTo`: a mention has the definition that was made by the
  declaration which the name means;
* `Visits`: a piece of the walk comes across certain names: it reports what is
  wrong with them, and mentions what they mean;
* `annotateExpr_visits`: the walk over an expression visits its names.
-/

namespace StackPascal

open Analyze

/-! ## Mentions -/

/-- A definition, and where its name stands. -/
structure Mention where
  pos : Position
  id : DefId
  deriving DecidableEq

namespace TypedExpr

mutual

def mentions : TypedExpr → List Mention
  | literal _ _ | bad _ => []
  | binary _ _ left right _ => left.mentions ++ right.mentions
  | not operand _ => operand.mentions
  | call callee args info => ⟨info.pos, callee⟩ :: mentionsAll args
  | size array _ => array.mentions
  | name id info => [⟨info.pos, id⟩]
  | element id index info => ⟨info.pos, id⟩ :: index.mentions

def mentionsAll : List TypedExpr → List Mention
  | [] => []
  | e :: es => e.mentions ++ mentionsAll es

end

def mentionsOption : Option TypedExpr → List Mention
  | some e => e.mentions
  | none => []

theorem mentions_withSign (e : TypedExpr) (sign : Sign) : (e.withSign sign).mentions = e.mentions := by
  cases e <;> rfl

end TypedExpr

/-- The mention stands where the name is used, and has the definition made by the
declaration that the name means there, which is one for such a use. -/
def Occurrence.ResolvesTo (o : Occurrence) (ds : Defs) (m : Mention) : Prop :=
  m.pos = o.name.pos ∧ ∃ purpose d, o.role = .use purpose ∧ o.meaning? = some d ∧
    purpose.takes d ∧ ds.declaration? m.id = some d

theorem Occurrence.ResolvesTo.retain {o : Occurrence} {ds es : Defs} {m : Mention}
    (h : o.ResolvesTo ds m) (hr : ds.Retains es) : o.ResolvesTo es m := by
  obtain ⟨hpos, purpose, d, hrole, hmeans, htakes, hid⟩ := h
  exact ⟨hpos, purpose, d, hrole, hmeans, htakes, hr _ _ hid⟩

/-! ## Visits -/

/-- From `s` the step comes across the names in `os` and leaves the walk amid
`around`. It makes definitions for those that are declared, reports what is wrong
with them, and each mention in `ms` is what one of them is resolved to. -/
structure Visits {α : Type} (m : Analyze α) (s : Progress) (around : Scopes)
    (os : List Occurrence) (ms : List Mention) : Prop where
  amid : Progress.Amid around (after m s)
  retains : s.defs.Retains (after m s).defs
  names : (after m s).defs.names.Perm (os.filterMap Occurrence.declared? ++ s.defs.names)
  reports : (after m s).nameReports = (os.filterMap Occurrence.report?).reverse ++ s.nameReports
  mentions : ∀ x ∈ ms, ∃ o ∈ os, o.ResolvesTo (after m s).defs x

namespace Visits

variable {α β : Type} {m : Analyze α} {k : α → Analyze β} {s : Progress} {around inner : Scopes}
  {os ps : List Occurrence} {ms ns : List Mention}

theorem bind (h : Visits m s around os ms) (hk : Visits (k (given m s)) (after m s) inner ps ns) :
    Visits (m >>= k) s inner (os ++ ps) (ms ++ ns) where
  amid := hk.amid
  retains := h.retains.trans hk.retains
  names := by
    rw [List.filterMap_append]
    have hnames := hk.names.trans (h.names.append_left (ps.filterMap Occurrence.declared?))
    rw [← List.append_assoc] at hnames
    exact hnames.trans (List.perm_append_comm.append_right _)
  reports := by
    have hall : (after (m >>= k) s).nameReports =
        (ps.filterMap Occurrence.report?).reverse ++ (after m s).nameReports := hk.reports
    rw [hall, h.reports, List.filterMap_append, List.reverse_append, List.append_assoc]
  mentions x hx := by
    rcases List.mem_append.mp hx with hx | hx
    · obtain ⟨o, ho, hres⟩ := h.mentions x hx
      exact ⟨o, List.mem_append_left _ ho, hres.retain hk.retains⟩
    · obtain ⟨o, ho, hres⟩ := hk.mentions x hx
      exact ⟨o, List.mem_append_right _ ho, hres⟩

/-- The rest comes across no more names. -/
theorem last (h : Visits m s around os ms) (hk : Visits (k (given m s)) (after m s) inner [] []) :
    Visits (m >>= k) s inner os ms := by
  have hall := h.bind hk
  rwa [List.append_nil, List.append_nil] at hall

theorem fewer (h : Visits m s around os ms) (hns : ns ⊆ ms) : Visits m s around os ns :=
  ⟨h.amid, h.retains, h.names, h.reports, fun x hx => h.mentions x (hns hx)⟩

theorem map (h : Visits m s around os ms) (g : α → β) : Visits (g <$> m) s around os ms :=
  ⟨h.amid, h.retains, h.names, h.reports, h.mentions⟩

/-- A step that comes across no name. -/
theorem quietly (h : Progress.Amid around s) (hs : (after m s).scopes = s.scopes)
    (hd : s.defs.Retains (after m s).defs) (hn : (after m s).defs.names = s.defs.names)
    (hr : (after m s).nameReports = s.nameReports) : Visits m s around [] [] :=
  ⟨h.retain hs hd, hd, .of_eq hn, hr, nofun⟩

theorem pure (h : Progress.Amid around s) (a : α) : Visits (pure a : Analyze α) s around [] [] :=
  quietly h rfl (.refl _) rfl rfl

theorem defs {k : Defs → Analyze β} (h : Visits (k s.defs) s around os ms) :
    Visits (Analyze.defs >>= k) s around os ms :=
  ⟨h.amid, h.retains, h.names, h.reports, h.mentions⟩

theorem scopes {k : ScopeTable DefId → Analyze β} (h : Visits (k s.scopes) s around os ms) :
    Visits (Analyze.scopes >>= k) s around os ms :=
  ⟨h.amid, h.retains, h.names, h.reports, h.mentions⟩

/-- A name is reported to be wrong. -/
theorem report (h : Progress.Amid around s) {o : Occurrence} {p : SemanticProblem}
    (ho : o.problem? = some p) (hp : p.aboutName = true) :
    Visits (report o.name.pos p) s around [o] [] where
  amid := h
  retains := .refl _
  names := by
    rw [List.filterMap_cons_none (Occurrence.declared?_of_problem? ho)]
    rfl
  reports := by
    have hreport : o.report? = some ⟨o.name.pos, .semantic p⟩ := by rw [Occurrence.report?, ho]; rfl
    rw [List.filterMap_cons_some hreport]
    exact List.filter_cons_of_pos hp
  mentions := nofun

end Visits

theorem Checks.visits {α : Type} {m n : Analyze α} (h : Checks m n) {s : Progress} {around : Scopes}
    (hs : Progress.Amid around s) : Visits m s around [] [] :=
  .quietly hs (h.scopes_eq s) (by rw [h.defs_eq]; exact .refl _) (by rw [h.defs_eq])
    (h.nameReports_eq s)

/-- A check after a visit. -/
theorem Visits.checked {α β : Type} {m : Analyze α} {k : α → Analyze β} {s : Progress}
    {around : Scopes} {os : List Occurrence} {ms : List Mention} (h : Visits m s around os ms)
    (hk : ∀ a, Checks (k a) (k a)) : Visits (m >>= k) s around os ms :=
  h.last ((hk (given m s)).visits h.amid)

/-! ## Resolving a name -/

/-- The step resolves the name if nothing is wrong with it, and otherwise reports
what is wrong. -/
structure Resolves {α : Type} (idOf : α → DefId) (m : Analyze (Option α)) (s : Progress)
    (o : Occurrence) : Prop where
  visits : Visits m s o.around [o] ((given m s).toList.map fun a => ⟨o.name.pos, idOf a⟩)
  isSome : (given m s).isSome = o.problem?.isNone

section Resolving

variable {α : Type} {idOf : α → DefId} {s : Progress} {o : Occurrence} {f : DefId} {around : Scopes}

theorem Resolves.failed (h : Progress.Amid o.around s) {p : SemanticProblem}
    (ho : o.problem? = some p) (hp : p.aboutName = true) :
    Resolves idOf (report o.name.pos p >>= fun _ => pure none) s o where
  visits := by
    have hreport := Visits.report h ho hp
    exact hreport.bind (.pure hreport.amid none)
  isSome := by
    rw [ho]
    rfl

theorem Resolves.undeclared (h : Progress.Amid around s) (name : Ident) (purpose : Purpose)
    (hmeans : around.find? name.text = none) :
    Resolves idOf (report name.pos (purpose.undeclared name.text) >>= fun _ => pure none) s
      ⟨name, .use purpose, around⟩ := by
  have hp : (purpose.undeclared name.text).aboutName = true := by cases purpose <;> rfl
  exact Resolves.failed (o := ⟨name, .use purpose, around⟩) h
    (Occurrence.problem?_undeclared rfl hmeans) hp

theorem Resolves.unfit (h : Progress.Amid around s) (name : Ident) (purpose : Purpose)
    {d : Declaration} (hmeans : around.find? name.text = some d) (htakes : ¬ purpose.takes d) :
    Resolves idOf (report name.pos (purpose.unfit name.text) >>= fun _ => pure none) s
      ⟨name, .use purpose, around⟩ := by
  have hp : (purpose.unfit name.text).aboutName = true := by cases purpose <;> rfl
  exact Resolves.failed (o := ⟨name, .use purpose, around⟩) h
    (Occurrence.problem?_unfit rfl hmeans htakes) hp

theorem Resolves.found {m : Analyze Unit} (h : Visits m s around [] []) (name : Ident)
    (purpose : Purpose) {a : α} {d : Declaration} (hmeans : around.find? name.text = some d)
    (htakes : purpose.takes d = true) (hid : s.defs.declaration? (idOf a) = some d) :
    Resolves idOf (m >>= fun _ => pure (some a)) s ⟨name, .use purpose, around⟩ := by
  let o : Occurrence := ⟨name, .use purpose, around⟩
  have hnone : o.problem? = none := Occurrence.problem?_fits rfl hmeans htakes
  refine ⟨⟨h.amid, h.retains, ?_, ?_, fun x hx => ?_⟩, ?_⟩
  · rw [List.filterMap_cons_none (Occurrence.declared?_use rfl)]
    exact h.names
  · rw [List.filterMap_cons_none (Occurrence.report?_of_problem? hnone)]
    exact h.reports
  · obtain rfl := List.mem_singleton.mp hx
    exact ⟨o, List.mem_singleton_self _, rfl, purpose, d, rfl, hmeans, htakes, h.retains _ _ hid⟩
  · have hgiven : given (m >>= fun _ => pure (some a)) s = some a := rfl
    rw [hgiven, hnone]
    rfl

theorem Resolves.defs {k : Defs → Analyze (Option α)} (h : Resolves idOf (k s.defs) s o) :
    Resolves idOf (Analyze.defs >>= k) s o :=
  ⟨h.visits.defs, h.isSome⟩

theorem Resolves.scopes {k : ScopeTable DefId → Analyze (Option α)}
    (h : Resolves idOf (k s.scopes) s o) : Resolves idOf (Analyze.scopes >>= k) s o :=
  ⟨h.visits.scopes, h.isSome⟩

/-- What stands behind the name is visited if the name is resolved. -/
theorem Resolves.bind {β : Type} {m : Analyze (Option α)} (h : Resolves idOf m s o)
    {k : Option α → Analyze β} (mentions : β → List Mention) {nested : List Occurrence}
    (hnone : ∀ t, Progress.Amid o.around t →
      Visits (k none) t o.around [] (mentions (given (k none) t)))
    (hsome : ∀ a t, Progress.Amid o.around t → ∃ ms, Visits (k (some a)) t o.around nested ms ∧
      mentions (given (k (some a)) t) ⊆ ⟨o.name.pos, idOf a⟩ :: ms) :
    Visits (m >>= k) s o.around (o.followedBy nested) (mentions (given (m >>= k) s)) := by
  have hvisits := h.visits
  have hresolved := h.isSome
  have hgiven : given (m >>= k) s = given (k (given m s)) (after m s) := rfl
  rw [hgiven]
  unfold Occurrence.followedBy
  cases hg : given m s with
  | none =>
    rw [hg] at hvisits hresolved
    rw [← hresolved]
    exact hvisits.bind (by rw [hg]; exact hnone _ hvisits.amid)
  | some a =>
    rw [hg] at hvisits hresolved
    rw [← hresolved]
    obtain ⟨ms, hk, hms⟩ := hsome a _ hvisits.amid
    exact Visits.fewer (hvisits.bind (by rw [hg]; exact hk)) hms

/-- What the walk finds under a name is what the scopes say that it means. -/
theorem Progress.Amid.found (h : s.Amid around) (name : String) :
    s.scopes.find? name = none ∧ around.find? name = none ∨
      ∃ id d, s.scopes.find? name = some id ∧ around.find? name = some d ∧
        s.defs.declaration? id = some d := by
  have hfind := h.find? name
  cases hs : s.scopes.find? name with
  | none =>
    rw [hs] at hfind
    exact .inl ⟨rfl, Option.map_eq_none_iff.mp hfind.symm⟩
  | some id =>
    rw [hs] at hfind
    obtain ⟨d, hd, hid⟩ := Option.map_eq_some_iff.mp hfind.symm
    exact .inr ⟨id, d, rfl, hd, hid.symm⟩

theorem capture_visits (h : s.Amid around) (f id : DefId) : Visits (capture f id) s around [] [] := by
  refine Visits.defs ?_
  split
  · exact .pure h ()
  · split
    · refine .quietly h rfl ?_ ?_ rfl
      · exact .of_signature fun v => Defs.signature?_addCapture s.defs f id v
      · show (s.defs.addCapture f id).names = s.defs.names
        unfold Defs.addCapture
        split
        · exact Defs.names_updateCallable ..
        · rfl
    · exact .pure h ()

/-- A name that is used as a variable. -/
theorem resolveVariable_resolves (h : s.Amid around) (f : DefId) (name : Ident) :
    Resolves (fun v => v) (resolveVariable f name) s ⟨name, .use .variable, around⟩ := by
  refine Resolves.scopes ?_
  obtain ⟨hs, hmeans⟩ | ⟨v, d, hs, hmeans, hid⟩ := h.found name.text
  · rw [hs]
    exact .undeclared h name .variable hmeans
  · rw [hs]
    refine Resolves.defs ?_
    rw [Defs.isVariable_of_declaration? hid]
    by_cases ht : Purpose.variable.takes d
    · rw [if_pos ht]
      exact .found (capture_visits h f v) name .variable hmeans ht hid
    · rw [if_neg ht]
      exact .unfit h name .variable hmeans ht

/-- The name of a call in an expression. -/
theorem resolveFunction_resolves (h : s.Amid around) (callee : Ident) :
    Resolves (fun g => g) (resolveFunction callee) s ⟨callee, .use .function, around⟩ := by
  refine Resolves.scopes ?_
  obtain ⟨hs, hmeans⟩ | ⟨g, d, hs, hmeans, hid⟩ := h.found callee.text
  · rw [hs]
    exact .undeclared h callee .function hmeans
  · rw [hs]
    refine Resolves.defs ?_
    rw [Defs.kindOf?_of_declaration? hid]
    by_cases ht : d.callable = some .function
    · rw [if_pos ht]
      exact .found (.pure h ()) callee .function hmeans (decide_eq_true ht) hid
    · rw [if_neg ht]
      exact .unfit h callee .function hmeans (by simpa [Purpose.takes] using ht)

/-- The name of a call that is a statement. -/
theorem resolveCallable_resolves (h : s.Amid around) (callee : Ident) :
    Resolves Prod.fst (resolveCallable callee) s ⟨callee, .use .routine, around⟩ := by
  refine Resolves.scopes ?_
  obtain ⟨hs, hmeans⟩ | ⟨g, d, hs, hmeans, hid⟩ := h.found callee.text
  · rw [hs]
    exact .undeclared h callee .routine hmeans
  · rw [hs]
    refine Resolves.defs ?_
    rw [Defs.kindOf?_of_declaration? hid]
    cases hk : d.callable with
    | some kind => exact .found (.pure h ()) callee .routine hmeans (by simp [Purpose.takes, hk]) hid
    | none => exact .unfit h callee .routine hmeans (by simp [Purpose.takes, hk])

end Resolving

/-! ## Expressions -/

section

variable (s : Progress)

theorem mentions_applySign (sign : Sign) (e : TypedExpr) :
    (given (applySign sign e) s).mentions ⊆ e.mentions := by
  unfold applySign
  split
  · exact List.Subset.refl _
  split
  · exact List.Subset.refl _
  split
  · show (e.withSign .minus).mentions ⊆ _
    rw [TypedExpr.mentions_withSign]
    exact List.Subset.refl _
  · exact List.nil_subset _

theorem mentions_checkBinary (op : BinOp) (left right : TypedExpr) (pos : Position) :
    (given (checkBinary op left right pos) s).mentions ⊆ left.mentions ++ right.mentions := by
  unfold checkBinary
  split
  · exact List.nil_subset _
  split
  · exact List.Subset.refl _
  · exact List.nil_subset _

theorem mentions_checkNot (operand : TypedExpr) (pos : Position) :
    (given (checkNot operand pos) s).mentions ⊆ operand.mentions := by
  unfold checkNot
  split
  · exact List.nil_subset _
  split
  · exact List.Subset.refl _
  · exact List.nil_subset _

theorem mentions_checkMember (base : TypedExpr) (member : Ident) (pos : Position) :
    (given (checkMember base member pos) s).mentions ⊆ base.mentions := by
  unfold checkMember
  split
  · exact List.nil_subset _
  split
  · exact List.Subset.refl _
  · exact List.nil_subset _

theorem mentions_checkElement (name : Ident) (id : DefId) (index : TypedExpr) :
    (given (checkElement name id index) s).mentions ⊆ ⟨name.pos, id⟩ :: index.mentions := by
  show TypedExpr.mentions (given (if (s.defs.typeOf id).isArray then _ else _) s) ⊆
    (_ : List Mention)
  split
  · exact List.Subset.refl _
  · exact List.nil_subset _

end

mutual

/-- The walk over an expression visits the names in it, and mentions them. -/
theorem annotateExpr_visits (f : DefId) {around : Scopes} : ∀ (e : Expr) {s : Progress},
    s.Amid around →
      Visits (annotateExpr f e) s around (e.occurrences around) (given (annotateExpr f e) s).mentions
  | .literal value sign pos, s, h =>
    ((checks_applySign sign _).visits h).fewer (mentions_applySign s sign _)
  | .binary op left right sign pos, s, h => by
    have hl := annotateExpr_visits f left h
    have hr := annotateExpr_visits f right hl.amid
    refine Visits.fewer (hl.bind (hr.checked fun r => ?_))
      (List.Subset.trans (mentions_applySign _ _ _) (mentions_checkBinary _ _ _ _ _))
    exact (checks_checkBinary pos op _ r).bind fun t => checks_applySign sign t
  | .not operand sign pos, s, h => by
    have ho := annotateExpr_visits f operand h
    refine Visits.fewer (ho.checked fun o => ?_)
      (List.Subset.trans (mentions_applySign _ _ _) (mentions_checkNot _ _ _))
    exact (checks_checkNot pos o).bind fun t => checks_applySign sign t
  | .call callee args sign, s, h => by
    have hr := resolveFunction_resolves h callee
    refine hr.bind TypedExpr.mentions (fun t ht => .pure ht _) fun g t ht => ?_
    refine ⟨_, (annotateExprs_visits f args ht).checked fun args => ?_, mentions_applySign _ _ _⟩
    exact (checks_checkCall callee.text callee.text callee.pos f g args).bind fun _ =>
      checks_applySigned _ fun ds es h => by rw [h.typeOf_eq]
  | .member base member sign pos, s, h => by
    have hb := annotateExpr_visits f base h
    refine Visits.fewer (hb.checked fun b => ?_)
      (List.Subset.trans (mentions_applySign _ _ _) (mentions_checkMember _ _ _ _))
    exact (checks_checkMember pos b member).bind fun t => checks_applySign sign t
  | .name name sign, s, h => by
    have hr := resolveVariable_resolves h f name
    rw [Expr.occurrences, ← Occurrence.followedBy_nil]
    refine hr.bind TypedExpr.mentions (fun t ht => .pure ht _) fun v t ht => ?_
    let place (ds : Defs) : TypedExpr := .name v ⟨ds.typeOf v, .plus, name.pos⟩
    have hplace : ∀ ds es : Defs, ds.Alike es → place es = place ds := fun ds es h => by
      show TypedExpr.name v _ = _
      rw [h.typeOf_eq]
    exact ⟨[], (checks_applySigned sign hplace).visits ht, mentions_applySign _ _ _⟩
  | .element name index sign, s, h => by
    have hr := resolveVariable_resolves h f name
    refine hr.bind TypedExpr.mentions (fun t ht => .pure ht _) fun v t ht => ?_
    refine ⟨_, (annotateExpr_visits f index ht).checked fun index => ?_,
      List.Subset.trans (mentions_applySign _ _ _) (mentions_checkElement _ _ _ _)⟩
    exact (checks_checkElement name.text name.text name.pos v index).bind fun t =>
      checks_applySign sign t

theorem annotateExprs_visits (f : DefId) {around : Scopes} : ∀ (es : List Expr) {s : Progress},
    s.Amid around →
      Visits (annotateExprs f es) s around (Expr.occurrencesAll around es)
        (TypedExpr.mentionsAll (given (annotateExprs f es) s))
  | [], s, h => .pure h []
  | e :: es, s, h => by
    have he := annotateExpr_visits f e h
    exact he.bind ((annotateExprs_visits f es he.amid).map _)

end

end StackPascal
