import StackPascal.Proofs.Names.Positions
import StackPascal.Proofs.Names.Statements
import StackPascal.Proofs.Supply

/-!
Name resolution is lexical scoping.

* `start_amid`: the walk over a program starts amid the predefined names;
* `annotateProgram_visits`: it visits the names of the program that count;
* `declaration_injective`: no two definitions are made by one declaration;
* `names_resolve_lexically`: in a program that parses every name that is resolved
  means what the scopes around it say, and exactly those that mean nothing are
  reported as undeclared.
-/

namespace StackPascal

open Analyze

/-! ## The start of the walk -/

namespace Progress

theorem Amid.predefine {s : Progress} {around : Scopes} (h : s.Amid around) (name : String)
    (type : ValueType) (kind : DefKind) {d : Declaration}
    (hd : (⟨name, type, .predefined, kind, .nowhere⟩ : Def).declaration = d)
    (hnew : around.declares d.name.text = false) :
    (Analyze.predefine s (name, type, kind)).Amid (around.declare [d]) := by
  have hhere : (s.scopes.here? d.name.text).isSome = false := (h.declares _).trans hnew
  have hname : d.name.text = name := by subst hd; rfl
  have hinsert : (s.scopes.insert name s.defs.nextId).toOption.getD s.scopes =
      { s.scopes with bindings := ⟨d.name.text, s.scopes.current, s.defs.nextId⟩ :: s.scopes.bindings } := by
    rw [hname] at hhere ⊢
    unfold ScopeTable.insert
    cases hs : s.scopes.here? name with
    | some id =>
      rw [hs] at hhere
      cases hhere
    | none => rfl
  unfold Analyze.predefine
  dsimp only
  rw [hinsert]
  refine h.bind (by rw [hnew]; exact Bool.false_ne_true) (Defs.Retains.push s.defs _) ?_
  rw [← hd]
  exact Defs.declaration?_nextId_push _ _

end Progress

theorem empty_amid (ds : Defs) : Progress.Amid [[]] ⟨ds, .empty, [], []⟩ :=
  ⟨.empty, .empty, .cons (.empty ds) .nil⟩

theorem start_amid (name : Ident) : (start name).Amid [predefinedDeclarations] := by
  let main : Def := ⟨name.text, .void, .predefined, .callable (.new .procedure none), name.pos⟩
  let intrinsic (i : Intrinsic) : DefKind :=
    .callable { CallableInfo.new .procedure none with intrinsic := some i }
  have htrue := (empty_amid ⟨[main], some mainId⟩).predefine "true" .bool .global rfl (by decide)
  have hfalse := htrue.predefine "false" .bool .global rfl (by decide)
  have hprint := hfalse.predefine "writeln" .void (intrinsic .print) rfl (by decide)
  exact hprint.predefine "read" .void (intrinsic .read) rfl (by decide)

theorem names_start (name : Ident) :
    (start name).defs.names = name :: predefinedDeclarations.map Declaration.name := rfl

/-! ## The walk over a program -/

theorem annotateProgram_visits (p : Program) :
    Visits (do enterScope; let body ← annotateStmts mainId p.body; leaveScope; return body)
      (start p.name) [predefinedDeclarations] p.occurrences
      (TypedStmt.mentionsIn (annotateProgram p).1) := by
  have hin := enterScope_visits (start_amid p.name)
  have hbody := annotateStmts_visits mainId p.body hin.amid
  have hout := leaveScope_visits hbody.amid (List.cons_ne_nil _ _)
  exact hin.bind (k := fun _ => do let body ← annotateStmts mainId p.body; leaveScope; return body)
    (hbody.last (hout.checked fun _ => .pure _))

/-- Closing the captures changes no declaration. -/
theorem signature?_analyze (p : Program) (id : DefId) :
    p.analyze.defs.signature? id = (annotateProgram p).2.defs.signature? id := by
  obtain ⟨outer, hr⟩ := annotateProgram_spec p
  have hc := hr.closure
  exact hc.grows.signature_eq hc.size id

theorem Defs.names_congr {ds es : Defs} (h : ∀ id, es.signature? id = ds.signature? id) :
    es.names = ds.names := by
  have hget : ∀ (fs : Defs) (i : Nat), fs.names[i]? = (fs.signature? ⟨i⟩).map Def.ident := by
    intro fs i
    unfold names signature?
    rw [List.getElem?_map, Option.map_map]
    rfl
  exact List.ext_getElem? fun i => by rw [hget, hget, h]

section

variable {text : String} {p : Program}

theorem namesAt_occurrences (p : Program) (q : Position) :
    namesAt q (p.name :: p.occurrences.map Occurrence.name) ≤ namesAt q p.names := by
  rw [Program.names, namesAt_cons, namesAt_cons q p.name (Stmt.namesIn p.body)]
  exact Nat.add_le_add_left (namesAt_stmts q p.body .ofProgram) _

/-- The names that count stand at different positions, and none of them where the
program is named. -/
theorem occurrences_nodup (h : (Source.ofString text).parse.result = .ok p) :
    ((p.name :: p.occurrences.map Occurrence.name).map Ident.pos).Nodup :=
  List.nodup_iff_count_le_one.mpr fun q =>
    (namesAt_occurrences p q).trans (List.nodup_iff_count_le_one.mp (names_nodup h) q)

theorem occurrences_somewhere (h : (Source.ofString text).parse.result = .ok p) {n : Ident}
    (hn : n ∈ p.name :: p.occurrences.map Occurrence.name) : n.pos ≠ .nowhere := by
  intro he
  have hpos : 0 < namesAt .nowhere (p.name :: p.occurrences.map Occurrence.name) :=
    List.count_pos_iff.mpr (he ▸ List.mem_map_of_mem hn)
  exact names_somewhere h (List.count_pos_iff.mp (hpos.trans_le (namesAt_occurrences p _)))

theorem declared_sublist (os : List Occurrence) :
    (os.filterMap Occurrence.declared?).Sublist (os.map Occurrence.name) := by
  induction os with
  | nil => exact .refl _
  | cons o os ih =>
    rw [List.map_cons]
    cases hd : o.declared? with
    | none =>
      rw [List.filterMap_cons_none hd]
      exact ih.cons _
    | some n =>
      rw [List.filterMap_cons_some hd]
      unfold Occurrence.declared? at hd
      split at hd
      · cases hd
        exact ih.cons_cons _
      · cases hd

/-- No two definitions of a program have the same name at the same position. -/
theorem names_analyze_nodup (h : (Source.ofString text).parse.result = .ok p) :
    p.analyze.defs.names.Nodup := by
  have hperm : (annotateProgram p).2.defs.names.Perm
      (p.occurrences.filterMap Occurrence.declared? ++ (start p.name).defs.names) :=
    (annotateProgram_visits p).names
  have hdeclared := declared_sublist p.occurrences
  have hnodup := (occurrences_nodup h).of_map
  obtain ⟨hname, hoccurrences⟩ := List.nodup_cons.mp hnodup
  rw [Defs.names_congr (signature?_analyze p), hperm.nodup_iff, names_start]
  have hpredefined : ∀ n ∈ predefinedDeclarations.map Declaration.name, n.pos = .nowhere := by decide
  refine List.nodup_append.mpr ⟨hoccurrences.sublist hdeclared, List.nodup_cons.mpr ⟨?_, by decide⟩,
    fun n hn m hm he => ?_⟩
  · exact fun hmem => occurrences_somewhere h List.mem_cons_self (hpredefined _ hmem)
  · subst he
    have hn := hdeclared.subset hn
    rcases List.mem_cons.mp hm with rfl | hm
    · exact hname hn
    · exact occurrences_somewhere h (List.mem_cons_of_mem _ hn) (hpredefined n hm)

/-- No two definitions are made by one declaration. -/
theorem declaration_injective (h : (Source.ofString text).parse.result = .ok p) {id id' : DefId}
    {d : Declaration} (hid : p.analyze.defs.declaration? id = some d)
    (hid' : p.analyze.defs.declaration? id' = some d) : id = id' := by
  have hget : ∀ {id : DefId}, p.analyze.defs.declaration? id = some d →
      p.analyze.defs.names[id.number]? = some d.name := by
    intro id hid
    obtain ⟨e, he, rfl⟩ := Option.map_eq_some_iff.mp hid
    unfold Defs.names
    rw [List.getElem?_map]
    exact congrArg (Option.map Def.ident) he
  have hlt := (List.getElem?_eq_some_iff.mp (hget hid)).1
  exact DefId.ext_number ((List.getElem?_inj hlt (names_analyze_nodup h)).mp
    ((hget hid).trans (hget hid').symm))

end

/-! ## Reports -/

theorem Purpose.undeclared_inj {purpose purpose' : Purpose} {x y : String}
    (h : purpose.undeclared x = purpose'.undeclared y) : purpose = purpose' ∧ x = y := by
  cases purpose <;> cases purpose' <;> cases h <;> exact ⟨rfl, rfl⟩

theorem Purpose.unfit_ne_undeclared (purpose purpose' : Purpose) (x y : String) :
    purpose.unfit x ≠ purpose'.undeclared y := by
  cases purpose <;> cases purpose' <;> nofun

namespace Occurrence

variable {o : Occurrence} {purpose : Purpose} {name : Ident}

theorem problem?_eq_undeclared {x : String} (h : o.problem? = some (purpose.undeclared x)) :
    o.name.text = x ∧ o.role = .use purpose ∧ o.meaning? = none := by
  unfold problem? at h
  split at h
  · split at h
    · cases purpose <;> cases h
    · cases h
  · next used hrole =>
    split at h
    · next hmeans =>
      obtain ⟨rfl, rfl⟩ := Purpose.undeclared_inj (Option.some.inj h)
      exact ⟨rfl, hrole, hmeans⟩
    · split at h
      · cases h
      · exact absurd (Option.some.inj h) (Purpose.unfit_ne_undeclared used purpose _ x)

/-- An occurrence is reported as undeclared if it is a use of a name that means nothing. -/
theorem report?_eq_undeclared :
    o.report? = some ⟨name.pos, .semantic (purpose.undeclared name.text)⟩ ↔
      o.name = name ∧ o.role = .use purpose ∧ o.meaning? = none := by
  constructor
  · intro h
    obtain ⟨p, hp, he⟩ := Option.map_eq_some_iff.mp h
    obtain ⟨hpos, hproblem⟩ := Report.mk.inj he
    obtain rfl := Problem.semantic.inj hproblem
    obtain ⟨htext, hrole, hmeans⟩ := problem?_eq_undeclared hp
    refine ⟨?_, hrole, hmeans⟩
    rcases o with ⟨⟨_, _⟩, _, _⟩
    cases htext
    cases hpos
    rfl
  · rintro ⟨rfl, hrole, hmeans⟩
    rw [report?, problem?_undeclared hrole hmeans]
    rfl

end Occurrence

theorem nameReports_analyze (p : Program) :
    p.analyze.reports.filter Report.aboutName = p.occurrences.filterMap Occurrence.report? := by
  have hreports : (annotateProgram p).2.nameReports =
      (p.occurrences.filterMap Occurrence.report?).reverse ++ (start p.name).nameReports :=
    (annotateProgram_visits p).reports
  have hstart : (start p.name).nameReports = [] := rfl
  rw [hstart, List.append_nil] at hreports
  rw [reports_analyze, List.filter_reverse]
  exact (congrArg List.reverse hreports).trans (List.reverse_reverse _)

/-- Every name that the analysis resolves gets the definition made by the first
declaration of it in the innermost scope around that has one. The reports about
names are those that the occurrences deserve, in their order; so a name is reported
as undeclared exactly where it counts and no scope around it has a declaration. A
declaration makes one definition only, and the names that count stand at different
positions. -/
theorem names_resolve_lexically {text : String} {p : Program}
    (h : (Source.ofString text).parse.result = .ok p) :
    (∀ m ∈ TypedStmt.mentionsIn p.analyze.program.body,
      ∃ o ∈ p.occurrences, o.ResolvesTo p.analyze.defs m) ∧
    p.analyze.reports.filter Report.aboutName = p.occurrences.filterMap Occurrence.report? ∧
    (∀ (purpose : Purpose) (name : Ident),
      ⟨name.pos, .semantic (purpose.undeclared name.text)⟩ ∈ p.analyze.reports ↔
        ∃ o ∈ p.occurrences, o.name = name ∧ o.role = .use purpose ∧ o.meaning? = none) ∧
    (∀ id id' d, p.analyze.defs.declaration? id = some d →
      p.analyze.defs.declaration? id' = some d → id = id') ∧
    (p.occurrences.map (·.name.pos)).Nodup := by
  refine ⟨fun m hm => ?_, nameReports_analyze p, fun purpose name => ?_,
    fun id id' d => declaration_injective h, ?_⟩
  · obtain ⟨o, ho, hres⟩ := (annotateProgram_visits p).mentions m hm
    exact ⟨o, ho, hres.retain (.of_signature (signature?_analyze p))⟩
  · have habout : Report.aboutName ⟨name.pos, .semantic (purpose.undeclared name.text)⟩ = true := by
      cases purpose <;> rfl
    have hmem := congrArg (⟨name.pos, .semantic (purpose.undeclared name.text)⟩ ∈ ·)
      (nameReports_analyze p)
    simp only [List.mem_filter, habout, and_true, List.mem_filterMap,
      Occurrence.report?_eq_undeclared] at hmem
    rw [hmem]
  · have hnodup := (List.nodup_cons.mp (occurrences_nodup h)).2
    rwa [List.map_map] at hnodup

theorem names_resolve_lexically_shadowed :
    let text := "program p; begin var x : int; begin var x : real; x := 2.5 end; " ++
      "x := y; z(x); x := 1 end."
    ∃ p, (Source.ofString text).parse.result = .ok p ∧
      TypedStmt.mentionsIn p.analyze.program.body = [⟨⟨1, 51⟩, ⟨6⟩⟩, ⟨⟨1, 79⟩, ⟨5⟩⟩] ∧
      (∀ m ∈ TypedStmt.mentionsIn p.analyze.program.body,
        ∃ o ∈ p.occurrences, o.ResolvesTo p.analyze.defs m) ∧
      (∃ o ∈ p.occurrences,
        o.name = ⟨"y", ⟨1, 70⟩⟩ ∧ o.role = .use .variable ∧ o.meaning? = none) ∧
      (p.occurrences.map (·.name.pos)).Nodup := by
  intro text
  have hrun : ((Source.ofString text).parse.result.toOption.map fun p =>
      (TypedStmt.mentionsIn p.analyze.program.body,
        decide (⟨⟨1, 70⟩, .semantic (.undeclaredVariable "y")⟩ ∈ p.analyze.reports))) =
      some ([⟨⟨1, 51⟩, ⟨6⟩⟩, ⟨⟨1, 79⟩, ⟨5⟩⟩], true) := by
    decide +kernel
  cases hp : (Source.ofString text).parse.result with
  | error r => rw [hp] at hrun; cases hrun
  | ok p =>
    rw [hp] at hrun
    obtain ⟨hmentions, hreported⟩ := Prod.mk.inj (Option.some.inj hrun)
    obtain ⟨hresolved, -, hundeclared, -, hnodup⟩ := names_resolve_lexically hp
    have hy := (hundeclared .variable ⟨"y", ⟨1, 70⟩⟩).mp (of_decide_eq_true hreported)
    exact ⟨p, rfl, hmentions, hresolved, hy, hnodup⟩

end StackPascal
