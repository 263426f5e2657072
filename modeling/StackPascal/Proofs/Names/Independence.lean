import StackPascal.Proofs.LiftedTyping
import StackPascal.Proofs.Code.Program
import StackPascal.Proofs.Names.Conversion
import StackPascal.Proofs.Names.Generation
import StackPascal.Proofs.Names.LexicalScoping
import StackPascal.Proofs.Names.Lockstep

/-!
The code of a program does not depend on the names in it.

* `start_twins`: the walks over a program and over the renamed program start alike;
* `annotateProgram_lockstep`: and stay alike, if the program is accepted;
* `code_independent_of_names`: the renamed program is accepted too, and gives the
  same module but for names.
-/

namespace StackPascal

open Analyze

/-- The names that a program declares stand somewhere in its text. -/
theorem declared_somewhere {text : String} {p : Program}
    (h : (Source.ofString text).parse.result = .ok p) : ∀ n ∈ p.declared, n.pos ≠ .nowhere :=
  fun _ hn => occurrences_somewhere h
    (List.mem_cons_of_mem _ ((declared_sublist p.occurrences).subset hn))

/-- In a program that is accepted nothing is wrong with any name. -/
theorem occurrences_right {p : Program} (h : p.analyze.reports = []) :
    ∀ o ∈ p.occurrences, o.Right p.meanings := by
  have hreports := nameReports_analyze p
  rw [h, List.filter_nil] at hreports
  intro o ho
  have hproblem : o.problem? = none :=
    Option.map_eq_none_iff.mp (List.filterMap_eq_nil_iff.mp hreports.symm o ho)
  refine ⟨hproblem, fun hrole => List.mem_append_left _ (List.mem_filterMap.mpr ⟨o, ho, ?_⟩)⟩
  exact Occurrence.declared?_declaration hrole hproblem

section

variable {p : Program} (r : Renaming p.declared) (hp : ∀ n ∈ p.declared, n.pos ≠ .nowhere)
include hp

/-- The predefined names are the same before and after. -/
theorem start_twins : Twins r.called p.meanings (start p.name) (start p.name) where
  apart _ ha _ hb := r.called_injective hp ha hb
  defs := ⟨.refl _, fun _ _ => rfl⟩
  calls := rfl
  reportCount := rfl
  inner := rfl
  nextScope := rfl
  bindings := by
    have hrebinds : ∀ (id : DefId) (d : Declaration), d ∈ predefinedDeclarations →
        (start p.name).defs.declaration? id = some d →
          Rebinds r.called p.meanings (start p.name).defs ⟨d.name.text, .predefined, id⟩
            ⟨d.name.text, .predefined, id⟩ := fun id d hd hid =>
      ⟨rfl, rfl, d, hid, List.mem_append_right _ (List.mem_map_of_mem hd), rfl,
        (r.called_predefined hd).symm⟩
    have hread := hrebinds ⟨4⟩ ⟨⟨"read", .nowhere⟩, some .procedure⟩ (by decide) rfl
    have hprint := hrebinds ⟨3⟩ ⟨⟨"writeln", .nowhere⟩, some .procedure⟩ (by decide) rfl
    have hfalse := hrebinds ⟨2⟩ ⟨⟨"false", .nowhere⟩, none⟩ (by decide) rfl
    have htrue := hrebinds ⟨1⟩ ⟨⟨"true", .nowhere⟩, none⟩ (by decide) rfl
    exact .cons hread (.cons hprint (.cons hfalse (.cons htrue .nil)))

/-- The walk over a program that is accepted, and the walk over the renamed program. -/
theorem annotateProgram_lockstep (haccepted : p.analyze.reports = []) :
    (annotateProgram (p.rename r)).1 = (annotateProgram p).1 ∧
      Twins r.called p.meanings (annotateProgram p).2 (annotateProgram (p.rename r)).2 := by
  have hin := enterScope_lockstep (start_twins r hp)
  have hamid := (enterScope_visits (start_amid p.name)).amid
  have hbody := annotateStmts_lockstep mainId p.body hin.twins hamid (occurrences_right haccepted)
  have hout := leaveScope_lockstep hbody.twins
  let block (body : List Stmt) : Analyze (List TypedStmt) := do
    let body ← annotateStmts mainId body
    leaveScope
    return body
  have hall := hin.bind (k := fun _ => block p.body) (l := fun _ => block (p.rename r).body)
    (hbody.bind (hout.bind (.pure hout.twins _)))
  exact ⟨hall.given_eq, hall.twins⟩

end

/-- The renamed program is accepted, and analysed alike. -/
theorem analyze_rename {p : Program} (r : Renaming p.declared)
    (hp : ∀ n ∈ p.declared, n.pos ≠ .nowhere) (haccepted : p.analyze.reports = []) :
    (p.rename r).analyze.reports = [] ∧ (p.rename r).analyze.program = p.analyze.program ∧
      p.analyze.defs.Matches (p.rename r).analyze.defs := by
  obtain ⟨hbody, htwins⟩ := annotateProgram_lockstep r hp haccepted
  refine ⟨?_, ?_, ?_⟩
  · rw [analyze_reports_iff] at haccepted ⊢
    unfold Progress.Quiet at haccepted ⊢
    rwa [htwins.reportCount]
  · exact congrArg (TypedProgram.mk p.name.text mainId) hbody
  · have hanalyze : ∀ q : Program, q.analyze.defs = (supplyAll (annotateProgram q).2.calls.reverse
        (annotateProgram q).2.defs (annotateProgram q).2.events).defs := fun _ => rfl
    rw [hanalyze, hanalyze, htwins.calls]
    exact supplyAll_matches htwins.defs _ _ _

/-- Renaming the declarations of an accepted program, with all uses of them, gives an
accepted program, and the same module from it but for the names of routines,
parameters, locals and statics. -/
theorem code_independent_of_names {text : String} {p : Program}
    (h : (Source.ofString text).parse.result = .ok p) (haccepted : p.analyze.reports = [])
    (r : Renaming p.declared) :
    let before := generate p.analyze.lift.defs p.analyze.lift.program
    let after := generate (p.rename r).analyze.lift.defs (p.rename r).analyze.lift.program
    (p.rename r).analyze.reports = [] ∧ before.error = none ∧ after.error = none ∧
      after.result.nameless = before.result.nameless := by
  intro before after
  obtain ⟨hrenamed, hprogram, hdefs⟩ := analyze_rename r (declared_somewhere h) haccepted
  obtain ⟨hlifted, hmatches⟩ := lift_matches hprogram hdefs
  have hprepared := prepared_lift (Source.named_of_parse h) haccepted
  obtain ⟨c, heads, entry, L, rest, -, hemitted⟩ := generate_spec hprepared
  obtain ⟨hmodule, herror⟩ := generate_matches hmatches p.analyze.lift.program
  have hafter : after = generate (p.rename r).analyze.lift.defs p.analyze.lift.program :=
    congrArg (generate _) hlifted
  refine ⟨hrenamed, hemitted.error, ?_, ?_⟩
  · rw [hafter, ← Option.not_isSome_iff_eq_none, herror, hemitted.error]
    exact Bool.false_ne_true
  · rw [hafter]
    exact hmodule

/-- The inner `x` hides the captured one from the caller; the new names are those of
other declarations. -/
theorem code_independent_of_names_permuted :
    let text := "program p; begin var x : int; procedure a() begin x := 1 end; " ++
      "procedure b() begin var x : string; a() end; b() end."
    let routines (p : Program) : List String :=
      (generate p.analyze.lift.defs p.analyze.lift.program).result.routines.map Routine.name
    ∃ (p : Program) (r : Renaming p.declared), (Source.ofString text).parse.result = .ok p ∧
      p.declared = [⟨"x", ⟨1, 22⟩⟩, ⟨"a", ⟨1, 41⟩⟩, ⟨"b", ⟨1, 73⟩⟩, ⟨"x", ⟨1, 87⟩⟩] ∧
      p.declared.map r.name = ["a", "b", "x", "y"] ∧
      routines p = ["p", "a", "b"] ∧ routines (p.rename r) = ["p", "b", "x"] ∧
      (p.rename r).analyze.reports = [] ∧
      (generate (p.rename r).analyze.lift.defs (p.rename r).analyze.lift.program).result.nameless =
        (generate p.analyze.lift.defs p.analyze.lift.program).result.nameless := by
  intro text routines
  let name (n : Ident) : String :=
    ([(22, "a"), (41, "b"), (73, "x"), (87, "y")].lookup n.pos.column).getD ""
  let called (n : Ident) : String := if n.pos = .nowhere then n.text else name n
  have hrun : ((Source.ofString text).parse.result.toOption.map fun p =>
      (p.declared, p.analyze.reports, routines p,
        routines { p with body := Stmt.renameIn called .ofProgram p.body })) =
      some ([⟨"x", ⟨1, 22⟩⟩, ⟨"a", ⟨1, 41⟩⟩, ⟨"b", ⟨1, 73⟩⟩, ⟨"x", ⟨1, 87⟩⟩], [], ["p", "a", "b"],
        ["p", "b", "x"]) := by
    decide +kernel
  cases hp : (Source.ofString text).parse.result with
  | error r => rw [hp] at hrun; cases hrun
  | ok p =>
    rw [hp] at hrun
    obtain ⟨hdeclared, hrest⟩ := Prod.mk.inj (Option.some.inj hrun)
    obtain ⟨hreports, hrest⟩ := Prod.mk.inj hrest
    obtain ⟨hroutines, hrenamed⟩ := Prod.mk.inj hrest
    let r : Renaming p.declared :=
      { name
        distinct := by rw [hdeclared]; decide
        fresh := by rw [hdeclared]; decide }
    obtain ⟨haccepted, -, -, hmodule⟩ := code_independent_of_names hp hreports r
    have hnames : p.declared.map r.name = ["a", "b", "x", "y"] :=
      (congrArg (List.map name) hdeclared).trans (by decide)
    have hsame : { p with body := Stmt.renameIn called .ofProgram p.body } = p.rename r := rfl
    rw [hsame] at hrenamed
    exact ⟨p, r, rfl, hdeclared, hnames, hroutines, hrenamed, haccepted, hmodule⟩

end StackPascal
