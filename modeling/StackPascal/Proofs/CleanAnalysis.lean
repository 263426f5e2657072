import StackPascal.Proofs.Erasing.Visits
import StackPascal.Proofs.NamedTypes

/-!
A clean analysis loses nothing.

If nothing is reported, the typed tree has a type for every expression, and it
erases to the tree of the text; whatever the walk gives up on, it has reported.
-/

namespace StackPascal

open Analyze

theorem labelled_start (name : Ident) : (start name).Labelled := by
  intro b hb
  iterate 4
    rcases List.mem_cons.mp hb with rfl | hb
    · rfl
  cases hb

theorem tidy_start (name : Ident) :
    Tidy (fun _ => []) 0 mainId (after enterScope (start name)) :=
  ⟨standing_start name, solid_start name, labelled_start name⟩

/-- A clean analysis: the walk gave every expression a type, and everything that
was written, in order. -/
structure Analysis.Faithful (a : Analysis) (p : Program) : Prop where
  erase : a.erase = p.bare
  typed : ∀ e ∈ TypedStmt.exprsIn a.program.body, e.isBad = false ∧ e.isVoid = false

theorem visits_told {p : Program} (hn : Stmt.NamedIn p.body) : Told p.visits :=
  stmtsVisits_told p.body hn (fun _ => []) mainId (tidy_start p.name)

theorem faithful_of_reports {p : Program} (hn : Stmt.NamedIn p.body)
    (hr : p.analyze.reports = []) : p.analyze.Faithful p := by
  have hq := (analyze_reports_iff p).mp hr
  obtain ⟨_, hsound, htyped, _⟩ := analyze_spec p
  obtain ⟨outer, hresolved⟩ := annotateProgram_spec p
  obtain ⟨_, hread⟩ := annotateStmts_reads p.body hn (fun _ => []) mainId (tidy_start p.name)
  obtain ⟨hsized, herase⟩ := hread hq
  have hbodies := (htyped hn hr).bodies
  obtain ⟨hmain, hnested⟩ := List.forall_mem_cons.mp hbodies
  refine ⟨?_, fun e he => ?_⟩
  · have hbody : TypedStmt.eraseIn p.analyze.defs p.analyze.program.body = Stmt.bareIn p.body :=
      herase _ hresolved.closure.grows
    rw [Analysis.erase, hbody]
    rfl
  · have ht := TypedStmt.wellTyped_of_mem_exprsIn hmain hsized hnested e he
    refine ⟨?_, ht.not_void⟩
    cases e with
    | bad i => exact ht.elim
    | _ => rfl

/-- If nothing is reported about a program, nothing of it is lost; and whenever
the walk fails to give an expression a type or to give a statement, it reports
a problem in doing so. -/
theorem analyze_faithful {src : Source} {p : Program} (h : src.parse.result = .ok p) :
    (p.analyze.reports = [] → p.analyze.Faithful p) ∧ ∀ v ∈ p.visits, v.Fails → v.Tells :=
  have hn := Source.named_of_parse h
  ⟨faithful_of_reports hn, visits_told hn⟩

theorem analyze_faithful_function :
    let text := "program p; begin function f(var a : array [2] of int, n : int) : int; " ++
      "begin if n < a.size then return -a[n] else return f(a, n - 1) end; " ++
      "var b : array [3] of int; writeln(f(b, 4)) end."
    ∃ p, (Source.ofString text).parse.result = .ok p ∧ p.analyze.reports = [] ∧
      p.analyze.Faithful p ∧ ∀ v ∈ p.visits, v.Fails → v.Tells := by
  intro text
  have hclean : ((Source.ofString text).parse.result.toOption.map fun p => p.analyze.reports) =
      some [] := by decide +kernel
  cases hp : (Source.ofString text).parse.result with
  | error r => rw [hp] at hclean; cases hclean
  | ok p =>
    rw [hp] at hclean
    have hr : p.analyze.reports = [] := Option.some.inj hclean
    obtain ⟨hfaithful, htold⟩ := analyze_faithful hp
    exact ⟨p, rfl, hr, hfaithful hr, htold⟩

end StackPascal
