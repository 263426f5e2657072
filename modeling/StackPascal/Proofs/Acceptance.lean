import StackPascal.Compiler
import StackPascal.Proofs.Code.Program
import StackPascal.Proofs.NamedTypes

/-!
What a source text is compiled to: a module, or what is wrong with it.

* `compiledCalls`: the commands that the text gives to the builder;
* `compiled_spec`: for a module that was compiled, they are those of a prepared
  program;
* `compiled_typed`: and the analysis of the text is sound and well typed;
* `compile_total`: compilation does not end in an internal error.
-/

namespace StackPascal

/-- The analysis of a text that parses. -/
def analysisOf (text : String) : Option Analysis :=
  (Source.ofString text).parse.program?.map Program.analyze

/-- The commands to the builder, in order; a text that does not parse gives none. -/
def compiledCalls (text : String) : List Call :=
  match analysisOf text with
  | some a => (generate a.lift.defs a.lift.program).calls
  | none => []

/-- Closure conversion prepares every program in which nothing was reported. -/
theorem Source.prepared {src : Source} {p : Program} (hp : src.parse.result = .ok p)
    (hq : allReports src.parse p.analyze = []) :
    Prepared p.analyze.lift.defs p.analyze.lift.program :=
  prepared_lift (Source.named_of_parse hp) (List.append_eq_nil_iff.mp hq).2

theorem reports_of_error {p : Parsing} {r : Report} (h : p.result = .error r) : p.reports ≠ [] := by
  unfold Parsing.reports
  rw [h]
  exact List.append_ne_nil_of_right_ne_nil _ (List.cons_ne_nil _ _)

/-- Every text is compiled to a module, or there are diagnostics. The branches
of generation that give up are reached by none. -/
theorem compile_total (text : String) :
    (∃ m, compile text = .ok m) ∨ ∃ ds, ds ≠ [] ∧ compile text = .error (.diagnostics ds) := by
  have hmap : ∀ rs : List Report, rs ≠ [] → rs.map Report.diagnostic ≠ [] := fun rs h =>
    mt List.map_eq_nil_iff.mp h
  unfold compile compilation Source.compile
  dsimp only
  cases hp : (Source.ofString text).parse.result with
  | error r => exact .inr ⟨_, hmap _ (reports_of_error hp), rfl⟩
  | ok p =>
    dsimp only
    split
    · next hq =>
      obtain ⟨_, _, _, _, _, _, hemitted⟩ :=
        generate_spec (Source.prepared hp (List.isEmpty_iff.mp hq))
      refine .inl ⟨(generate p.analyze.lift.defs p.analyze.lift.program).result, ?_⟩
      unfold Compilation.ofAnalysis
      dsimp only
      rw [hemitted.error]
    · next hq =>
      refine .inr ⟨_, hmap _ ?_, rfl⟩
      exact fun h => hq (List.isEmpty_iff.mpr h)

theorem compiled_of_isOk {text : String} (h : (compile text).isOk = true) :
    ∃ m, compile text = .ok m := by
  cases hc : compile text with
  | ok m => exact ⟨m, rfl⟩
  | error e =>
    rw [hc] at h
    cases h

/-- Nothing is wrong with a text that is compiled to a module. -/
theorem accepted_of_ok {text : String} {m : CodeModule} (h : compile text = .ok m) :
    ∃ q, (Source.ofString text).parse.result = .ok q ∧
      allReports (Source.ofString text).parse q.analyze = [] := by
  unfold compile compilation Source.compile at h
  dsimp only at h
  cases hp : (Source.ofString text).parse.result with
  | error r =>
    rw [hp] at h
    cases h
  | ok q =>
    rw [hp] at h
    dsimp only at h
    split at h
    · next hq => exact ⟨q, rfl, List.isEmpty_iff.mp hq⟩
    · cases h

/-- A module that was compiled is what the builder made of the commands of a
program with which nothing is wrong, after closure conversion. -/
theorem compiled_spec {text : String} {m : CodeModule} (h : compile text = .ok m) :
    ∃ (q : Program) (c : GenContext) (heads : List Call) (entry : RoutineId) (L : Layout)
        (rest : List (Layout × DefId × List TypedStmt)),
      analysisOf text = some q.analyze ∧ c.defs = q.analyze.lift.defs ∧
        Prepared c.defs q.analyze.lift.program ∧
        Emitted q.analyze.lift.program (generate q.analyze.lift.defs q.analyze.lift.program) c heads
          entry L rest ∧
        m = (generate q.analyze.lift.defs q.analyze.lift.program).result := by
  obtain ⟨q, hp, hq⟩ := accepted_of_ok h
  have hprepared := Source.prepared hp hq
  obtain ⟨c, heads, entry, L, rest, hc, hemitted⟩ := generate_spec hprepared
  unfold compile compilation Source.compile Compilation.ofAnalysis at h
  dsimp only at h
  rw [hp] at h
  dsimp only at h
  rw [if_pos (List.isEmpty_iff.mpr hq), hemitted.error] at h
  refine ⟨q, c, heads, entry, L, rest, ?_, hc, hc ▸ hprepared, hemitted, (Except.ok.inj h).symm⟩
  unfold analysisOf Parsing.program?
  rw [hp]
  rfl

/-- The analysis of a compiled text is sound, and all bodies are well typed. -/
theorem compiled_typed {text : String} {m : CodeModule} (h : compile text = .ok m) :
    ∃ a outer, analysisOf text = some a ∧ a.Sound outer ∧ a.Typed := by
  obtain ⟨q, hp, hq⟩ := accepted_of_ok h
  obtain ⟨outer, hsound, htyped, _⟩ := analyze_spec q
  refine ⟨q.analyze, outer, ?_, hsound,
    htyped (Source.named_of_parse hp) (List.append_eq_nil_iff.mp hq).2⟩
  unfold analysisOf Parsing.program?
  rw [hp]
  rfl

theorem compiledCalls_eq {text : String} {a : Analysis} (h : analysisOf text = some a) :
    compiledCalls text = (generate a.lift.defs a.lift.program).calls := by
  unfold compiledCalls
  rw [h]

end StackPascal
