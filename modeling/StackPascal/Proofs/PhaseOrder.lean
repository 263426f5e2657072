import StackPascal.Proofs.Acceptance
import StackPascal.Proofs.Grammar.OnDemand
import StackPascal.Proofs.Walk.Reports

/-!
Diagnostics in the order of the phases.

* `Source.read_of_ok`: a parse that succeeds has read the whole text;
* `Source.syntactic_of_error`: one that fails ends with a syntactic report;
* `Source.compile_of_ok`, `Source.compile_of_error`: what is made of a parse;
* `diagnostics_in_phase_order`: both together, for a parser that reads the text
  while it parses.
-/

namespace StackPascal

/-- The diagnostics of a compilation; a module comes without any. -/
def Compilation.diagnostics (c : Compilation) : List Diagnostic :=
  match c.result with
  | .ok _ => []
  | .error e => e.diagnosticsOf

/-- What the parser tells the log before it has come to an end. -/
def Event.whileParsing (e : Event) : Prop := e.phase = .lexing ∨ e.phase = .diagnosis

namespace Source

variable {src : Source} {p : Program} {r : Report}

/-- A parse that succeeds has read the whole text. -/
theorem read_of_ok (h : src.parse.result = .ok p) : src.parse.read = src.lexemes := by
  have hresult : src.text.parse.1 = .ok p := h
  obtain ⟨-, hkinds⟩ := src.tokens_eq
  obtain ⟨c, e, hc, -, hp⟩ :=
    Parser.isProgram_iff.mp ((Parser.run_program_iff hkinds).mp hresult)
  obtain ⟨hlist, -⟩ := List.append_inj' hc rfl
  have htext : src.text = ⟨c, src.text.stop⟩ := congrArg (Tokens.mk · src.text.stop) hlist
  have hrest : src.text.parse.2.list = [] := by
    have hrun : Parser.programText.run src.text = .ok p ⟨[], src.text.stop⟩ := by
      rw [htext]
      exact Parser.run_text src.text.stop hp
    rw [Tokens.parse, Parser.run_program, hrun]
    rfl
  have hread : src.parse.read = src.lexemes.take 1 ++ (src.lexemes.drop 1).take
      ((src.lexemes.drop 1).length - src.text.parse.2.list.length) := rfl
  rw [hread, hrest, List.length_nil, Nat.sub_zero, List.take_length, List.take_append_drop]

/-- A parse that fails ends with a syntactic report. -/
theorem syntactic_of_error (h : src.parse.result = .error r) :
    r.problem.category = .syntactic := by
  have hresult : src.text.parse.1 = .error r := h
  unfold Tokens.parse at hresult
  cases hrun : Parser.program.run src.text with
  | ok p rest =>
    rw [hrun] at hresult
    cases hresult
  | error e rest =>
    rw [hrun] at hresult
    cases hresult
    obtain ⟨-, -, taken, -, hfault⟩ := Parser.fault_of_error hrun
    cases hfault <;> rfl

/-- A parsed program is compiled, or rejected for what has been reported about the
text and about the program. -/
theorem compile_of_ok (h : src.parse.result = .ok p) :
    src.compile.diagnostics = (reportsOf src.parse.read ++ p.analyze.reports).map Report.diagnostic ∧
      ((∃ m, src.compile.result = .ok m) ↔ src.compile.diagnostics = []) := by
  have hreports : allReports src.parse p.analyze = reportsOf src.parse.read ++ p.analyze.reports := by
    unfold StackPascal.allReports Parsing.reports
    rw [h, List.append_nil]
  rw [← hreports]
  by_cases hnone : allReports src.parse p.analyze = []
  · obtain ⟨_, _, _, _, _, _, hemitted⟩ := generate_spec (prepared h hnone)
    have hcompile : src.compile = .ofAnalysis p.analyze (src.parse.events ++ p.analyze.events) := by
      unfold compile
      dsimp only
      rw [h]
      exact if_pos (List.isEmpty_iff.mpr hnone)
    have hresult : src.compile.result =
        .ok (generate p.analyze.lift.defs p.analyze.lift.program).result := by
      rw [hcompile]
      unfold Compilation.ofAnalysis
      dsimp only
      rw [hemitted.error]
    have hdiagnostics : src.compile.diagnostics = [] := by
      unfold Compilation.diagnostics
      rw [hresult]
    rw [hdiagnostics, hnone]
    exact ⟨rfl, fun _ => rfl, fun _ => ⟨_, hresult⟩⟩
  · have hcompile : src.compile = .rejected (allReports src.parse p.analyze)
        (src.parse.events ++ p.analyze.events ++
          [.rejected (allReports src.parse p.analyze).length]) := by
      unfold compile
      dsimp only
      rw [h]
      exact if_neg (fun he => hnone (List.isEmpty_iff.mp he))
    rw [hcompile]
    refine ⟨rfl, fun ⟨m, hm⟩ => ?_, fun hd => ?_⟩
    · cases hm
    · exact absurd (List.map_eq_nil_iff.mp hd) hnone

theorem events_of_error (h : src.parse.result = .error r) :
    ∀ e ∈ src.parse.events, e.whileParsing := by
  intro e he
  unfold Parsing.events at he
  rw [h] at he
  rcases List.mem_append.mp he with he | he
  · obtain ⟨l, -, he⟩ := List.mem_flatMap.mp he
    unfold Lexeme.events at he
    rcases List.mem_append.mp he with he | he
    · obtain ⟨r, -, rfl⟩ := List.mem_map.mp he
      exact .inr rfl
    · split at he
      · cases he
      · obtain rfl := List.mem_singleton.mp he
        exact .inl rfl
  · obtain rfl := List.mem_singleton.mp he
    exact .inr rfl

/-- After a failed parse nothing else is done. -/
theorem compile_of_error (h : src.parse.result = .error r) :
    src.compile = .rejected (reportsOf src.parse.read ++ [r]) src.parse.events := by
  unfold compile Parsing.reports
  dsimp only
  rw [h]

end Source

/-- The parser reads the text while it parses. If it succeeds, it has reported the
problems that reading the whole text alone reports, in order; these and then semantic
ones are the diagnostics of the compilation, which succeeds exactly if there are none.
If it fails, it has reported the first of those problems; the diagnostics are these and
one syntactic one, and no later phase has run. -/
theorem diagnostics_in_phase_order (src : Source) :
    AllLexical src.reports ∧
    ∃ run, Parser.OnDemand Parser.program (Scanner.ofSource src) run ∧
      match run with
      | .ok p s =>
        src.parse.result = .ok p ∧ s.reports = src.reports ∧ AllSemantic p.analyze.reports ∧
          src.compile.diagnostics = (s.reports ++ p.analyze.reports).map Report.diagnostic ∧
          ((∃ m, src.compile.result = .ok m) ↔ src.compile.diagnostics = [])
      | .error r s =>
        src.parse.result = .error r ∧ s.reports <+: src.reports ∧
          r.problem.category = .syntactic ∧
          src.compile.result = .error (.diagnostics ((s.reports ++ [r]).map Report.diagnostic)) ∧
          ∀ e ∈ src.compile.events, e.whileParsing := by
  have hlexical : AllLexical src.reports := by
    intro r hr
    obtain ⟨l, hl, hr⟩ := List.mem_flatMap.mp hr
    exact Source.lexemesWithin_lexical _ src l hl r hr
  obtain ⟨run, hrun, hread, hall, hresult⟩ := src.parse_onDemand
  refine ⟨hlexical, run, hrun, ?_⟩
  cases run with
  | ok p s =>
    have hreports : s.reports = reportsOf src.parse.read := hread
    obtain ⟨hdiagnostics, hiff⟩ := Source.compile_of_ok hresult
    refine ⟨hresult, ?_, analyze_semantic p, ?_, hiff⟩
    · rw [hreports, Source.read_of_ok hresult, Source.reports]
    · rw [hreports, hdiagnostics]
  | error r s =>
    have hreports : s.reports = reportsOf src.parse.read := hread
    have hcompile := Source.compile_of_error hresult
    refine ⟨hresult, ⟨_, hall⟩, Source.syntactic_of_error hresult, ?_, ?_⟩
    · rw [hcompile, hreports]
      rfl
    · rw [hcompile]
      exact Source.events_of_error hresult

end StackPascal
