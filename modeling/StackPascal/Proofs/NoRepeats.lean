import StackPascal.Proofs.Lexing.Reports
import StackPascal.Proofs.PhaseOrder
import StackPascal.Proofs.Walk.Repeats

/-!
No problem is reported twice.

* `SaysDifferently.nodup`: reports that differ where they stand at the same place are
  different diagnostics;
* `Source.read_saysDifferently`: the reports of the lexemes that a parse has read do so;
* `diagnostics_nodup`: the diagnostics of a compilation are all different.
-/

namespace StackPascal

/-- At the same place the reports say different things. -/
def SaysDifferently (rs : List Report) : Prop :=
  rs.Pairwise fun earlier later =>
    later.pos = earlier.pos → later.problem.message ≠ earlier.problem.message

theorem SaysDifferently.nodup {rs : List Report} (h : SaysDifferently rs) :
    (rs.map Report.diagnostic).Nodup := by
  refine List.pairwise_map.mpr (h.imp fun hne he => ?_)
  exact hne (congrArg Diagnostic.pos he).symm (congrArg Diagnostic.message he).symm

/-- Reports of different phases are different diagnostics. -/
theorem nodup_append_of_category {rs more : List Report} {c : Category} (hrs : SaysDifferently rs)
    (hmore : SaysDifferently more) (hc : ∀ r ∈ rs, r.problem.category = c)
    (hd : ∀ r ∈ more, r.problem.category ≠ c) :
    ((rs ++ more).map Report.diagnostic).Nodup := by
  rw [List.map_append]
  refine List.nodup_append.mpr ⟨hrs.nodup, hmore.nodup, fun d hd₁ e he₁ heq => ?_⟩
  obtain ⟨r, hr, rfl⟩ := List.mem_map.mp hd₁
  obtain ⟨q, hq, rfl⟩ := List.mem_map.mp he₁
  exact hd q hq ((congrArg Diagnostic.category heq).symm.trans (hc r hr))

/-- What is read for a parse is read from the beginning of the text. -/
theorem Source.read_begins (src : Source) : src.parse.read <+: src.lexemes := by
  have hread : src.parse.read = src.lexemes.take 1 ++ (src.lexemes.drop 1).take
      ((src.lexemes.drop 1).length - src.text.parse.2.list.length) := rfl
  rw [hread, ← List.take_add]
  exact List.take_prefix ..

/-- After a failed parse, its diagnostics are those of the parse. -/
theorem Source.diagnostics_of_error {src : Source} {r : Report} (h : src.parse.result = .error r) :
    src.compile.diagnostics = (reportsOf src.parse.read ++ [r]).map Report.diagnostic := by
  rw [compile_of_error h]
  rfl

/-- No two problems of a text stand at the same place. -/
theorem Source.read_saysDifferently (text : String) :
    SaysDifferently (reportsOf (Source.ofString text).parse.read) := by
  have hread := (Source.ofString text).read_begins
  have hall := Source.reports_pairwise text
  generalize (Source.ofString text).parse.read = read at hread ⊢
  obtain ⟨unread, hread⟩ := hread
  rw [← hread, reportsOf, List.flatMap_append] at hall
  refine (List.pairwise_append.mp hall).1.imp fun {earlier later} hlt he => ?_
  rw [he] at hlt
  exact absurd hlt (Position.lt_irrefl earlier.pos)

/-- The diagnostics of a text are all different, in position, category or message. Those
of the analysis are about expressions that have not been reported before, and after one
at some place, another follows there only if the first is about an argument of a call. -/
theorem diagnostics_nodup (text : String) :
    (compilation text).diagnostics.Nodup ∧
      ∀ p, (Source.ofString text).parse.result = .ok p →
        (∀ r ∈ p.analyze.reports, r.Typed) ∧
        p.analyze.reports.Pairwise fun earlier later =>
          later.pos = earlier.pos → earlier.aboutArgument = true := by
  have hlexical := (Source.ofString text).read_lexical
  have hread := Source.read_saysDifferently text
  have hnoted : ∀ p, (Source.ofString text).parse.result = .ok p →
      Noted p.places p.analyze.reports.reverse := fun p hp => analyze_noted (places_nodup hp)
  constructor
  · cases hp : (Source.ofString text).parse.result with
    | error r =>
      have hsyntactic := Source.syntactic_of_error hp
      rw [compilation, Source.diagnostics_of_error hp]
      refine nodup_append_of_category hread (List.pairwise_singleton _ _) hlexical ?_
      intro q hq
      rw [List.mem_singleton.mp hq, hsyntactic]
      decide
    | ok p =>
      have hfollow := List.pairwise_reverse.mp (hnoted p hp).follow
      rw [compilation, (Source.compile_of_ok hp).1]
      refine nodup_append_of_category hread (hfollow.imp fun h he => (h he).2) hlexical ?_
      intro q hq
      rw [analyze_semantic p q hq]
      decide
  · intro p hp
    refine ⟨fun r hr => (hnoted p hp).typed r (List.mem_reverse.mpr hr), ?_⟩
    exact (List.pairwise_reverse.mp (hnoted p hp).follow).imp fun h he => (h he).1

end StackPascal
