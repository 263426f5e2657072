import StackPascal.Proofs.CleanAnalysis
import StackPascal.Proofs.Legality.Statement

/-!
The analysis accepts exactly the legal programs.

A program of which nothing is reported obeys the rules of scope and type, and
about a program that obeys them nothing is reported.
-/

namespace StackPascal

open Analyze

theorem layered_start (name : Ident) : (start name).scopes.Layered where
  order := List.pairwise_singleton ..
  below id hid := by
    cases List.mem_singleton.mp hid
    exact Nat.zero_lt_succ _
  layers := by
    show [(start name).scopes.layer .predefined].flatten = (start name).scopes.bindings
    rw [List.flatten_cons, List.flatten_nil, List.append_nil]
    exact List.filter_eq_self.mpr fun b hb => by
      iterate 4
        rcases List.mem_cons.mp hb with rfl | hb
        · rfl
      cases hb

theorem located_start (name : Ident) :
    Located (fun _ => []) 0 mainId (after enterScope (start name)) :=
  ⟨tidy_start name, (layered_start name).enter⟩

/-- The program starts in an empty scope inside that of the predefined names. -/
theorem context_start (name : Ident) :
    (after enterScope (start name)).context = [[], predefinedScope] := by
  refine (Progress.context_enter (layered_start name)).trans (congrArg (List.cons []) ?_)
  rfl

theorem returning_start (name : Ident) :
    Returning 0 mainId (after enterScope (start name)) none :=
  ⟨fun _ => rfl, nofun⟩

/-! ## Settled programs can be told -/

instance decidableSizesApart (name : String) : ∀ ps : List Param, Decidable (SizesApart name ps)
  | [] => .isTrue trivial
  | p :: ps =>
    have := decidableSizesApart name ps
    inferInstanceAs (Decidable (name ∉ p.type.callees ∧ (p.name.text = name ∨ SizesApart name ps)))

namespace Stmt

mutual

instance decidableSettled : ∀ st : Stmt, Decidable st.Settled
  | callable h _ body =>
    have := decidableSettledIn body
    inferInstanceAs (Decidable (SizesApart h.name.text h.params ∧ SettledIn body))
  | ifThen _ yes _ => decidableSettled yes
  | ifElse _ yes no _ =>
    have := decidableSettled yes
    have := decidableSettled no
    inferInstanceAs (Decidable (Settled yes ∧ Settled no))
  | whileDo _ body _ => decidableSettled body
  | block _ body => decidableSettledIn body
  | declare _ _ _ | assign _ _ | call _ _ | ret _ _ | assert _ _ => .isTrue trivial

instance decidableSettledIn : ∀ sts : List Stmt, Decidable (SettledIn sts)
  | [] => .isTrue trivial
  | s :: ss =>
    have := decidableSettled s
    have := decidableSettledIn ss
    inferInstanceAs (Decidable (Settled s ∧ SettledIn ss))

end

end Stmt

/-! ## The program -/

/-- Nothing is reported about a program that can be parsed exactly if it obeys
the rules of scope and type. -/
theorem reports_eq_nil_iff_legal {src : Source} {p : Program} (h : src.parse.result = .ok p)
    (hs : Stmt.SettledIn p.body) : p.analyze.reports = [] ↔ p.Legal := by
  have hverdict := annotateStmts_judged p.body (Source.named_of_parse h) hs (fun _ => []) mainId
    none (located_start p.name) (returning_start p.name)
  rw [context_start] at hverdict
  have hquiet : (after enterScope (start p.name)).Quiet 0 := Nat.le_refl 0
  rw [analyze_reports_iff]
  exact ⟨fun hq => (hverdict.mp hq).2, fun hl => hverdict.mpr ⟨hquiet, hl⟩⟩

theorem reports_eq_nil_iff_legal_entry :
    let text := "program p; begin " ++
      "function at(var a : array [2] of int, n : int) : real; begin return a[n] end; " ++
      "var b : array [3] of int; read(b[0]); writeln(-at(b, b.size)) end."
    ∃ p, (Source.ofString text).parse.result = .ok p ∧ Stmt.SettledIn p.body ∧
      p.analyze.reports = [] ∧ p.Legal := by
  intro text
  have hclean : ((Source.ofString text).parse.result.toOption.map fun p =>
      (p.analyze.reports, decide (Stmt.SettledIn p.body))) = some ([], true) := by
    decide +kernel
  cases hp : (Source.ofString text).parse.result with
  | error r => rw [hp] at hclean; cases hclean
  | ok p =>
    rw [hp] at hclean
    obtain ⟨hr, hs⟩ := Prod.mk.inj (Option.some.inj hclean)
    have hs := of_decide_eq_true hs
    exact ⟨p, rfl, hs, hr, (reports_eq_nil_iff_legal hp hs).mp hr⟩

end StackPascal
