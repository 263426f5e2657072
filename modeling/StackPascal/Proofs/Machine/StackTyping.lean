import StackPascal.Proofs.Machine.Routines
import StackPascal.Proofs.Machine.Statement

/-!
Compiled code is typed as stack code.

* `Enters.flow`: the operands along a whole routine;
* `compile_stackTyped`: every routine of a compiled module is stack typed.
-/

namespace StackPascal

open Gen

namespace Enters

variable {own : Bool} {m : CodeModule} {c : GenContext} {p : TypedProgram} {b : RoutineId × List Call}
  {r : Routine} {f : DefId} {body : List TypedStmt} {ids : List DefId} {L : Layout}

theorem fits (_ : Enters m c p b r f body ids L) :
    (Frame.start.run (variablesCalls c (constantCode c) L ids)).Fits (L.reserveAll c ids) :=
  (Frame.reaches_variables (fun _ => rfl) ids (Frame.fits_start L)).fits

/-- The constants are set, the block leaves nothing, and the zero value is
returned if nothing has been returned by then. -/
theorem flow (h : Enters m c p b r f body ids L) (hp : Prepared c.defs p) (hm : c.HeadedIn m)
    (hown : own = true → m.entry = some b.1) : ∃ τ, Flow own m r .start [] b.2 τ := by
  have hd := h.declared
  rw [h.calls] at hd ⊢
  have hconstants : Flow own m r .start [] (variablesCalls c (constantCode c) L ids) [] := by
    refine flow_variables (fun _ => rfl) ids (Frame.fits_start L) (.refl _)
      (fun id hid => (Defs.global_of_constant (h.constants hid)).2) (fun id hid fr' _ _ => ?_)
      (hd.mono (List.subset_append_left _ _))
    rw [hp.constants id (h.constants hid)]
    exact .one (.pushBool _) []
  have hblock : Flow own m r _ [] ((TypedStmt.block body).calls c f (L.reserveAll c ids)) [] :=
    flow_calls hm h.result (.block body) (hp.closed _ h.member) (hp.typed _ h.member) h.fits
      (hd.mono fun _ hin => by simp [bodyCalls, hin]) (h.agrees own hown)
  have hreturn := hp.result _ h.member
  rw [← h.result] at hreturn
  rw [bodyCalls, ← h.result]
  exact ⟨[], hconstants.append (hblock.append (flow_return hreturn))⟩

theorem ends (h : Enters m c p b r f body ids L) : ∃ is, instrs b.2 = is ++ [.ret] := by
  rw [h.calls, bodyCalls, ← List.append_assoc, emits_append, ← List.append_assoc, instrs_append]
  exact ⟨_, rfl⟩

end Enters

/-- Every instruction of a compiled routine finds the operands it takes. -/
theorem compile_stackTyped {text : String} {m : CodeModule} (h : compile text = .ok m) :
    ∀ b ∈ bodies (compiledCalls text), ∃ r, m.routine? b.1 = some r ∧
      ∃ stack, StackTyped m r (codeOf b.2) stack := by
  obtain ⟨c, p, hp, hm, _, henters⟩ := compiled_enters h
  intro b hb
  obtain ⟨r, f, body, ids, L, hr⟩ := henters b hb
  obtain ⟨τ, hflow⟩ : ∃ τ, Flow false m r .start [] b.2 τ := hr.flow hp hm nofun
  refine ⟨r, hr.routine, hflow.stackTyped ?_ fun i hi l hl => ?_⟩
  · exact hr.ends
  · exact (hr.segment.targets i hi l hl).resolve_left List.not_mem_nil

theorem compile_stackTyped_loop :
    let text := "program p; begin var x : int; while x < 3 do x := x + 1; writeln(x) end."
    ∃ m, compile text = .ok m ∧ ∀ b ∈ bodies (compiledCalls text), ∃ r, m.routine? b.1 = some r ∧
      ∃ stack, StackTyped m r (codeOf b.2) stack := by
  intro text
  have hok : (compile text).isOk = true := by decide +kernel
  obtain ⟨m, hm⟩ : ∃ m, compile text = .ok m := by
    cases h : compile text with
    | ok m => exact ⟨m, rfl⟩
    | error e => rw [h] at hok; cases hok
  exact ⟨m, hm, compile_stackTyped hm⟩

end StackPascal
