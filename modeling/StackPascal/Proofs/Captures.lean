import Mathlib.Logic.Relation
import StackPascal.Proofs.Supply

/-!
Captures stay within lexical reach.

What a callable captures was visible where the callable was declared, so a
callable around it owns it. Whoever calls the callable stands where the callable
is visible, and there everything is visible that was visible at its declaration.

* `Defs.Within`: a callable is declared, at some depth, in another one;
* `World.Consistent.owner_encloses`: what was visible at a callable belongs to
  one around it;
* `CallSite.Sees`: a variable has been declared in a scope that is open at the
  call;
* `captures_within_reach`: both for the captures of an analysed program.
-/

namespace StackPascal

/-- The callable `f` is declared in the body of `o`, or in a callable declared
there, and so on. -/
def Defs.Within (ds : Defs) : DefId → DefId → Prop :=
  Relation.TransGen fun f o => ds.parentOf f = some o

/-- The variable has been declared by the time of the call, in a scope that is
open then. -/
def CallSite.Sees (c : CallSite) (ds : Defs) (v : DefId) : Prop :=
  v.number < c.before.defs.size ∧
    ∃ b ∈ c.before.scopes.bindings, b.value = v ∧ b.scope ∈ c.before.scopes.openScopes ∧
      ds.scopeOf? v = some b.scope

namespace World

variable {w : World}

theorem Consistent.lt_of_within (h : w.Consistent) {f o : DefId} (hf : w.defs.Within f o) :
    o.number < f.number := by
  induction hf with
  | single hp => exact h.parents _ _ hp
  | tail _ hp ih => exact Nat.lt_trans (h.parents _ _ hp) ih

/-- The owner of a variable that was visible where `f` was declared encloses `f`. -/
theorem Consistent.owner_encloses (h : w.Consistent) {f v : DefId} (hv : v ∈ w.outer f)
    (hvar : w.defs.isVariable v = true) (ho : w.defs.owner v ≠ none) :
    ∃ o, w.defs.owner v = some o ∧ w.defs.Within f o := by
  obtain ⟨g, hp, hnear⟩ := h.around f v hv hvar
  obtain hn | hg | hout := hnear
  · exact absurd hn ho
  · exact ⟨g, hg, .single hp⟩
  · -- the callable around `f` saw the variable already, and has a smaller number
    have hlt := h.parents f g hp
    obtain ⟨o, hvo, hin⟩ := h.owner_encloses hout hvar ho
    exact ⟨o, hvo, .head hp hin⟩
termination_by f.number

end World

/-- At a call everything is visible that was visible where the callee was declared. -/
theorem CallSite.Reached.sees {base : Nat} {w : World} {c : CallSite} (h : c.Reached base w)
    {v : DefId} (hv : v ∈ w.outer c.callee) : c.Sees w.defs v := by
  obtain ⟨s, outer, hs, hat, hkeep, houter⟩ := h
  rw [houter _ (hs.range _ hat.callee)] at hv
  have hvis := hs.callables _ hat.callee hat.callable hv
  have hlt := hs.range v hvis
  obtain ⟨b, hb, rfl⟩ := List.mem_map.mp hvis
  obtain ⟨hopen, hscope⟩ := hs.bound b hb
  refine ⟨hat.size ▸ hlt, b, hat.scopes ▸ hb, rfl, hat.scopes ▸ hopen, ?_⟩
  rw [hkeep.scope _ hlt, hscope]

/-- A variable is captured only by callables inside its owner. At a call the
captures of the callee are at hand in the caller: it captures them too, or owns
them and has declared them where the call stands. -/
theorem captures_within_reach (p : Program) :
    (∀ f, ∀ v ∈ p.analyze.defs.capturesOf f,
      ∃ o, p.analyze.defs.owner v = some o ∧ p.analyze.defs.Within f o ∧ o ≠ f) ∧
    p.analyze.defs.capturesOf p.analyze.program.main = [] ∧
    p.analyze.calls = p.callSites.map CallSite.call ∧
    ∀ c ∈ p.callSites, ∀ v ∈ p.analyze.defs.capturesOf c.callee,
      (v ∈ p.analyze.defs.capturesOf c.caller ∨ p.analyze.defs.owner v = some c.caller) ∧
      c.Sees p.analyze.defs v := by
  obtain ⟨outer, h, _, hsites⟩ := analyze_spec p
  have hw := h.consistent
  refine ⟨fun f v hv => ?_, ?_, calls_annotateProgram p, fun c hc v hv => ?_⟩
  · obtain ⟨hout, hvar, ho⟩ := hw.captured f v hv
    obtain ⟨o, hvo, hin⟩ := hw.owner_encloses hout hvar ho
    exact ⟨o, hvo, hin, fun he => Nat.lt_irrefl _ (he ▸ hw.lt_of_within hin)⟩
  · rw [h.main]
    refine List.eq_nil_iff_forall_not_mem.mpr fun v hv => ?_
    have hout : v ∈ outer Analyze.mainId := (hw.captured _ v hv).1
    rw [show outer Analyze.mainId = [] from hw.mainOuter] at hout
    cases hout
  · have hcalls : p.analyze.calls = p.callSites.map CallSite.call := calls_annotateProgram p
    have hcall : c.call ∈ p.analyze.calls := hcalls ▸ List.mem_map_of_mem hc
    exact ⟨(h.closed _ _ hcall v hv).symm, (hsites c hc).sees (hw.captured _ v hv).1⟩

end StackPascal
