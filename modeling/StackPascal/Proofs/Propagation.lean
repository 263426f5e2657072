import StackPascal.Proofs.Supply
import StackPascal.Proofs.Walk.Lookups

/-!
Captures are what is used along calls, and nothing else.

* `Defs.UsedAlong`: some callables call each other one after the other, the last
  one uses a variable, and it belongs to none of them;
* `Supply.Derived`: rounds append to the captures, and only such variables;
* `UsedAlong.captured`: closed captures have all of them;
* `captures_along_calls`: the captures of an analysed program.
-/

namespace StackPascal

open Analyze

/-- From `f` on each callable calls the next of `fs`. The variable is looked up
in the last one, and belongs to a callable that is none of them. -/
structure Defs.UsedAlong (ds : Defs) (calls us : List (DefId × DefId)) (f : DefId)
    (fs : List DefId) (v : DefId) : Prop where
  chain : List.IsChain (fun g h => (g, h) ∈ calls) (f :: fs)
  used : ((f :: fs).getLast (List.cons_ne_nil f fs), v) ∈ us
  owner : ∃ o, ds.owner v = some o ∧ o ∉ f :: fs

section

variable {ds : Defs} {calls us : List (DefId × DefId)} {f g v : DefId} {fs : List DefId}

theorem Defs.UsedAlong.direct (h : v ∈ ds.foreign us f) : ds.UsedAlong calls us f [] v := by
  obtain ⟨hused, o, howner, hne⟩ := mem_foreign.mp h
  exact ⟨.singleton f, hused, o, howner, by simpa using hne⟩

theorem Defs.UsedAlong.congr {es : Defs} (h : ds.UsedAlong calls us f fs v)
    (howner : ∀ id, es.owner id = ds.owner id) : es.UsedAlong calls us f fs v := by
  obtain ⟨hchain, hused, o, ho, hnot⟩ := h
  exact ⟨hchain, hused, o, (howner v).trans ho, hnot⟩

/-- What is used along the calls of the callee is used along those of the caller. -/
theorem Defs.UsedAlong.call (h : ds.UsedAlong calls us g fs v) (hcall : (f, g) ∈ calls)
    (hne : ds.owner v ≠ some f) : ds.UsedAlong calls us f (g :: fs) v := by
  obtain ⟨hchain, hused, o, howner, hnot⟩ := h
  refine ⟨.cons_cons hcall hchain, hused, o, howner, ?_⟩
  rintro hmem
  rcases List.mem_cons.mp hmem with rfl | hmem
  · exact hne howner
  · exact hnot hmem

namespace Supply

/-- From `ds` on captures have been appended, all of them used along calls. -/
structure Derived (ds : Defs) (calls us : List (DefId × DefId)) (s : Supply) : Prop where
  owner : ∀ id, s.defs.owner id = ds.owner id
  front : ∀ f, ds.capturesOf f <+: s.defs.capturesOf f
  along : ∀ f, ∀ v ∈ s.defs.capturesOf f, ∃ fs, ds.UsedAlong calls us f fs v

variable {s t : Supply}

theorem Derived.one (h : Derived ds calls us s) (hcall : (f, g) ∈ calls)
    (hv : ∃ fs, ds.UsedAlong calls us g fs v) : Derived ds calls us (one f g s v) := by
  unfold Supply.one
  split
  · next hc =>
    simp only [Bool.and_eq_true, decide_eq_true_eq] at hc
    refine ⟨fun id => ?_, fun k => ?_, fun k w hw => ?_⟩
    · exact (Defs.owner_congr (Defs.signature?_addCapture ..) (Defs.main_addCapture ..)).trans
        (h.owner id)
    · show _ <+: (s.defs.addCapture f v).capturesOf k
      rw [Defs.capturesOf_addCapture]
      split
      · next hk => exact hk.1 ▸ (h.front f).trans (List.prefix_append _ _)
      · exact h.front k
    · have hw : w ∈ (s.defs.addCapture f v).capturesOf k := hw
      rw [Defs.capturesOf_addCapture] at hw
      split at hw
      · next hk =>
        obtain rfl := hk.1
        rcases List.mem_append.mp hw with hw | hw
        · exact h.along k w hw
        · obtain rfl := List.mem_singleton.mp hw
          obtain ⟨fs, hfs⟩ := hv
          exact ⟨g :: fs, hfs.call hcall (h.owner w ▸ hc.1)⟩
      · exact h.along k w hw
  · exact h

theorem Derived.call (h : Derived ds calls us s) {c : DefId × DefId} (hc : c ∈ calls) :
    Derived ds calls us (s.call c) :=
  -- the captures of the callee are taken before any is added
  List.foldlRecOn (s.defs.capturesOf c.2) (Supply.one c.1 c.2) h fun _ ht v hv =>
    ht.one hc (h.along c.2 v hv)

theorem Derived.round (h : Derived ds calls us s) : Derived ds calls us (round calls s) :=
  List.foldlRecOn calls Supply.call (b := { s with changed := false })
    ⟨h.owner, h.front, h.along⟩ fun _ ht _ hc => ht.call hc

theorem Loops.derived (h : Loops calls s t) (hs : Derived ds calls us s) :
    Derived ds calls us t := by
  induction h with
  | last _ => exact hs.round
  | again _ _ ih => exact ih hs.round

end Supply

/-- Closed captures that have what is used directly have all that is used along calls. -/
theorem Defs.UsedAlong.captured {es : Defs} {outer : DefId → List DefId}
    (hclosed : World.Closed ⟨es, calls, outer⟩) (howner : ∀ id, es.owner id = ds.owner id)
    (hdirect : ∀ f, ∀ v ∈ ds.foreign us f, v ∈ es.capturesOf f)
    (h : ds.UsedAlong calls us f fs v) : v ∈ es.capturesOf f := by
  induction fs generalizing f with
  | nil =>
    obtain ⟨-, hused, o, ho, hne⟩ := h
    exact hdirect f v (mem_foreign.mpr ⟨hused, o, ho, by simpa using hne⟩)
  | cons g fs ih =>
    obtain ⟨hchain, hused, o, ho, hnot⟩ := h
    obtain ⟨hcall, hchain⟩ := List.isChain_cons_cons.mp hchain
    have hin : v ∈ es.capturesOf g :=
      ih ⟨hchain, hused, o, ho, fun hmem => hnot (List.mem_cons_of_mem f hmem)⟩
    rcases hclosed f g hcall v hin with hself | hcaptured
    · have hof : some o = some f := (ho.symm.trans (howner v).symm).trans hself
      exact absurd (Option.some.inj hof ▸ List.mem_cons_self) hnot
    · exact hcaptured

end

/-- Going through the calls ends. Then a callable has captured, each once, just the
variables that are used along calls from it on and belong to none of the callables
on the way; first come those that it uses itself, in the order of their first use. -/
theorem captures_along_calls (p : Program) :
    (∃ t, Supply.Loops p.analyze.calls
        ⟨(annotateProgram p).2.defs, (annotateProgram p).2.events, false⟩ t ∧
      t.defs = p.analyze.defs) ∧
    ∀ f, (p.analyze.defs.capturesOf f).Nodup ∧
      (∀ v, v ∈ p.analyze.defs.capturesOf f ↔
        ∃ fs, p.analyze.defs.UsedAlong p.analyze.calls p.lookups f fs v) ∧
      (p.analyze.defs.foreign p.lookups f).eraseDups <+: p.analyze.defs.capturesOf f := by
  obtain ⟨outer, hr⟩ := annotateProgram_spec p
  have huses := uses_annotateProgram p
  have hloops := supplyAll_loops (annotateProgram p).2.events hr.consistent_reverse
  have hclosure := hloops.closure hr.consistent_reverse
  have hstart : Supply.Derived (annotateProgram p).2.defs p.analyze.calls p.lookups
      ⟨(annotateProgram p).2.defs, (annotateProgram p).2.events, false⟩ := by
    refine ⟨fun _ => rfl, fun _ => List.prefix_refl _, fun f v hv => ⟨[], .direct ?_⟩⟩
    have hv : v ∈ (annotateProgram p).2.defs.capturesOf f := hv
    rwa [huses.captures, List.mem_eraseDups] at hv
  have hend := hloops.derived hstart
  have howner : ∀ id, p.analyze.defs.owner id = (annotateProgram p).2.defs.owner id := hend.owner
  refine ⟨⟨_, hloops, rfl⟩, fun f => ?_⟩
  have hfront : ((annotateProgram p).2.defs.foreign p.lookups f).eraseDups <+:
      p.analyze.defs.capturesOf f := huses.captures f ▸ hend.front f
  refine ⟨hclosure.consistent.nodup f, fun v => ⟨fun hv => ?_, fun ⟨fs, hfs⟩ => ?_⟩, ?_⟩
  · obtain ⟨fs, hfs⟩ := hend.along f v hv
    exact ⟨fs, hfs.congr howner⟩
  · refine hfs.captured hclosure.closed (fun _ => rfl) fun g w hw => ?_
    rw [Defs.foreign_congr fun u _ => howner u.2, ← List.mem_eraseDups, ← huses.captures] at hw
    exact (hend.front g).subset hw
  · rwa [Defs.foreign_congr fun u _ => howner u.2]

end StackPascal
