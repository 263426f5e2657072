import Mathlib.Algebra.Order.BigOperators.Group.List
import Mathlib.Algebra.Order.Ring.Nat
import StackPascal.Proofs.Walk.Program

/-!
Captures closed under the calls.

A round that adds nothing leaves captures that are closed: whoever calls a
callable owns or captures what it captures. Every other round adds a pair of
definitions, and there are only so many pairs, so the bound on the rounds is
never the reason to stop.

* `Supplied`: what rounds may change;
* `World.Closed`: the callers have what their callees capture;
* `Supply.Loops`: going through the calls until nothing changes;
* `supplyAll_loops`, `Supply.Loops.closure`: that is what `supplyAll` does, and it
  gives closed captures.
-/

namespace StackPascal

variable {outer : DefId → List DefId} {calls : List (DefId × DefId)} {s t u : Supply}

/-- Whoever calls a callable owns or captures what the callable captures. -/
def World.Closed (w : World) : Prop :=
  ∀ f g, (f, g) ∈ w.calls → ∀ v ∈ w.defs.capturesOf g,
    w.defs.owner v = some f ∨ v ∈ w.defs.capturesOf f

/-! ## The number of captures -/

namespace Defs

/-- The number of pairs of a callable and a variable that it captures. -/
def captureCount (ds : Defs) : Nat := (ds.ids.map fun id => (ds.capturesOf id).length).sum

theorem captureCount_addCapture {ds : Defs} {f v : DefId} (h : ds.lacksCapture f v = true) :
    ds.captureCount < (ds.addCapture f v).captureCount := by
  have hids : (ds.addCapture f v).ids = ds.ids := by
    have hz := size_addCapture ds f v
    unfold size at hz
    unfold ids
    rw [hz]
  have hlen : ∀ id, ((ds.addCapture f v).capturesOf id).length =
      (ds.capturesOf id).length + if id = f then 1 else 0 := by
    intro id
    rw [capturesOf_addCapture]
    by_cases hid : id = f
    · simp [hid, h]
    · simp [hid]
  unfold captureCount
  rw [hids]
  refine List.sum_lt_sum _ _ (fun id _ => ?_) ⟨f, ?_, ?_⟩
  · rw [hlen]
    exact Nat.le_add_right _ _
  · exact mem_ids.mpr (lt_size_of_callable? (lacksCapture_iff.mp h).1)
  · rw [hlen, if_pos rfl]
    exact Nat.lt_succ_self _

end Defs

/-- In a consistent world there are at most as many captures as pairs. -/
theorem World.Consistent.captureCount_le {w : World} (h : w.Consistent) :
    w.defs.captureCount ≤ w.defs.size * w.defs.size := by
  have hle : ∀ f, (w.defs.capturesOf f).length ≤ w.defs.size := by
    intro f
    have hsub : w.defs.capturesOf f ⊆ w.defs.ids := fun v hv =>
      Defs.mem_ids.mpr (h.range f v (h.captured f v hv).1)
    have hl := (h.nodup f).length_le_of_subset hsub
    simpa [Defs.ids, Defs.size] using hl
  have hsum := List.sum_le_card_nsmul (w.defs.ids.map fun id => (w.defs.capturesOf id).length)
    w.defs.size (fun n hn => by
      obtain ⟨id, _, rfl⟩ := List.mem_map.mp hn
      exact hle id)
  simpa [Defs.captureCount, Defs.ids, Defs.size] using hsum

/-! ## Steps -/

/-- From `s` to `t` some captures have been added, at least one if `changed`
has come to be true. -/
structure Supplied (outer : DefId → List DefId) (calls : List (DefId × DefId)) (s t : Supply) :
    Prop where
  consistent : World.Consistent ⟨t.defs, calls, outer⟩
  grows : s.defs.Grows t.defs
  size : t.defs.size = s.defs.size
  events : s.events <:+ t.events
  count : s.defs.captureCount ≤ t.defs.captureCount
  news : t.changed = true → s.changed = true ∨ s.defs.captureCount < t.defs.captureCount

namespace Supplied

theorem refl (h : World.Consistent ⟨s.defs, calls, outer⟩) : Supplied outer calls s s :=
  ⟨h, .refl _, rfl, List.suffix_refl _, Nat.le_refl _, .inl⟩

theorem trans (h : Supplied outer calls s t) (k : Supplied outer calls t u) :
    Supplied outer calls s u where
  consistent := k.consistent
  grows := h.grows.trans k.grows
  size := k.size.trans h.size
  events := h.events.trans k.events
  count := Nat.le_trans h.count k.count
  news hu := by
    rcases k.news hu with ht | hlt
    · rcases h.news ht with hs | hlt
      · exact .inl hs
      · exact .inr (Nat.lt_of_lt_of_le hlt k.count)
    · exact .inr (Nat.lt_of_le_of_lt h.count hlt)

end Supplied

namespace Supply

theorem one_supplied (h : World.Consistent ⟨s.defs, calls, outer⟩) {f g v : DefId}
    (hfg : (f, g) ∈ calls) (hv : v ∈ s.defs.capturesOf g) :
    Supplied outer calls s (one f g s v) := by
  unfold one
  split
  · next hc =>
    simp only [Bool.and_eq_true, decide_eq_true_eq] at hc
    obtain ⟨hout, hvar, ho⟩ := h.captured g v hv
    obtain ⟨_, _, hnear⟩ := h.called f g hfg
    have hin : v ∈ outer f := by
      obtain hn | hn | hn := hnear v hout hvar
      · exact absurd hn ho
      · exact absurd hn hc.1
      · exact hn
    have hlt := Defs.captureCount_addCapture hc.2
    exact ⟨h.addCapture hin hvar ho hc.2, .addCapture _ _ _, Defs.size_addCapture ..,
      List.suffix_cons _ _, hlt.le, fun _ => .inr hlt⟩
  · exact .refl h

theorem call_supplied (h : World.Consistent ⟨s.defs, calls, outer⟩) {c : DefId × DefId}
    (hc : c ∈ calls) : Supplied outer calls s (s.call c) := by
  -- captures are only added, so those of the callee at the start remain
  have hfold : ∀ (vs : List DefId) (t : Supply), Supplied outer calls s t →
      vs ⊆ s.defs.capturesOf c.2 → Supplied outer calls s (vs.foldl (one c.1 c.2) t) := by
    intro vs
    induction vs with
    | nil => exact fun t ht _ => ht
    | cons v vs ih =>
      intro t ht hvs
      obtain ⟨hv, hvs⟩ := List.cons_subset.mp hvs
      exact ih _ (ht.trans (one_supplied ht.consistent hc (ht.grows.captures _ hv))) hvs
  exact hfold _ s (.refl h) fun _ hv => hv

theorem round_supplied (h : World.Consistent ⟨s.defs, calls, outer⟩) :
    Supplied outer calls { s with changed := false } (round calls s) := by
  have hfold : ∀ (cs : List (DefId × DefId)) (t : Supply),
      Supplied outer calls { s with changed := false } t → cs ⊆ calls →
      Supplied outer calls { s with changed := false } (cs.foldl call t) := by
    intro cs
    induction cs with
    | nil => exact fun t ht _ => ht
    | cons c cs ih =>
      intro t ht hcs
      obtain ⟨hc, hcs⟩ := List.cons_subset.mp hcs
      exact ih _ (ht.trans (call_supplied ht.consistent hc)) hcs
  exact hfold calls _ (.refl h) fun _ hc => hc

/-! ## A round without news -/

/-- Steps that say when they change something, and end without having done so,
have all done nothing. -/
theorem foldl_unchanged {α : Type} {step : Supply → α → Supply}
    (hstep : ∀ s a, (step s a).changed = false → step s a = s) (as : List α) :
    ∀ s : Supply, (as.foldl step s).changed = false →
      as.foldl step s = s ∧ ∀ a ∈ as, step s a = s := by
  induction as with
  | nil => exact fun s _ => ⟨rfl, nofun⟩
  | cons a as ih =>
    intro s hs
    obtain ⟨hrest, hall⟩ := ih (step s a) hs
    have ha : step s a = s := hstep s a (by rw [← hrest]; exact hs)
    refine ⟨hrest.trans ha, List.forall_mem_cons.mpr ⟨ha, fun b hb => ?_⟩⟩
    have hb := hall b hb
    rwa [ha] at hb

theorem one_unchanged {f g : DefId} (s : Supply) (v : DefId) (h : (one f g s v).changed = false) :
    one f g s v = s := by
  unfold one at h ⊢
  split at h
  · cases h
  · next hc => rw [if_neg hc]

theorem call_unchanged (s : Supply) (c : DefId × DefId) (h : (s.call c).changed = false) :
    s.call c = s :=
  (foldl_unchanged (fun s v => one_unchanged s v) _ s h).1

theorem closed_of_unchanged (h : World.Consistent ⟨s.defs, calls, outer⟩)
    (hr : (round calls s).changed = false) :
    World.Closed ⟨(round calls s).defs, calls, outer⟩ := by
  obtain ⟨hrest, hall⟩ := foldl_unchanged call_unchanged calls _ hr
  have hdefs : (round calls s).defs = s.defs := by
    unfold round
    rw [hrest]
  rw [hdefs]
  intro f g hfg v hv
  have hcall := hall (f, g) hfg
  obtain ⟨_, hone⟩ := foldl_unchanged (fun t v => one_unchanged (f := f) (g := g) t v)
    (s.defs.capturesOf g) { s with changed := false } (by
      show (Supply.call { s with changed := false } (f, g)).changed = false
      rw [hcall])
  have hv := congrArg Supply.changed (hone v hv)
  refine Classical.byContradiction fun hn => ?_
  obtain ⟨ho, hc⟩ := not_or.mp hn
  have hl : s.defs.lacksCapture f v = true :=
    Defs.lacksCapture_iff.mpr ⟨(h.called f g hfg).1, hc⟩
  have hcond : (decide (s.defs.owner v ≠ some f) && s.defs.lacksCapture f v) = true := by
    simp only [Bool.and_eq_true, decide_eq_true_eq]
    exact ⟨ho, hl⟩
  unfold one at hv
  rw [if_pos hcond] at hv
  cases hv

/-- `t` comes from `s` by closing the captures under the calls. -/
structure Closure (outer : DefId → List DefId) (calls : List (DefId × DefId)) (s t : Supply) :
    Prop where
  consistent : World.Consistent ⟨t.defs, calls, outer⟩
  grows : s.defs.Grows t.defs
  size : t.defs.size = s.defs.size
  events : s.events <:+ t.events
  closed : World.Closed ⟨t.defs, calls, outer⟩

/-- Going through the calls until a round changes nothing. -/
inductive Loops (calls : List (DefId × DefId)) : Supply → Supply → Prop
  | last {s : Supply} : (round calls s).changed = false → Loops calls s (round calls s)
  | again {s t : Supply} :
      (round calls s).changed = true → Loops calls (round calls s) t → Loops calls s t

/-- The bound on the rounds is not what ends them. -/
theorem rounds_loops (n : Nat) : ∀ {s : Supply}, World.Consistent ⟨s.defs, calls, outer⟩ →
    s.defs.size * s.defs.size < n + s.defs.captureCount → Loops calls s (rounds calls n s) := by
  induction n with
  | zero =>
    intro s h hn
    rw [Nat.zero_add] at hn
    exact absurd hn (Nat.not_lt_of_le h.captureCount_le)
  | succ n ih =>
    intro s h hn
    have hr := round_supplied h
    have hz : (round calls s).defs.size = s.defs.size := hr.size
    unfold rounds
    dsimp only
    cases hc : (round calls s).changed with
    | false => exact .last hc
    | true =>
      have hlt : s.defs.captureCount < (round calls s).defs.captureCount := by
        rcases hr.news hc with hf | hlt
        · cases hf
        · exact hlt
      exact .again hc (ih hr.consistent (by rw [hz]; omega))

theorem Loops.closure (h : Loops calls s t) (hs : World.Consistent ⟨s.defs, calls, outer⟩) :
    Closure outer calls s t := by
  induction h with
  | last hc =>
    have hr := round_supplied hs
    exact ⟨hr.consistent, hr.grows, hr.size, hr.events, closed_of_unchanged hs hc⟩
  | again _ _ ih =>
    have hr := round_supplied hs
    have hrest := ih hr.consistent
    exact ⟨hrest.consistent, hr.grows.trans hrest.grows, hrest.size.trans hr.size,
      hr.events.trans hrest.events, hrest.closed⟩

end Supply

theorem supplyAll_loops {ds : Defs} (events : List Event)
    (h : World.Consistent ⟨ds, calls, outer⟩) :
    Supply.Loops calls ⟨ds, events, false⟩ (supplyAll calls ds events) := by
  refine Supply.rounds_loops _ h ?_
  show ds.size * ds.size < ds.size * ds.size + 1 + ds.captureCount
  omega

/-! ## The analysis -/

namespace Analysis

def world (a : Analysis) (outer : DefId → List DefId) : World := ⟨a.defs, a.calls, outer⟩

/-- What is known of an analysed program, whether or not it has been reported. -/
structure Sound (outer : DefId → List DefId) (a : Analysis) : Prop where
  grows : ∃ name, (Analyze.start name).defs.Grows a.defs
  consistent : (a.world outer).Consistent
  closed : (a.world outer).Closed
  listsParams : a.defs.ListsParams
  main : a.program.main = Analyze.mainId
  within : ∀ r ∈ a.program.routines, (a.world outer).ScopedRoutine r
  routine : ∀ r ∈ a.program.routines, ∃ info, a.defs.callable? r.1 = some info ∧ info.intrinsic = none
  count : (TypedStmt.routinesIn a.program.body).length < a.defs.size
  program : a.defs.IsProgram a.program.main
  nested : ∀ r ∈ TypedStmt.routinesIn a.program.body, r.1 ≠ a.program.main
  callables : a.defs.callables =
    ⟨0⟩ :: ⟨3⟩ :: ⟨4⟩ :: (TypedStmt.routinesIn a.program.body).map Prod.fst

/-- What is known of it if nothing has been reported. -/
structure Typed (a : Analysis) : Prop where
  solid : a.defs.Solid
  bodies : ∀ r ∈ a.program.routines, TypedStmt.WellTypedIn a.defs r.1 r.2

end Analysis

theorem Resolved.consistent_reverse {p : Program} {tp : TypedProgram} {s : Progress}
    (h : Resolved outer p tp s) : World.Consistent ⟨s.defs, s.calls.reverse, outer⟩ :=
  h.consistent.extend rfl rfl (fun _ => rfl) (fun _ => rfl) (fun _ => rfl) (fun _ => rfl)
    h.consistent.captured h.consistent.nodup
    fun f g hfg => h.consistent.called f g (List.mem_reverse.mp hfg)

theorem Resolved.closure {p : Program} {tp : TypedProgram} {s : Progress}
    (h : Resolved outer p tp s) :
    Supply.Closure outer s.calls.reverse ⟨s.defs, s.events, false⟩
      (supplyAll s.calls.reverse s.defs s.events) :=
  (supplyAll_loops s.events h.consistent_reverse).closure h.consistent_reverse

section Reports

/-- Steps that report nothing, one after another, report nothing. -/
theorem reportsIn_foldl {α : Type} {step : Supply → α → Supply}
    (hstep : ∀ s a, reportsIn (step s a).events = reportsIn s.events) (as : List α) :
    ∀ s : Supply, reportsIn (as.foldl step s).events = reportsIn s.events := by
  induction as with
  | nil => exact fun _ => rfl
  | cons a as ih => exact fun s => (ih _).trans (hstep s a)

theorem reportsIn_round (s : Supply) :
    reportsIn (Supply.round calls s).events = reportsIn s.events := by
  have hone : ∀ (f g : DefId) (s : Supply) (v : DefId),
      reportsIn (Supply.one f g s v).events = reportsIn s.events := by
    intro f g s v
    unfold Supply.one
    split <;> rfl
  exact reportsIn_foldl (fun s c => reportsIn_foldl (hone c.1 c.2) _ s) calls _

theorem reportsIn_rounds (n : Nat) : ∀ s : Supply,
    reportsIn (Supply.rounds calls n s).events = reportsIn s.events := by
  induction n with
  | zero => exact fun _ => rfl
  | succ n ih =>
    intro s
    unfold Supply.rounds
    dsimp only
    split
    · exact (ih _).trans (reportsIn_round s)
    · exact reportsIn_round s

/-- All problems are reported before the captures are closed. -/
theorem reports_analyze (p : Program) : p.analyze.reports =
    (reportsIn (Analyze.annotateProgram p).2.events).reverse := by
  show reportsIn (supplyAll _ _ _).events.reverse = _
  rw [reportsIn, List.filterMap_reverse]
  exact congrArg List.reverse (reportsIn_rounds _ _)

theorem analyze_reports_iff (p : Program) :
    p.analyze.reports = [] ↔ (Analyze.annotateProgram p).2.Quiet 0 := by
  unfold Progress.Quiet Progress.reportCount
  rw [reports_analyze, List.reverse_eq_nil_iff, Nat.le_zero, List.length_eq_zero_iff]

end Reports

theorem analyze_spec (p : Program) :
    ∃ outer, p.analyze.Sound outer ∧
      (Stmt.NamedIn p.body → p.analyze.reports = [] → p.analyze.Typed) ∧
      ∀ c ∈ p.callSites, c.Reached 0 (p.analyze.world outer) := by
  obtain ⟨outer, hr⟩ := annotateProgram_spec p
  let s := (Analyze.annotateProgram p).2
  have hc := hr.closure
  have hsig := hc.grows.signature_eq hc.size
  have hext : (s.world outer).Extends (p.analyze.world outer) :=
    ⟨hc.grows, fun _ h => List.mem_reverse.mpr h, fun _ _ => rfl⟩
  refine ⟨outer, ⟨⟨p.name, hr.grows.trans hc.grows⟩, hc.consistent, hc.closed,
    hr.listsParams.congr hsig, rfl, fun r hmem => ?_, fun r hmem => ?_, ?_, hr.main.grow hc.grows,
    hr.nested, (hc.grows.callables_eq hc.size).trans hr.callables⟩,
    fun hn hquiet => ⟨?_, fun r hmem => ?_⟩, fun c hsite => (hr.sites c hsite).later hext⟩
  · exact hext.scopedRoutine (hr.routines r hmem).within
  · obtain ⟨info, hi, hnone⟩ := (hr.routines r hmem).routine
    obtain ⟨info', hi', hh⟩ := hc.grows.callable hi
    exact ⟨info', hi', (CallableInfo.intrinsic_of_heading hh).trans hnone⟩
  · exact Nat.lt_of_lt_of_le hr.count hc.grows.size_le
  · exact fun id d hd => hr.solid hn id d ((hsig id).symm.trans hd)
  · have hq := (analyze_reports_iff p).mp hquiet
    obtain ⟨info, hi, _⟩ := (hr.routines r hmem).routine
    exact ((hr.routines r hmem).typed hq (hr.solid hn)).grow hc.grows
      (Defs.lt_size_of_callable? (by rw [hi]; rfl))

end StackPascal
