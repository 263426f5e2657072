import Mathlib.Data.List.Basic
import StackPascal.Builder

/-!
Slots are never shared by live locals.

A local is live until the scope ends that it was declared in, or until a routine
is begun. The commands may come in any order: scopes may stay open or be ended
once too often, a routine may be begun again, and locals may be declared outside
of all routines.

* `Live`: the live locals scope by scope, read off the commands and their replies;
* `Stacked`: they have the slots below the counter, each scope those above the
  scopes around it; so it is after every command (`stacked_step`, `stacked_run`);
* `Matched`: commands that end the scopes they begin, and no others;
* `Routine.Measured`: the slots of a routine reach up to its highest local;
* `live_slots_distinct`: live locals have different slots, and every new local
  takes the lowest slot that is free.
-/

namespace StackPascal

/-! ## Live locals -/

/-- The commands, each with what the builder hands out for it. -/
def Builder.calls (b : Builder) : List Command → List Call
  | [] => []
  | c :: cs => ⟨c, (b.step c).1⟩ :: (b.step c).2.calls cs

/-- The slots that are handed out for locals. -/
def slotsTaken (cs : List Call) : List Nat :=
  cs.filterMap fun c =>
    match c.command, c.reply with
    | .declareLocal _ _, .storage (.slot n) => some n
    | _, _ => none

/-- The live locals of each open scope, the innermost scope and the newest local
first. The last list is for those outside of all scopes. -/
abbrev Live := List (List LocalDecl)

namespace Live

def step (live : Live) (call : Call) : Live :=
  match call.command, call.reply, live with
  | .beginRoutine _, _, _ => [[]]
  | .declareLocal name type, .storage (.slot n), locals :: outer =>
    (⟨n, name, type⟩ :: locals) :: outer
  | .beginScope, _, live => [] :: live
  | .endScope, _, _ :: locals :: outer => locals :: outer
  | _, _, live => live

def run (live : Live) (cs : List Call) : Live := cs.foldl step live

/-- What is live after the commands, from the beginning on. -/
def after (cs : List Command) : Live := run [[]] (Builder.empty.calls cs)

def slots (live : Live) : List Nat := live.flatten.map LocalDecl.slot

theorem run_append (live : Live) (cs ds : List Call) :
    live.run (cs ++ ds) = (live.run cs).run ds :=
  List.foldl_append

end Live

namespace Builder

theorem calls_append (b : Builder) (cs ds : List Command) :
    b.calls (cs ++ ds) = b.calls cs ++ (b.run cs).2.calls ds := by
  induction cs generalizing b with
  | nil => rfl
  | cons c cs ih => exact congrArg (_ :: ·) (ih (b.step c).2)

end Builder

/-! ## The counters of the builder -/

/-- The locals have the slots below `next`, in the order of their declarations;
`saved` holds the slots at which the open scopes begin. -/
inductive Stacked : Live → List Nat → Nat → Prop
  | outermost {locals : List LocalDecl} :
      locals.map LocalDecl.slot = (List.range' 0 locals.length).reverse →
      Stacked [locals] [] locals.length
  | inner {locals : List LocalDecl} {live : Live} {saved : List Nat} {next : Nat} :
      Stacked live saved next →
      locals.map LocalDecl.slot = (List.range' next locals.length).reverse →
      Stacked (locals :: live) (next :: saved) (next + locals.length)

namespace Stacked

variable {live : Live} {saved : List Nat} {next : Nat}

theorem slots_eq (h : Stacked live saved next) : live.slots = (List.range next).reverse := by
  induction h with
  | @outermost locals hl =>
    rw [Live.slots, List.flatten_cons, List.flatten_nil, List.append_nil, hl, List.range_eq_range']
  | @inner locals live saved next _ hl ih =>
    have hrange : List.range (next + locals.length) =
        List.range next ++ List.range' next locals.length := by
      rw [List.range_eq_range', List.range_eq_range', ← List.range'_append_1, Nat.zero_add]
    rw [Live.slots, List.flatten_cons, List.map_append, hl, hrange, List.reverse_append]
    exact congrArg (_ ++ ·) ih

/-- One more local takes the slot at the counter. -/
theorem declare {locals : List LocalDecl} (h : Stacked (locals :: live) saved next)
    (name : String) (type : ValueType) :
    Stacked ((⟨next, name, type⟩ :: locals) :: live) saved (next + 1) := by
  have hslots : ∀ n, locals.map LocalDecl.slot = (List.range' n locals.length).reverse →
      (⟨n + locals.length, name, type⟩ :: locals).map LocalDecl.slot =
        (List.range' n (locals.length + 1)).reverse := by
    intro n hl
    rw [List.map_cons, hl, List.range'_1_concat, List.reverse_append]
    rfl
  cases h with
  | outermost hl =>
    have h := hslots 0 hl
    rw [Nat.zero_add] at h
    exact .outermost h
  | inner hlive hl => exact .inner hlive (hslots _ hl)

theorem beginScope (h : Stacked live saved next) : Stacked ([] :: live) (next :: saved) next :=
  @inner [] _ _ _ h rfl

theorem ne_nil (h : Stacked live saved next) : live ≠ [] := by
  cases h <;> exact List.cons_ne_nil _ _

end Stacked

namespace Builder

variable (b : Builder)

@[simp] theorem scopes_updateCurrent (f : Routine → Routine) :
    (b.updateCurrent f).scopes = b.scopes := by
  unfold updateCurrent
  cases b.current <;> rfl

@[simp] theorem nextSlot_updateCurrent (f : Routine → Routine) :
    (b.updateCurrent f).nextSlot = b.nextSlot := by
  unfold updateCurrent
  cases b.current <;> rfl

end Builder

/-- Every command keeps the counters in step with the live locals. -/
theorem stacked_step {b : Builder} {live : Live} (h : Stacked live b.scopes b.nextSlot)
    (c : Command) :
    Stacked (live.step ⟨c, (b.step c).1⟩) (b.step c).2.scopes (b.step c).2.nextSlot := by
  cases c with
  | beginRoutine f => exact @Stacked.outermost [] rfl
  | declareLocal name type =>
    obtain ⟨locals, outer, rfl⟩ := List.exists_cons_of_ne_nil h.ne_nil
    simp only [Builder.step, Builder.declareLocal, Builder.scopes_updateCurrent,
      Builder.nextSlot_updateCurrent]
    exact h.declare name type
  | beginScope => exact h.beginScope
  | endScope =>
    rcases b with ⟨result, current, scopes, nextSlot, nextLabel⟩
    cases h with
    | outermost hl => exact .outermost hl
    | inner hlive _ =>
      obtain ⟨locals, outer, rfl⟩ := List.exists_cons_of_ne_nil hlive.ne_nil
      exact hlive
  | emit i =>
    simp only [Builder.step, Builder.emit, Builder.scopes_updateCurrent,
      Builder.nextSlot_updateCurrent]
    exact h
  | declareStatic name type => exact h
  | declareRoutine name params result => exact h
  | endRoutine => exact h
  | newLabel => exact h
  | setEntry f => exact h

theorem stacked_run (cs : List Command) : ∀ {b : Builder} {live : Live},
    Stacked live b.scopes b.nextSlot →
      Stacked (live.run (b.calls cs)) (b.run cs).2.scopes (b.run cs).2.nextSlot := by
  induction cs with
  | nil => exact fun h => h
  | cons c cs ih => exact fun h => ih (stacked_step h c)

theorem stacked_after (cs : List Command) :
    Stacked (.after cs) (Builder.empty.run cs).2.scopes (Builder.empty.run cs).2.nextSlot :=
  stacked_run cs (@Stacked.outermost [] rfl)

/-! ## Scopes that end -/

/-- The commands end every scope that they begin, and no other. -/
inductive Matched : List Command → Prop
  | nil : Matched []
  | scope {inner cs : List Command} : Matched inner → Matched cs →
      Matched (.beginScope :: (inner ++ .endScope :: cs))
  | other {c : Command} {cs : List Command} : c ≠ .beginScope → c ≠ .endScope →
      (∀ f, c ≠ .beginRoutine f) → Matched cs → Matched (c :: cs)

theorem slotsTaken_append (cs ds : List Call) :
    slotsTaken (cs ++ ds) = slotsTaken cs ++ slotsTaken ds :=
  List.filterMap_append

/-- The counter is the number of live locals. -/
theorem Stacked.next_eq {live : Live} {saved : List Nat} {next : Nat} (h : Stacked live saved next) :
    next = live.flatten.length := by
  have hlength := congrArg List.length h.slots_eq
  rw [Live.slots, List.length_map, List.length_reverse, List.length_range] at hlength
  exact hlength.symm

/-- Other commands leave all scopes open, and may add a local to the innermost one. -/
theorem Live.step_other (b : Builder) {c : Command} (hb : c ≠ .beginScope) (he : c ≠ .endScope)
    (hr : ∀ f, c ≠ .beginRoutine f) (locals : List LocalDecl) (outer : Live) :
    (∃ new, Live.step (locals :: outer) ⟨c, (b.step c).1⟩ = (new ++ locals) :: outer) ∧
      ∀ n ∈ slotsTaken [⟨c, (b.step c).1⟩], n = b.nextSlot := by
  cases c with
  | beginRoutine f => exact absurd rfl (hr f)
  | beginScope => exact absurd rfl hb
  | endScope => exact absurd rfl he
  | declareLocal name type =>
    exact ⟨⟨[⟨b.nextSlot, name, type⟩], rfl⟩, fun n hn => List.mem_singleton.mp hn⟩
  | _ => exact ⟨⟨[], rfl⟩, nofun⟩

/-- A scope and what is done in it leave nothing behind. -/
theorem Live.run_scope {b : Builder} {locals new : List LocalDecl} {outer : Live}
    {inner : List Command}
    (h : Live.run ([] :: locals :: outer) (b.beginScope.calls inner) = new :: locals :: outer) :
    Live.run (locals :: outer) (b.calls (.beginScope :: (inner ++ [.endScope]))) =
      locals :: outer := by
  show Live.run ([] :: locals :: outer) (b.beginScope.calls (inner ++ [.endScope])) = _
  rw [Builder.calls_append, run_append, h]
  rfl

/-- Nothing ends that was live before, and no slot of it is handed out. -/
theorem Matched.live {cs : List Command} (h : Matched cs) :
    ∀ {b : Builder} {locals : List LocalDecl} {outer : Live},
      Stacked (locals :: outer) b.scopes b.nextSlot →
      (∃ new, Live.run (locals :: outer) (b.calls cs) = (new ++ locals) :: outer) ∧
        ∀ n ∈ slotsTaken (b.calls cs), b.nextSlot ≤ n := by
  induction h with
  | nil => exact fun _ => ⟨⟨[], rfl⟩, nofun⟩
  | @scope inner cs _ _ ihInner ihCs =>
    intro b locals outer h
    obtain ⟨⟨new, hinner⟩, htaken⟩ := ihInner (b := b.beginScope) h.beginScope
    rw [List.append_nil] at hinner
    have hscope := Live.run_scope hinner
    have hclosed := stacked_run (.beginScope :: (inner ++ [.endScope])) h
    rw [hscope] at hclosed
    obtain ⟨⟨more, hcs⟩, hrest⟩ := ihCs hclosed
    rw [hclosed.next_eq, ← h.next_eq] at hrest
    have hsplit : Command.beginScope :: (inner ++ .endScope :: cs) =
        (.beginScope :: (inner ++ [.endScope])) ++ cs := by simp
    rw [hsplit, Builder.calls_append]
    refine ⟨⟨more, ?_⟩, fun n hn => ?_⟩
    · rw [Live.run_append, hscope]
      exact hcs
    · rcases List.mem_append.mp (slotsTaken_append .. ▸ hn) with hn | hn
      · have hcalls : b.calls (.beginScope :: (inner ++ [.endScope])) =
            ⟨.beginScope, .done⟩ :: (b.beginScope.calls inner ++ [⟨.endScope, .done⟩]) :=
          congrArg (_ :: ·) (b.beginScope.calls_append inner [.endScope])
        rw [hcalls] at hn
        have hn : n ∈ slotsTaken (b.beginScope.calls inner) := by
          simpa [slotsTaken] using hn
        exact htaken n hn
      · exact hrest n hn
  | @other c cs hb he hr _ ih =>
    intro b locals outer h
    obtain ⟨⟨new, hstep⟩, hnew⟩ := Live.step_other b hb he hr locals outer
    have hafter := stacked_step h c
    rw [hstep] at hafter
    obtain ⟨⟨more, hcs⟩, hrest⟩ := ih hafter
    have hmono : b.nextSlot ≤ (b.step c).2.nextSlot := by
      rw [h.next_eq, hafter.next_eq]
      simp
    refine ⟨⟨more ++ new, ?_⟩, fun n hn => ?_⟩
    · show Live.run (Live.step (locals :: outer) _) _ = _
      rw [hstep, List.append_assoc]
      exact hcs
    · rcases List.mem_append.mp ((slotsTaken_append [⟨c, (b.step c).1⟩] _) ▸ hn) with hn | hn
      · exact Nat.le_of_eq (hnew n hn).symm
      · exact Nat.le_trans hmono (hrest n hn)

/-- The end of a scope gives back what was live at its beginning, and with it every
slot that has been taken since. -/
theorem Live.after_scope {inner : List Command} (h : Matched inner) (before : List Command) :
    Live.after (before ++ .beginScope :: (inner ++ [.endScope])) = .after before ∧
      ∀ n ∈ slotsTaken ((Builder.empty.run before).2.beginScope.calls inner),
        n ∉ (Live.after before).slots := by
  have hbefore := stacked_after before
  obtain ⟨locals, outer, hlive⟩ := List.exists_cons_of_ne_nil hbefore.ne_nil
  have hopen := hbefore
  rw [hlive] at hopen
  obtain ⟨⟨new, hinner⟩, htaken⟩ :=
    h.live (b := (Builder.empty.run before).2.beginScope) hopen.beginScope
  rw [List.append_nil] at hinner
  refine ⟨?_, fun n hn hmem => ?_⟩
  · have hscope := Live.run_scope hinner
    rw [← hlive] at hscope
    rw [after, Builder.calls_append, run_append]
    exact hscope
  · rw [hbefore.slots_eq, List.mem_reverse, List.mem_range] at hmem
    exact Nat.lt_irrefl _ (Nat.lt_of_lt_of_le hmem (htaken n hn))

/-! ## The slots of a routine -/

/-- The routine has no locals and no slots, or the slots up to that of its highest
local. -/
def Routine.Measured (r : Routine) : Prop :=
  r.locals = [] ∧ r.slots = 0 ∨
    ∃ l ∈ r.locals, r.slots = l.slot + 1 ∧ ∀ l' ∈ r.locals, l'.slot ≤ l.slot

/-- What holds of all routines still does if the one that is changed keeps it. -/
theorem forall_updateCurrent {p : Routine → Prop} {b : Builder} {f : Routine → Routine}
    (hf : ∀ r, p r → p (f r)) (h : ∀ r ∈ b.result.routines, p r) :
    ∀ r ∈ (b.updateCurrent f).result.routines, p r := by
  unfold Builder.updateCurrent
  cases b.current with
  | none => exact h
  | some n =>
    intro r hr
    obtain ⟨i, hi⟩ := List.mem_iff_getElem?.mp hr
    rw [List.getElem?_modify] at hi
    obtain ⟨r', hr', rfl⟩ := Option.map_eq_some_iff.mp hi
    have hkept := h r' (List.mem_of_getElem? hr')
    split
    · exact hf r' hkept
    · exact hkept

namespace Routine.Measured

variable {r : Routine}

theorem lt_slots (h : r.Measured) : ∀ l ∈ r.locals, l.slot < r.slots := by
  rcases h with ⟨hnone, _⟩ | ⟨top, _, hslots, hle⟩
  · rw [hnone]
    exact nofun
  · exact fun l hl => hslots ▸ Nat.lt_succ_of_le (hle l hl)

theorem declare (h : r.Measured) (l : LocalDecl) :
    Measured { r with slots := max r.slots (l.slot + 1), locals := r.locals ++ [l] } := by
  have hbelow := h.lt_slots
  by_cases hle : r.slots ≤ l.slot + 1
  · refine .inr ⟨l, List.mem_append_right _ (List.mem_singleton_self l), Nat.max_eq_right hle, ?_⟩
    refine List.forall_mem_append.mpr ⟨fun l' hl' => ?_, List.forall_mem_singleton.mpr (Nat.le_refl _)⟩
    exact Nat.le_of_lt_succ (Nat.lt_of_lt_of_le (hbelow l' hl') hle)
  · rcases h with ⟨_, hzero⟩ | ⟨top, htop, hslots, hmax⟩
    · exact absurd (hzero ▸ Nat.zero_le _) hle
    · refine .inr ⟨top, List.mem_append_left _ htop, ?_, ?_⟩
      · exact (Nat.max_eq_left (Nat.le_of_not_le hle)).trans hslots
      · refine List.forall_mem_append.mpr ⟨hmax, List.forall_mem_singleton.mpr ?_⟩
        have hlow := Nat.le_of_not_le hle
        rw [hslots] at hlow
        exact Nat.le_of_succ_le_succ hlow

end Routine.Measured

theorem measured_step {b : Builder} (h : ∀ r ∈ b.result.routines, r.Measured) (c : Command) :
    ∀ r ∈ (b.step c).2.result.routines, r.Measured := by
  cases c with
  | declareRoutine name params result =>
    exact List.forall_mem_append.mpr ⟨h, List.forall_mem_singleton.mpr (.inl ⟨rfl, rfl⟩)⟩
  | declareLocal name type =>
    exact forall_updateCurrent (fun r hr => hr.declare ⟨b.nextSlot, name, type⟩) h
  | emit i => exact forall_updateCurrent (fun r hr => hr) h
  | endScope =>
    simp only [Builder.step, Builder.endScope]
    cases b.scopes <;> exact h
  | _ => exact h

theorem measured_run (cs : List Command) : ∀ {b : Builder},
    (∀ r ∈ b.result.routines, r.Measured) → ∀ r ∈ (b.run cs).2.result.routines, r.Measured := by
  induction cs with
  | nil => exact fun h => h
  | cons c cs ih => exact fun h => ih (measured_step h c)

/-! ## Any sequence of commands -/

/-- Whatever the commands, live locals have different slots, and the next local takes
the lowest slot that none of them has. The end of a scope frees the slots taken since
its beginning, and no others; if no scope is open it changes nothing. The slots of a
routine are those up to its highest local, or none if it has no locals. -/
theorem live_slots_distinct (cs : List Command) :
    (Live.after cs).slots.Nodup ∧
    (∀ name type, ∃ n, ((Builder.empty.run cs).2.declareLocal name type).1 = .slot n ∧
      ∀ m, m < n ↔ m ∈ (Live.after cs).slots) ∧
    (∀ before inner, cs = before ++ .beginScope :: (inner ++ [.endScope]) → Matched inner →
      Live.after cs = Live.after before ∧
        ∀ n ∈ slotsTaken ((Builder.empty.run before).2.beginScope.calls inner),
          n ∉ (Live.after cs).slots) ∧
    (∀ locals, Live.after cs = [locals] →
      (Builder.empty.run cs).2.endScope = (Builder.empty.run cs).2) ∧
    ∀ r ∈ (Builder.empty.run cs).2.result.routines, r.Measured := by
  have hcs := stacked_after cs
  refine ⟨?_, fun name type => ⟨_, rfl, fun m => ?_⟩, ?_, fun locals hl => ?_, measured_run cs nofun⟩
  · rw [hcs.slots_eq]
    exact (List.reverse_perm _).nodup_iff.mpr List.nodup_range
  · rw [hcs.slots_eq, List.mem_reverse, List.mem_range]
  · rintro before inner rfl hinner
    obtain ⟨hlive, hfree⟩ := Live.after_scope hinner before
    exact ⟨hlive, hlive.symm ▸ hfree⟩
  · rw [hl] at hcs
    generalize (Builder.empty.run cs).2 = b at hcs ⊢
    rcases b with ⟨result, current, scopes, nextSlot, nextLabel⟩
    cases hcs with
    | outermost _ => rfl
    | inner hlive _ => exact absurd rfl hlive.ne_nil

theorem live_slots_distinct_nested :
    let before : List Command := [.endScope, .beginRoutine ⟨0⟩, .declareLocal "x" .int]
    let inner : List Command :=
      [.declareLocal "y" .int, .beginScope, .declareLocal "z" .real, .endScope]
    let cs := before ++ .beginScope :: (inner ++ [.endScope])
    Matched inner ∧ Live.after cs = [[⟨0, "x", .int⟩]] ∧ Live.after cs = Live.after before ∧
      slotsTaken ((Builder.empty.run before).2.beginScope.calls inner) = [1, 2] ∧
      (∀ n ∈ [1, 2], n ∉ (Live.after cs).slots) ∧
      (Builder.empty.run cs).2.endScope = (Builder.empty.run cs).2 := by
  intro before inner cs
  have hmatched : Matched inner :=
    .other (by decide) (by decide) nofun
      (@Matched.scope [.declareLocal "z" .real] [] (.other (by decide) (by decide) nofun .nil) .nil)
  obtain ⟨-, -, hscope, hunopened, -⟩ := live_slots_distinct cs
  obtain ⟨hlive, hfree⟩ := hscope before inner rfl hmatched
  exact ⟨hmatched, rfl, hlive, rfl, hfree, hunopened [⟨0, "x", .int⟩] rfl⟩

end StackPascal
