import StackPascal.Proofs.Code.Commands

/-!
What the builder has been told stays in the module.

* `Answers.static`, `Answers.routine`: statics and routines are found in the
  module as they were declared;
* `Answers.entry`: the entry stays as it was chosen;
* `handedOut`, `Answers.distinct`: no label is handed out twice.
-/

namespace StackPascal

/-- What of a routine is declared before its code. -/
def Routine.heading (r : Routine) : List ParamDecl × ValueType := (r.params, r.result)

namespace Builder

variable {b b' : Builder} {c : Call} {cs : List Call}

theorem headings_updateCurrent (b : Builder) {f : Routine → Routine}
    (hf : ∀ r, (f r).heading = r.heading) :
    (b.updateCurrent f).result.routines.map Routine.heading =
      b.result.routines.map Routine.heading := by
  unfold updateCurrent
  cases b.current with
  | none => rfl
  | some n =>
    refine List.ext_getElem? fun i => ?_
    simp only [List.getElem?_map, List.getElem?_modify]
    cases b.result.routines[i]? with
    | none => rfl
    | some r =>
      show some (if n = i then f r else r).heading = some r.heading
      split
      · rw [hf]
      · rfl

/-- A step adds statics and routines at the end. -/
theorem step_grows (b : Builder) (command : Command) :
    b.result.statics <+: (b.step command).2.result.statics ∧
      b.result.routines.map Routine.heading <+:
        (b.step command).2.result.routines.map Routine.heading := by
  cases command with
  | declareStatic name type => exact ⟨List.prefix_append _ _, List.prefix_refl _⟩
  | declareRoutine name params result =>
    refine ⟨List.prefix_refl _, ?_⟩
    simp only [step, declareRoutine, List.map_append]
    exact List.prefix_append _ _
  | declareLocal name type =>
    refine ⟨?_, ?_⟩
    · simp only [step, declareLocal, updateCurrent]
      cases b.current <;> exact List.prefix_refl _
    · simp only [step, declareLocal]
      refine ⟨[], (List.append_nil _).trans ?_⟩
      rw [headings_updateCurrent]
      exact fun r => rfl
  | emit i =>
    refine ⟨?_, ?_⟩
    · simp only [step, emit, updateCurrent]
      cases b.current <;> exact List.prefix_refl _
    · simp only [step, emit]
      refine ⟨[], (List.append_nil _).trans ?_⟩
      rw [headings_updateCurrent]
      exact fun r => rfl
  | endScope =>
    simp only [step, endScope]
    cases b.scopes <;> exact ⟨List.prefix_refl _, List.prefix_refl _⟩
  | _ => exact ⟨List.prefix_refl _, List.prefix_refl _⟩

/-- Only `setEntry` chooses the entry. -/
theorem step_entry (b : Builder) {command : Command} (h : ∀ f, command ≠ .setEntry f) :
    (b.step command).2.result.entry = b.result.entry := by
  cases command with
  | declareLocal name type =>
    simp only [step, declareLocal, updateCurrent]
    cases b.current <;> rfl
  | emit i =>
    simp only [step, emit, updateCurrent]
    cases b.current <;> rfl
  | endScope =>
    simp only [step, endScope]
    cases b.scopes <;> rfl
  | setEntry f => exact absurd rfl (h f)
  | _ => rfl

namespace Answers

theorem split {ds : List Call} : ∀ {cs : List Call} {b : Builder}, b.Answers (cs ++ ds) b' →
    ∃ mid, b.Answers cs mid ∧ mid.Answers ds b'
  | [], b, h => ⟨b, answers_nil.mpr rfl, h⟩
  | c :: cs, b, h => by
    obtain ⟨hreply, hrest⟩ := answers_cons.mp h
    obtain ⟨mid, hcs, hds⟩ := split hrest
    exact ⟨mid, answers_cons.mpr ⟨hreply, hcs⟩, hds⟩

theorem entry (h : b.Answers cs b') (hc : ∀ c ∈ cs, ∀ f, c.command ≠ .setEntry f) :
    b'.result.entry = b.result.entry := by
  induction cs generalizing b with
  | nil => rw [answers_nil.mp h]
  | cons c cs ih =>
    refine (ih (answers_cons.mp h).2 fun d hd => hc d (List.mem_cons_of_mem _ hd)).trans ?_
    exact b.step_entry (hc c (List.mem_cons_self ..))

theorem grows (h : b.Answers cs b') : b.result.statics <+: b'.result.statics ∧
    b.result.routines.map Routine.heading <+: b'.result.routines.map Routine.heading := by
  induction cs generalizing b with
  | nil =>
    rw [answers_nil.mp h]
    exact ⟨List.prefix_refl _, List.prefix_refl _⟩
  | cons c cs ih =>
    obtain ⟨hs, hr⟩ := b.step_grows c.command
    obtain ⟨hs', hr'⟩ := ih (answers_cons.mp h).2
    exact ⟨hs.trans hs', hr.trans hr'⟩

theorem static (h : b.Answers cs b') {name : String} {type : ValueType} {n : Nat}
    (hc : ⟨.declareStatic name type, .storage (.static n)⟩ ∈ cs) :
    b'.result.statics[n]? = some ⟨name, type⟩ := by
  induction cs generalizing b with
  | nil => cases hc
  | cons c cs ih =>
    obtain ⟨hreply, hrest⟩ := answers_cons.mp h
    rcases List.mem_cons.mp hc with rfl | hc
    · have hn : b.result.statics.length = n := by injection hreply with he; injection he
      obtain ⟨more, hmore⟩ := hrest.grows.1
      rw [← hmore, ← hn]
      simp [step, declareStatic]
    · exact ih hrest hc

theorem routine (h : b.Answers cs b') {name : String} {params : List ParamDecl} {result : ValueType}
    {f : RoutineId} (hc : ⟨.declareRoutine name params result, .routine f⟩ ∈ cs) :
    ∃ r, b'.result.routine? f = some r ∧ r.params = params ∧ r.result = result := by
  induction cs generalizing b with
  | nil => cases hc
  | cons c cs ih =>
    obtain ⟨hreply, hrest⟩ := answers_cons.mp h
    rcases List.mem_cons.mp hc with rfl | hc
    · have hn : (⟨b.result.routines.length⟩ : RoutineId) = f := by injection hreply
      have hhead : (b'.result.routines.map Routine.heading)[f.number]? = some (params, result) := by
        obtain ⟨more, hmore⟩ := hrest.grows.2
        rw [← hmore, ← hn]
        simp [step, declareRoutine, Routine.heading]
      rw [List.getElem?_map] at hhead
      obtain ⟨r, hr, he⟩ := Option.map_eq_some_iff.mp hhead
      exact ⟨r, hr, congrArg Prod.fst he, congrArg Prod.snd he⟩
    · exact ih hrest hc

end Answers

end Builder

/-! ## Labels -/

/-- The labels that the commands hand out. -/
def handedOut (cs : List Call) : List Label :=
  cs.filterMap fun c =>
    match c.reply with
    | .label l => some l
    | _ => none

theorem handedOut_append (cs ds : List Call) : handedOut (cs ++ ds) = handedOut cs ++ handedOut ds :=
  List.filterMap_append

namespace Builder

theorem step_label (b : Builder) (command : Command) :
    (∃ l, (b.step command).1 = .label l ∧ l.number = b.nextLabel ∧
      (b.step command).2.nextLabel = b.nextLabel + 1) ∨
      (∀ l, (b.step command).1 ≠ .label l) ∧ b.nextLabel ≤ (b.step command).2.nextLabel := by
  cases command with
  | newLabel => exact .inl ⟨_, rfl, rfl, rfl⟩
  | declareLocal name type =>
    refine .inr ⟨fun _ h => (by cases h), ?_⟩
    simp only [step, declareLocal, updateCurrent]
    cases b.current <;> exact Nat.le_refl _
  | emit i =>
    refine .inr ⟨fun _ h => (by cases h), ?_⟩
    simp only [step, emit, updateCurrent]
    cases b.current <;> exact Nat.le_refl _
  | endScope =>
    refine .inr ⟨fun _ h => (by cases h), ?_⟩
    simp only [step, endScope]
    cases b.scopes <;> exact Nat.le_refl _
  | _ => exact .inr ⟨fun _ h => (by cases h), Nat.le_refl _⟩

/-- Labels are handed out once, from the counter on. -/
theorem Answers.distinct {b b' : Builder} {cs : List Call} (h : b.Answers cs b') :
    (handedOut cs).Nodup ∧ ∀ l ∈ handedOut cs, b.nextLabel ≤ l.number := by
  induction cs generalizing b with
  | nil => exact ⟨List.nodup_nil, nofun⟩
  | cons c cs ih =>
    obtain ⟨hreply, hrest⟩ := answers_cons.mp h
    obtain ⟨hnodup, hle⟩ := ih hrest
    unfold handedOut at *
    rcases b.step_label c.command with ⟨l, hl, hnum, hnext⟩ | ⟨hno, hnext⟩
    · rw [List.filterMap_cons_some (by rw [← hreply, hl])]
      refine ⟨List.nodup_cons.mpr ⟨fun hm => ?_, hnodup⟩, fun k hk => ?_⟩
      · have := hle l hm
        omega
      · rcases List.mem_cons.mp hk with rfl | hk
        · exact Nat.le_of_eq hnum.symm
        · exact Nat.le_trans (by omega) (hle k hk)
    · rw [List.filterMap_cons_none]
      · exact ⟨hnodup, fun k hk => Nat.le_trans hnext (hle k hk)⟩
      · rw [← hreply]
        split
        · next l he => exact absurd he (hno l)
        · rfl

end Builder

end StackPascal
