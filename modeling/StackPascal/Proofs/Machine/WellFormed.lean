import Mathlib.Data.List.Nodup
import StackPascal.Proofs.Machine.Assembly
import StackPascal.Proofs.Machine.Paths
import StackPascal.Proofs.Machine.StackTyping

/-!
Compiled modules are closed.

* `Routine.WellFormed`: a routine ends with a return, and what its instructions
  name is there;
* `CodeModule.WellFormed`: every routine is begun once, and is well formed;
* `compile_wellFormed`: so it is in a compiled module, which has a routine for
  every callable of the program.
-/

namespace StackPascal

open Gen

/-! ## Well-formed modules -/

/-- The storage is there for an instruction with the frame `fr`: a static, a
parameter, or a slot that a variable of an open scope has. -/
def Storage.Exists (m : CodeModule) (r : Routine) (fr : Frame) : Storage → Prop
  | static n => n < m.statics.length
  | arg n => n < r.params.length
  | slot n => n < r.slots ∧ ∃ v, fr.current (.slot n) = some v

/-- All labels that are placed in the module. -/
def CodeModule.labels (m : CodeModule) : List Label :=
  m.routines.flatMap fun r => r.code.filterMap Instr.label?

/-- The routine has the code of the commands `body`. It ends with a return, and
jumps to labels that it places and that are placed nowhere else; the routines it
calls and the storage it uses are there. -/
structure Routine.WellFormed (m : CodeModule) (r : Routine) (body : List Call) : Prop where
  code : r.code = instrs body
  ends : r.code.getLast? = some .ret
  targets : ∀ i ∈ r.code, ∀ l, i.target? = some l → .label l ∈ r.code ∧ m.labels.count l = 1
  calls : ∀ f, .call f ∈ r.code → ∃ callee, m.routine? f = some callee
  storage : ∀ site ∈ codeOf body, ∀ s, site.instr.storage? = some s → s.Exists m r site.frame

/-- The routines are numbered as they stand, one of them is the entry, and each
is begun once; what is begun last ends first; and all routines are well formed. -/
structure CodeModule.WellFormed (m : CodeModule) (calls : List Call) : Prop where
  numbered : ∀ (n : Nat) (r : Routine), m.routines[n]? = some r → r.id = ⟨n⟩
  entry : ∃ r, m.entryRoutine? = some r
  begun : ((bodies calls).map Prod.fst).Perm (m.routines.map Routine.id)
  nested : nests none calls = some none
  routines : ∀ b ∈ bodies calls, ∃ r, m.routine? b.1 = some r ∧ r.WellFormed m b.2

/-! ## Variables -/

/-- An instruction brings no new variable. -/
theorem Frame.mem_vars_execute {fr : Frame} {v : Variable} {i : Instr} (h : v ∈ (fr.execute i).vars) :
    ∃ w ∈ fr.vars, w.storage = v.storage := by
  rcases mem_execute h with hold | ⟨_, w, _, hw, _, rfl⟩
  · exact ⟨v, hold, rfl⟩
  · exact ⟨w, (mem_of_current hw).1, rfl⟩

/-- A variable has been there, or is declared. -/
theorem Frame.mem_vars_step {fr : Frame} {v : Variable} {c : Call} (h : v ∈ (fr.step c).vars) :
    (∃ w ∈ fr.vars, w.storage = v.storage) ∨ ∃ name type, c.Declares name type v.storage := by
  rcases c with ⟨command, reply⟩
  unfold step at h
  split at h
  · next name type s hc hr =>
    rcases List.mem_cons.mp h with rfl | h
    · exact .inr ⟨name, type, congr (congrArg Call.mk hc) hr ▸ .static name type s⟩
    · exact .inl ⟨v, h, rfl⟩
  · next name type s hc hr =>
    rcases List.mem_cons.mp h with rfl | h
    · exact .inr ⟨name, type, congr (congrArg Call.mk hc) hr ▸ .slot name type s⟩
    · exact .inl ⟨v, h, rfl⟩
  · exact .inl ⟨v, h, rfl⟩
  · exact .inl ⟨v, mem_endScope h, rfl⟩
  · exact .inl (mem_vars_execute h)
  · exact .inl ⟨v, h, rfl⟩

/-- What a routine has at an instruction it had before, or has declared. -/
theorem declared_of_site {site : Site} {v : Variable} : ∀ {cs : List Call} {fr : Frame},
    site ∈ sites fr cs → v ∈ site.frame.vars →
    (∃ w ∈ fr.vars, w.storage = v.storage) ∨
      ∃ c ∈ cs, ∃ name type, c.Declares name type v.storage
  | c :: cs, fr, hs, hv => by
    have hrest : site ∈ sites (fr.step c) cs → (∃ w ∈ fr.vars, w.storage = v.storage) ∨
        ∃ d ∈ c :: cs, ∃ name type, d.Declares name type v.storage := fun hs => by
      rcases declared_of_site hs hv with ⟨w, hw, he⟩ | ⟨d, hd, hdeclares⟩
      · rcases Frame.mem_vars_step hw with hold | hnew
        · exact .inl (he ▸ hold)
        · exact .inr ⟨c, List.mem_cons_self .., he ▸ hnew⟩
      · exact .inr ⟨d, List.mem_cons_of_mem _ hd, hdeclares⟩
    rw [sites] at hs
    split at hs
    · rcases List.mem_cons.mp hs with rfl | hs
      · exact .inl ⟨v, hv, rfl⟩
      · exact hrest hs
    · exact hrest hs

/-- A slot that a variable has was handed out to the routine. -/
theorem Segment.slot_declared {ls ks : List Label} {cs : List Call} (h : Segment ls ks cs)
    {site : Site} (hs : site ∈ codeOf cs) {v : Variable} {n : Nat}
    (hv : site.frame.current (.slot n) = some v) :
    ∃ name type, ⟨.declareLocal name type, .storage (.slot n)⟩ ∈ cs := by
  obtain ⟨hmem, hstorage⟩ := Frame.mem_of_current hv
  rcases declared_of_site hs hmem with ⟨w, hw, _⟩ | ⟨c, hc, name, type, hdeclares⟩
  · cases hw
  · rw [hstorage] at hdeclares
    cases hdeclares with
    | static => cases h.code _ hc
    | slot => exact ⟨name, type, hc⟩

/-! ## Labels -/

section Labels

variable {p : TypedProgram} {g : Generated} {c : GenContext} {heads : List Call} {entry : RoutineId}
  {L : Layout} {rest : List (Layout × DefId × List TypedStmt)}

theorem handedOut_routine (f : RoutineId) (cs ds : List Call) :
    handedOut (⟨.beginRoutine f, .done⟩ :: (cs ++ ⟨.endRoutine, .done⟩ :: ds)) =
      handedOut cs ++ handedOut ds :=
  handedOut_append cs (⟨.endRoutine, .done⟩ :: ds)

theorem handedOut_queue (c : GenContext) : ∀ rest : List (Layout × DefId × List TypedStmt),
    handedOut (rest.flatMap (routineCalls c)) =
      rest.flatMap fun q => handedOut (bodyCalls c q.2.1 q.1 q.2.2)
  | [] => rfl
  | q :: rest => by
    rw [List.flatMap_cons, routineCalls, List.cons_append, List.append_assoc, List.singleton_append,
      handedOut_routine, handedOut_queue c rest, List.flatMap_cons]

/-- Labels are handed out within the routines. -/
theorem Emitted.handedOut_eq (h : Emitted p g c heads entry L rest) :
    handedOut g.calls = (bodies g.calls).flatMap fun b => handedOut b.2 := by
  have hheads : handedOut heads = [] := by
    rw [h.headed.calls]
    refine List.filterMap_eq_nil_iff.mpr fun d hd => ?_
    obtain ⟨e, _, rfl⟩ := List.mem_map.mp hd
    rfl
  rw [h.bodies_eq, h.calls, handedOut_append, hheads, List.nil_append, List.flatMap_cons,
    List.flatMap_map, ← handedOut_queue]
  exact handedOut_routine entry _ _

theorem Emitted.id_eq (h : Emitted p g c heads entry L rest) {n : Nat} {r : Routine}
    (hr : g.result.routines[n]? = some r) : r.id = ⟨n⟩ := by
  have hid : (g.result.routines.map Routine.id)[n]? = some r.id := by
    rw [List.getElem?_map, hr]
    rfl
  rw [h.ids_eq, h.headed.numbers, List.getElem?_map] at hid
  obtain ⟨i, hi, hid⟩ := Option.map_eq_some_iff.mp hid
  obtain ⟨_, rfl⟩ := List.getElem?_eq_some_iff.mp hi
  rw [← hid]
  simp

/-- No label is placed twice. -/
theorem Emitted.nodup_labels (h : Emitted p g c heads entry L rest) (hp : Prepared c.defs p) :
    g.result.labels.Nodup := by
  obtain ⟨b, hanswers, _⟩ := h.answers
  have hdistinct := hanswers.distinct.1
  rw [h.handedOut_eq] at hdistinct
  let labels (f : RoutineId) : List Label :=
    ((g.result.routine? f).map fun r => r.code.filterMap Instr.label?).getD []
  have hlabels : g.result.labels = (g.result.routines.map Routine.id).flatMap labels := by
    rw [List.flatMap_map]
    refine List.flatMap_congr fun r hr => ?_
    obtain ⟨n, hn⟩ := List.mem_iff_getElem?.mp hr
    simp only [labels, CodeModule.routine?, h.id_eq hn, hn, Option.map_some, Option.getD_some]
  have hplaced : ((bodies g.calls).map Prod.fst).flatMap labels =
      (bodies g.calls).flatMap fun b => placed b.2 := by
    rw [List.flatMap_map]
    refine List.flatMap_congr fun b hb => ?_
    obtain ⟨r, hr, hcode, _⟩ := h.routine_of_body hp hb
    simp only [labels, hr, Option.map_some, Option.getD_some, hcode, placed]
  have hhanded : ((bodies g.calls).flatMap fun b => placed b.2).Perm
      ((bodies g.calls).flatMap fun b => handedOut b.2) := by
    refine List.Perm.flatMap_left _ fun b hb => ?_
    obtain ⟨r, f, body, ids, L', henters⟩ := h.enters hp hb
    have hperm := henters.segment.labels
    rwa [List.append_nil] at hperm
  rw [hlabels]
  refine ((h.begun hp).flatMap_right labels).nodup ?_
  rw [hplaced]
  exact hhanded.nodup_iff.mpr hdistinct

end Labels

/-! ## Compiled modules -/

section Routines

variable {p : TypedProgram} {g : Generated} {c : GenContext} {heads : List Call} {entry : RoutineId}
  {L : Layout} {rest : List (Layout × DefId × List TypedStmt)}

/-- What an instruction of a routine names is there. -/
theorem Emitted.routine_wellFormed (h : Emitted p g c heads entry L rest) (hp : Prepared c.defs p)
    {b : RoutineId × List Call} (hb : b ∈ bodies g.calls) :
    ∃ r, g.result.routine? b.1 = some r ∧ r.WellFormed g.result b.2 := by
  obtain ⟨r, f, body, ids, L', henters⟩ := h.enters hp hb
  obtain ⟨r', hr', hcode, hslots⟩ := h.routine_of_body hp hb
  cases henters.routine.symm.trans hr'
  have hsegment := henters.segment
  obtain ⟨τ, hflow⟩ : ∃ τ, Flow false g.result r .start [] b.2 τ :=
    henters.flow hp h.headedIn nofun
  have heffect : ∀ site ∈ codeOf b.2, ∃ taken given,
      Effect g.result r.result (site.frame.operand? g.result r) site.instr taken given := by
    intro site hs
    obtain ⟨stack, _, hstep⟩ := hflow.stacks
    obtain ⟨n, hn⟩ := List.mem_iff_getElem?.mp hs
    obtain ⟨taken, given, _, he, _⟩ := hstep n site hn
    exact ⟨taken, given, Frame.held?_false g.result r site.frame ▸ he⟩
  refine ⟨r, hr', hcode, ?_, fun i hi l hl => ?_, fun callee hf => ?_, fun site hs s hn => ?_⟩
  · obtain ⟨is, his⟩ := henters.ends
    rw [hcode, his, List.getLast?_append]
    rfl
  · rw [hcode] at hi ⊢
    have hplaced := (hsegment.targets i hi l hl).resolve_left List.not_mem_nil
    refine ⟨hplaced, List.count_eq_one_of_mem (h.nodup_labels hp) ?_⟩
    refine List.mem_flatMap.mpr ⟨r, List.mem_of_getElem? hr', ?_⟩
    rw [hcode]
    exact mem_placed.mpr hplaced
  · rw [hcode, ← map_sites .start b.2] at hf
    obtain ⟨site, hs, hi⟩ := List.mem_map.mp hf
    obtain ⟨_, _, he⟩ := heffect site hs
    rw [hi] at he
    cases he with
    | call hcallee => exact ⟨_, hcallee⟩
  · obtain ⟨_, _, he⟩ := heffect site hs
    have hholds := he.holds hn
    cases s with
    | static n =>
      rw [Frame.operand?, Option.isSome_map, isSome_getElem?] at hholds
      exact hholds
    | arg n =>
      rw [Frame.operand?, Option.isSome_map, isSome_getElem?] at hholds
      exact hholds
    | slot n =>
      rw [Frame.operand?, Option.isSome_map] at hholds
      obtain ⟨v, hv⟩ := Option.isSome_iff_exists.mp hholds
      obtain ⟨name, type, hdeclared⟩ := hsegment.slot_declared hs hv
      exact ⟨hslots name type n hdeclared, v, hv⟩

end Routines

/-- A compiled module is well formed, and has a routine for every callable of
the program, the program itself being the first. -/
theorem compile_wellFormed {text : String} {m : CodeModule} (h : compile text = .ok m) :
    m.WellFormed (compiledCalls text) ∧ ∃ a, analysisOf text = some a ∧
      m.routines.map Routine.name = a.program.routines.map fun r => a.defs.nameOf r.1 := by
  obtain ⟨q, c, heads, entry, L, rest, ha, hdefs, hp, hemitted, rfl⟩ := compiled_spec h
  rw [compiledCalls_eq ha]
  refine ⟨⟨fun _ _ hr => hemitted.id_eq hr, hemitted.entryRoutine hp, hemitted.begun hp,
    hemitted.nested, fun b hb => hemitted.routine_wellFormed hp hb⟩, q.analyze, ha, ?_⟩
  obtain ⟨outer, hsound, _, _⟩ := analyze_spec q
  have hnames : c.routines.map (fun e => c.defs.nameOf e.1) =
      (c.routines.map Prod.fst).map c.defs.nameOf := by
    rw [List.map_map]
    rfl
  rw [hemitted.names_eq, hnames, hemitted.keys_eq hp, Analysis.lift_routines, List.map_map, List.map_map]
  refine List.map_congr_left fun r hr => ?_
  obtain ⟨info, hi, _⟩ := hsound.routine r hr
  show c.defs.nameOf r.1 = _
  rw [hdefs]
  exact hsound.extended.nameOf (Defs.lt_size_of_callable? (by rw [hi]; rfl))

theorem compile_wellFormed_procedure :
    let text := "program p; begin procedure q(n : int) begin while n > 0 do n := n - 1 end; q(3) end."
    ∃ m, compile text = .ok m ∧ m.WellFormed (compiledCalls text) ∧ ∃ a, analysisOf text = some a ∧
      m.routines.map Routine.name = a.program.routines.map fun r => a.defs.nameOf r.1 := by
  intro text
  have hok : (compile text).isOk = true := by decide +kernel
  obtain ⟨m, hm⟩ := compiled_of_isOk hok
  exact ⟨m, hm, compile_wellFormed hm⟩

end StackPascal
