import StackPascal.Proofs.Acceptance
import StackPascal.Proofs.Machine.Agreement
import StackPascal.Proofs.Machine.Segments

/-!
The routines of a compiled program.

* `Emitted.bodies_eq`: the routines of a program are the entry and those that
  were put off;
* `Enters`: what is known where the block of a routine begins;
* `compiled_enters`: every routine of a compiled module begins like that.
-/

namespace StackPascal

open Gen TypedExpr Builder

/-! ## Routines -/

theorem bodies_queue (c : GenContext) : ∀ rest : List (Layout × DefId × List TypedStmt),
    bodies (rest.flatMap (routineCalls c)) =
      rest.map fun q => (c.routine q.2.1, bodyCalls c q.2.1 q.1 q.2.2)
  | [] => rfl
  | q :: rest => by
    rw [List.flatMap_cons, routineCalls, List.cons_append, List.append_assoc, List.singleton_append,
      bodies_routine (segment_body ..).inner, bodies_queue c rest, List.map_cons]

/-- The command begins or ends a routine, or belongs to its code. -/
def Call.isOfRoutine (c : Call) : Bool :=
  c.isCode ||
    match c.command with
    | .beginRoutine _ | .endRoutine => true
    | _ => false

theorem Call.other_of_isOfRoutine {c : Call} (h : c.isOfRoutine = true) :
    (∀ f, c.command ≠ .setEntry f) ∧
      ∀ name params result, c.command ≠ .declareRoutine name params result := by
  rcases c with ⟨command, reply⟩
  constructor <;> rintro _ <;> intros <;> rintro rfl <;> cases h

/-- The commands of a routine, and those after it. -/
theorem Segment.isOfRoutine {ls ks : List Label} {cs : List Call} (h : Segment ls ks cs)
    (f : RoutineId) {ds : List Call} (hds : ∀ d ∈ ds, d.isOfRoutine = true) :
    ∀ d ∈ ⟨.beginRoutine f, .done⟩ :: (cs ++ ⟨.endRoutine, .done⟩ :: ds), d.isOfRoutine = true := by
  refine List.forall_mem_cons.mpr ⟨rfl, List.forall_mem_append.mpr ⟨fun d hd => ?_, ?_⟩⟩
  · exact Bool.or_eq_true_iff.mpr (.inl (h.code d hd))
  · exact List.forall_mem_cons.mpr ⟨rfl, hds⟩

theorem isOfRoutine_queue (c : GenContext) : ∀ rest : List (Layout × DefId × List TypedStmt),
    ∀ d ∈ rest.flatMap (routineCalls c), d.isOfRoutine = true
  | [] => nofun
  | q :: rest => by
    rw [List.flatMap_cons, routineCalls, List.cons_append, List.append_assoc, List.singleton_append]
    exact (segment_body q.2.1 q.1 q.2.2).isOfRoutine _ (isOfRoutine_queue c rest)

namespace Emitted

variable {p : TypedProgram} {g : Generated} {c : GenContext} {heads : List Call} {entry : RoutineId}
  {L : Layout} {rest : List (Layout × DefId × List TypedStmt)}

/-- The routines are the entry and those that were put off. -/
theorem bodies_eq (h : Emitted p g c heads entry L rest) :
    bodies g.calls = (entry, entryCalls c p L) ::
      rest.map fun q => (c.routine q.2.1, bodyCalls c q.2.1 q.1 q.2.2) := by
  have hheads : ∀ d ∈ heads, d.command.isInner = true := fun d hd => by
    rw [h.headed.calls] at hd
    obtain ⟨e, _, rfl⟩ := List.mem_map.mp hd
    rfl
  rw [h.calls, bodies_append hheads, bodies]
  dsimp only
  rw [bodies_routine (segment_entry p L).inner, bodies_queue]

theorem declaredIn (h : Emitted p g c heads entry L rest) : DeclaredIn g.result g.calls := by
  obtain ⟨b, hanswers, hresult⟩ := h.answers
  intro name type n hm
  rw [hresult]
  exact hanswers.static hm

theorem headedIn (h : Emitted p g c heads entry L rest) : c.HeadedIn g.result := by
  obtain ⟨b, hanswers, hresult⟩ := h.answers
  intro id info hi hn
  obtain ⟨f, hf⟩ := Option.isSome_iff_exists.mp (h.complete id info hi hn)
  obtain ⟨_, info', hi', hm⟩ := h.headed.declared id f hf
  cases hi.symm.trans hi'
  have hroutine : c.routine id = f := by rw [GenContext.routine, hf, Option.getD_some]
  rw [hroutine, hresult]
  exact hanswers.routine (by rw [h.calls]; exact List.mem_append_left _ hm)

/-- After the entry has been chosen, it stays. -/
theorem entry_eq (h : Emitted p g c heads entry L rest) : g.result.entry = some entry := by
  obtain ⟨b, hanswers, hresult⟩ := h.answers
  rw [h.calls] at hanswers
  obtain ⟨b₁, _, hanswers⟩ := hanswers.split
  rw [hresult]
  refine (answers_cons.mp hanswers).2.entry fun d hd => ?_
  exact (d.other_of_isOfRoutine
    ((segment_entry p L).isOfRoutine entry (isOfRoutine_queue c rest) d hd)).1

end Emitted

/-! ## The start of a routine -/

theorem Frame.fits_start (L : Layout) : Frame.start.Fits L := ⟨nofun, .nil, nofun⟩

/-- The storage belongs to the routine: a slot, or in the entry a static. -/
def Storage.OwnIn (m : CodeModule) (f : RoutineId) : Storage → Prop
  | slot _ => True
  | static _ => m.entry = some f
  | arg _ => False

/-- How a routine of the module begins: the constants `ids` are set, and the
block of `f` finds what is at hand where the frame has it, or outside of the
routine. -/
structure Enters (m : CodeModule) (c : GenContext) (p : TypedProgram) (b : RoutineId × List Call)
    (r : Routine) (f : DefId) (body : List TypedStmt) (ids : List DefId) (L : Layout) : Prop where
  named : b.1 = c.routine f
  calls : b.2 = variablesCalls c (constantCode c) L ids ++ bodyCalls c f (L.reserveAll c ids) body
  member : (f, body) ∈ p.routines
  routine : m.routine? b.1 = some r
  result : r.result = c.defs.typeOf f
  constants : ids ⊆ c.defs.constants
  declared : DeclaredIn m b.2
  agrees : ∀ own, (own = true → m.entry = some b.1) → Agrees own m r c.defs (c.defs.atHand f)
    (L.reserveAll c ids).storage (Frame.start.run (variablesCalls c (constantCode c) L ids))
  outside : ∀ v ∈ c.defs.atHand f, v ∉ ids →
    ∃ s, (L.reserveAll c ids).storage.lookup v = some s ∧ ¬ s.OwnIn m b.1

theorem Enters.segment {m : CodeModule} {c : GenContext} {p : TypedProgram}
    {b : RoutineId × List Call} {r : Routine} {f : DefId} {body : List TypedStmt} {ids : List DefId}
    {L : Layout} (h : Enters m c p b r f body ids L) : Segment [] [] b.2 := by
  rw [h.calls]
  exact (segment_variables (fun _ => rfl) _ _).append (segment_body ..)

section Constants

variable {c : GenContext}

theorem Defs.global_of_constant {ds : Defs} {id : DefId} (h : id ∈ ds.constants) :
    ds.isGlobal id = true ∧ ds.isByRef id = false := by
  obtain ⟨d, hd, _, hk⟩ := isConstant_iff.mp (mem_constants.mp h)
  constructor
  · simp only [isGlobal, hd, Def.isGlobal, hk]
  · simp only [isByRef, hd, Def.isByRef, hk]

/-- The constants are statics. -/
theorem lookup_constants {v : DefId} : ∀ {ids : List DefId} (L : Layout),
    (∀ id ∈ ids, c.defs.isGlobal id = true) → v ∈ ids →
    ∃ n, (L.reserveAll c ids).storage.lookup v = some (.static n)
  | id :: ids, L, hg, hv => by
    by_cases hin : v ∈ ids
    · exact lookup_constants (L.reserve c id) (fun w hw => hg w (List.mem_cons_of_mem _ hw)) hin
    · obtain rfl := (List.mem_cons.mp hv).resolve_right hin
      refine ⟨L.statics, (lookup_reserveAll (L.reserve c v) hin).trans ?_⟩
      rw [Layout.storage_reserve, List.lookup_cons, beq_self_eq_true, Layout.newPlace,
        if_pos (hg v (List.mem_cons_self ..))]

/-- After the constants have been set, the frame has them. -/
theorem agrees_constants {p : TypedProgram} {L : Layout} {m : CodeModule} (own : Bool) (r : Routine)
    (hd : DeclaredIn m (entryCalls c p L)) :
    Agrees own m r c.defs c.defs.constants (L.reserveAll c c.defs.constants).storage
      (Frame.start.run (variablesCalls c (constantCode c) L c.defs.constants)) := by
  have hnone : Agrees own m r c.defs [] L.storage Frame.start := fun _ hv => nomatch hv
  have hone : ∀ id, accessed (constantCode c id) = [].map Access.shown := fun _ => rfl
  have hall := tracks_held.variables_known (fun _ => rfl) hone c.defs.constants
    (Frame.fits_start L) (fun id hid => (Defs.global_of_constant hid).2)
    (hd.mono (List.subset_append_left _ _)) hnone
  exact hall.mono fun v hv => List.mem_append_left _ (List.mem_reverse.mpr hv)

end Constants

namespace Emitted

variable {p : TypedProgram} {g : Generated} {c : GenContext} {heads : List Call} {entry : RoutineId}
  {L : Layout} {rest : List (Layout × DefId × List TypedStmt)}

theorem declared_entry (h : Emitted p g c heads entry L rest) :
    DeclaredIn g.result (entryCalls c p L) := by
  have hbody : (entry, entryCalls c p L) ∈ bodies g.calls := by
    rw [h.bodies_eq]
    exact List.mem_cons_self ..
  exact h.declaredIn.mono (bodies_sublist hbody).subset

/-- The entry sets the constants. -/
theorem enters_entry (h : Emitted p g c heads entry L rest) (hp : Prepared c.defs p) :
    ∃ r, Enters g.result c p (entry, entryCalls c p L) r p.main p.body c.defs.constants L := by
  have hd := h.declared_entry
  have hmain : (p.main, p.body) ∈ p.routines := List.mem_cons_self ..
  obtain ⟨info, hi, hn⟩ := hp.routine _ hmain
  obtain ⟨r, hr, _, hresult⟩ := h.headedIn p.main info hi hn
  have hroutine : c.routine p.main = entry := by rw [GenContext.routine, h.main, Option.getD_some]
  rw [hroutine] at hr
  have hentry : entry = c.routine p.main := hroutine.symm
  have hparams : c.defs.paramsOf p.main = [] := by
    obtain ⟨_, i, hpi, hnil⟩ := hp.program
    exact (Defs.paramsOf_eq hpi).trans hnil
  refine ⟨r, hentry, rfl, hmain, hr, hresult, fun _ hid => hid, hd, fun own _ => ?_, fun v hv hnot => ?_⟩
  · rw [Defs.atHand, hparams]
    exact agrees_constants own r hd
  · rw [Defs.atHand, hparams] at hv
    exact absurd hv hnot

/-- Another routine has its arguments, and the constants are where the entry has
them. -/
theorem enters_queued (h : Emitted p g c heads entry L rest) (hp : Prepared c.defs p)
    {q : Layout × DefId × List TypedStmt} (hq : q ∈ rest) :
    ∃ r, Enters g.result c p (c.routine q.2.1, bodyCalls c q.2.1 q.1 q.2.2) r q.2.1 q.2.2 [] q.1 := by
  obtain ⟨L', f, body⟩ := q
  obtain ⟨hmem, hopens⟩ := h.queued _ hq
  have hbody : (c.routine f, bodyCalls c f L' body) ∈ bodies g.calls := by
    rw [h.bodies_eq]
    exact List.mem_cons_of_mem _ (List.mem_map.mpr ⟨(L', f, body), hq, rfl⟩)
  have hd := h.declaredIn.mono (bodies_sublist hbody).subset
  have hr : (f, body) ∈ p.routines := List.mem_cons_of_mem _ hmem
  obtain ⟨info, hi, hn⟩ := hp.routine _ hr
  obtain ⟨r, hroutine, hparams, hresult⟩ := h.headedIn f info hi hn
  have hentry : g.result.entry ≠ some (c.routine f) := fun hown => by
    rw [h.entry_eq] at hown
    obtain ⟨e, he⟩ := Option.isSome_iff_exists.mp (h.complete f info hi hn)
    have hof : c.routine f = e := by rw [GenContext.routine, he, Option.getD_some]
    have hsame : e = entry := hof.symm.trans (Option.some.inj hown).symm
    exact hp.nested _ hmem (h.headed.distinct f p.main e he (hsame ▸ h.main))
  refine ⟨r, rfl, rfl, hr, hroutine, hresult, List.nil_subset _, hd,
    fun own hown v hv hvar => ?_, fun v hv _ => ?_⟩
  · rcases List.mem_append.mp hv with hv | hv
    · obtain ⟨n, hn, hat⟩ := hopens.params v hv
      refine ⟨.arg n, hn, ?_⟩
      show r.params[n]?.map ParamDecl.operand = _
      rw [Defs.paramsOf_eq hi] at hat
      rw [hparams, List.getElem?_map, hat]
      rfl
    · obtain rfl : own = false := Bool.eq_false_iff.mpr fun htrue => hentry (hown htrue)
      obtain ⟨s, hs, hheld⟩ := agrees_constants false r h.declared_entry v hv hvar
      obtain ⟨n, hat⟩ := lookup_constants (c := c) L (fun id hid => (Defs.global_of_constant hid).1) hv
      cases hs.symm.trans hat
      exact ⟨.static n, (hopens.constants v hv).trans hat, hheld⟩
  · rcases List.mem_append.mp hv with hv | hv
    · obtain ⟨n, hn, _⟩ := hopens.params v hv
      exact ⟨.arg n, hn, id⟩
    · obtain ⟨n, hat⟩ := lookup_constants (c := c) L (fun id hid => (Defs.global_of_constant hid).1) hv
      exact ⟨.static n, (hopens.constants v hv).trans hat, hentry⟩

theorem enters (h : Emitted p g c heads entry L rest) (hp : Prepared c.defs p)
    {b : RoutineId × List Call} (hb : b ∈ bodies g.calls) :
    ∃ r f body ids L', Enters g.result c p b r f body ids L' := by
  rw [h.bodies_eq] at hb
  rcases List.mem_cons.mp hb with rfl | hb
  · obtain ⟨r, hr⟩ := h.enters_entry hp
    exact ⟨r, _, _, _, _, hr⟩
  · obtain ⟨q, hq, rfl⟩ := List.mem_map.mp hb
    obtain ⟨r, hr⟩ := h.enters_queued hp hq
    exact ⟨r, _, _, _, _, hr⟩

end Emitted

/-- Every routine of a module that was compiled begins like this. -/
theorem compiled_enters {text : String} {m : CodeModule} (h : compile text = .ok m) :
    ∃ c p, Prepared c.defs p ∧ c.HeadedIn m ∧ (handedOut (compiledCalls text)).Nodup ∧
      ∀ b ∈ bodies (compiledCalls text), ∃ r f body ids L, Enters m c p b r f body ids L := by
  obtain ⟨q, c, heads, entry, L, rest, ha, _, hp, hemitted, rfl⟩ := compiled_spec h
  obtain ⟨b, hanswers, _⟩ := hemitted.answers
  rw [compiledCalls_eq ha]
  exact ⟨c, _, hp, hemitted.headedIn, hanswers.distinct.1, fun b hb => hemitted.enters hp hb⟩

end StackPascal
