import StackPascal.Proofs.Machine.Routines

/-!
How the commands make up the routines of a module.

* `Routine.add`: what a command adds to the routine that is open;
* `within`: the commands that are given while a routine is open;
* `Answers.assembled`: every routine has been given what they add;
* `Emitted.begun`: every routine of a program is begun once;
* `Emitted.routine_of_body`: and has the code of the commands given then;
* `Emitted.code_of`: in the order of the callables of the program.
-/

namespace StackPascal

open Gen TypedExpr Builder

/-! ## What a command adds -/

/-- What a command adds to the routine that is open. -/
def Routine.add (r : Routine) (c : Call) : Routine :=
  match c.command, c.reply with
  | .declareLocal name type, .storage (.slot n) =>
    { r with slots := max r.slots (n + 1), locals := r.locals ++ [⟨n, name, type⟩] }
  | .emit i, _ => { r with code := r.code ++ [i] }
  | _, _ => r

def Routine.addAll (r : Routine) (cs : List Call) : Routine := cs.foldl add r

namespace Routine

theorem add_keeps (r : Routine) (c : Call) : (r.add c).id = r.id ∧ (r.add c).name = r.name ∧
    (r.add c).params = r.params ∧ r.slots ≤ (r.add c).slots ∧
    (r.add c).code = r.code ++ instrs [c] := by
  rcases c with ⟨command, reply⟩
  cases command with
  | emit i => exact ⟨rfl, rfl, rfl, Nat.le_refl _, rfl⟩
  | declareLocal name type =>
    have hcode : r.code = r.code ++ instrs [⟨.declareLocal name type, reply⟩] :=
      (List.append_nil _).symm
    unfold add
    split
    · exact ⟨rfl, rfl, rfl, Nat.le_max_left .., hcode⟩
    · next he => cases he
    · exact ⟨rfl, rfl, rfl, Nat.le_refl _, hcode⟩
  | _ => exact ⟨rfl, rfl, rfl, Nat.le_refl _, (List.append_nil _).symm⟩

theorem addAll_keeps : ∀ (cs : List Call) (r : Routine), (r.addAll cs).id = r.id ∧
    (r.addAll cs).name = r.name ∧ (r.addAll cs).params = r.params ∧ r.slots ≤ (r.addAll cs).slots ∧
    (r.addAll cs).code = r.code ++ instrs cs
  | [], r => ⟨rfl, rfl, rfl, Nat.le_refl _, (List.append_nil _).symm⟩
  | c :: cs, r => by
    obtain ⟨hid, hname, hparams, hslots, hcode⟩ := addAll_keeps cs (r.add c)
    obtain ⟨kid, kname, kparams, kslots, kcode⟩ := r.add_keeps c
    refine ⟨hid.trans kid, hname.trans kname, hparams.trans kparams, Nat.le_trans kslots hslots, ?_⟩
    refine hcode.trans ?_
    rw [kcode, List.append_assoc, ← instrs_append]
    rfl

/-- A routine has the slots of its variables. -/
theorem lt_slots_addAll {name : String} {type : ValueType} {n : Nat} : ∀ {cs : List Call}
    (r : Routine), ⟨.declareLocal name type, .storage (.slot n)⟩ ∈ cs → n < (r.addAll cs).slots
  | c :: cs, r, h => by
    rcases List.mem_cons.mp h with rfl | h
    · refine Nat.lt_of_lt_of_le ?_ (addAll_keeps cs _).2.2.2.1
      exact Nat.lt_of_lt_of_le (Nat.lt_succ_self n) (Nat.le_max_right ..)
    · exact lt_slots_addAll (r.add c) h

end Routine

/-! ## What is added to a routine -/

/-- The commands that are given while routine `n` is open, with routine `o` open
at the beginning. -/
def within (n : Nat) : Option Nat → List Call → List Call
  | _, [] => []
  | o, c :: cs =>
    match c.command with
    | .beginRoutine f => within n (some f.number) cs
    | .endRoutine => within n none cs
    | _ => if o = some n then c :: within n o cs else within n o cs

/-- The routine that is open after a command. -/
def Command.opens (o : Option Nat) : Command → Option Nat
  | beginRoutine f => some f.number
  | endRoutine => none
  | _ => o

theorem Routine.addAll_within (n : Nat) (o : Option Nat) (c : Call) (cs : List Call) (r : Routine) :
    (if o = some n then r.add c else r).addAll (within n (c.command.opens o) cs) =
      r.addAll (within n o (c :: cs)) := by
  rcases c with ⟨command, reply⟩
  cases command with
  | beginRoutine f => exact congrArg (addAll · _) (ite_self r)
  | endRoutine => exact congrArg (addAll · _) (ite_self r)
  | _ =>
    rw [within]
    dsimp only [Command.opens]
    split <;> rfl

namespace Builder

theorem current_updateCurrent (b : Builder) (f : Routine → Routine) :
    (b.updateCurrent f).current = b.current := by
  unfold updateCurrent
  cases hb : b.current with
  | none => exact hb
  | some k => rfl

theorem routines_updateCurrent (b : Builder) (f : Routine → Routine) (n : Nat) :
    (b.updateCurrent f).result.routines[n]? =
      b.result.routines[n]?.map fun r => if b.current = some n then f r else r := by
  unfold updateCurrent
  cases hb : b.current with
  | none => simp
  | some k =>
    simp only [Option.some.injEq, List.getElem?_modify]
    rfl

theorem step_current (b : Builder) (command : Command) :
    (b.step command).2.current = command.opens b.current := by
  cases command with
  | declareLocal name type => exact current_updateCurrent _ _
  | emit i => exact current_updateCurrent _ _
  | endScope =>
    simp only [step, endScope]
    cases b.scopes <;> rfl
  | _ => rfl

/-- A step adds to the routine that is open. -/
theorem step_routines (b : Builder) {command : Command}
    (h : ∀ name params result, command ≠ .declareRoutine name params result) (n : Nat) :
    (b.step command).2.result.routines[n]? = b.result.routines[n]?.map fun r =>
      if b.current = some n then r.add ⟨command, (b.step command).1⟩ else r := by
  have hsame : ∀ rs : List Routine, rs[n]? = rs[n]?.map fun r => if b.current = some n then r else r := by
    simp
  cases command with
  | declareLocal name type => exact routines_updateCurrent _ _ n
  | emit i => exact routines_updateCurrent _ _ n
  | endScope =>
    refine Eq.trans ?_ (hsame _)
    simp only [step, endScope]
    cases b.scopes <;> rfl
  | declareRoutine name params result => exact absurd rfl (h name params result)
  | _ => exact hsame _

/-- Every routine is given what the commands add while it is open. -/
theorem Answers.assembled {b b' : Builder} {cs : List Call} (h : b.Answers cs b')
    (hcs : ∀ c ∈ cs, ∀ name params result, c.command ≠ .declareRoutine name params result) (n : Nat) :
    b'.result.routines[n]? =
      b.result.routines[n]?.map fun r => r.addAll (within n b.current cs) := by
  induction cs generalizing b with
  | nil =>
    rw [answers_nil.mp h]
    exact Option.map_id'.symm
  | cons c cs ih =>
    obtain ⟨hreply, hrest⟩ := answers_cons.mp h
    rw [ih hrest fun d hd => hcs d (List.mem_cons_of_mem _ hd),
      step_routines b (hcs c (List.mem_cons_self ..)), step_current, Option.map_map, hreply]
    exact congrArg (Option.map · _) (funext (Routine.addAll_within n b.current c cs))

end Builder

/-! ## The commands of a routine -/

/-- What stands in the routines with number `n`, taken together. -/
def gathered (n : Nat) (bs : List (RoutineId × List Call)) : List Call :=
  bs.flatMap fun b => if b.1.number = n then b.2 else []

theorem gathered_eq_nil {n : Nat} {bs : List (RoutineId × List Call)}
    (h : ∀ b ∈ bs, b.1.number ≠ n) : gathered n bs = [] :=
  List.flatMap_eq_nil_iff.mpr fun b hb => if_neg (h b hb)

/-- A routine that is begun once has its own commands. -/
theorem gathered_of_mem {b : RoutineId × List Call} : ∀ {bs : List (RoutineId × List Call)},
    (bs.map Prod.fst).Nodup → b ∈ bs → gathered b.1.number bs = b.2
  | d :: bs, hd, hb => by
    obtain ⟨hnot, hd⟩ := List.nodup_cons.mp hd
    have hother : ∀ e ∈ bs, e.1.number ≠ d.1.number := fun e he hn =>
      hnot (List.mem_map.mpr ⟨e, he, congrArg RoutineId.mk hn⟩)
    rw [gathered, List.flatMap_cons, ← gathered]
    rcases List.mem_cons.mp hb with rfl | hb
    · rw [if_pos rfl, gathered_eq_nil hother, List.append_nil]
    · rw [if_neg fun he => hother b hb he.symm, List.nil_append, gathered_of_mem hd hb]

/-- The command leaves open which routine is open. -/
def Command.stays : Command → Bool
  | beginRoutine _ | endRoutine => false
  | _ => true

section Stays

variable {c : Call} {cs : List Call} (hc : c.command.stays = true)
include hc

theorem Call.isSome_nest {o o' : Option Nat} (h : c.command.nest o = some o') :
    o'.isSome = o.isSome := by
  rcases c with ⟨command, reply⟩
  cases command with
  | beginRoutine f => cases hc
  | endRoutine => cases hc
  | endScope => rcases o with _ | _ | n <;> first | (cases h; rfl) | cases h
  | _ => cases o <;> first | (cases h; rfl) | cases h

theorem within_cons (n : Nat) (o : Option Nat) :
    within n o (c :: cs) = if o = some n then c :: within n o cs else within n o cs := by
  rw [within]
  split
  · next f hf => rw [hf] at hc; cases hc
  · next hf => rw [hf] at hc; cases hc
  · rfl

theorem bodies_cons : bodies (c :: cs) = bodies cs := by
  rw [bodies]
  split
  · next f hf => rw [hf] at hc; cases hc
  · rfl

theorem takeWhile_cons : (c :: cs).takeWhile (·.command ≠ .endRoutine) =
    c :: cs.takeWhile (·.command ≠ .endRoutine) := by
  refine List.takeWhile_cons_of_pos (decide_eq_true fun he => ?_)
  rw [he] at hc
  cases hc

end Stays

/-- While a routine is open its commands are given, as long as routines end
before others begin. -/
theorem within_eq_gathered (n : Nat) : ∀ cs : List Call,
    (nests none cs = some none → within n none cs = gathered n (bodies cs)) ∧
    ∀ j k, nests (some k) cs = some none → within n (some j) cs =
      (if j = n then cs.takeWhile (·.command ≠ .endRoutine) else []) ++ gathered n (bodies cs)
  | [] => ⟨fun _ => rfl, fun _ _ h => nomatch h⟩
  | c :: cs => by
    obtain ⟨hclosed, hopen⟩ := within_eq_gathered n cs
    by_cases hc : c.command.stays = true
    · rw [bodies_cons hc, takeWhile_cons hc]
      refine ⟨fun h => ?_, fun j k h => ?_⟩
      · obtain ⟨o, ho, h⟩ := Option.bind_eq_some_iff.mp h
        cases Option.not_isSome_iff_eq_none.mp (by rw [Call.isSome_nest hc ho]; exact nofun)
        rw [within_cons hc, if_neg nofun]
        exact hclosed h
      · obtain ⟨o, ho, h⟩ := Option.bind_eq_some_iff.mp h
        obtain ⟨i, rfl⟩ := Option.isSome_iff_exists.mp (Call.isSome_nest hc ho)
        have hrest := hopen j i h
        rw [within_cons hc, hrest]
        by_cases hj : j = n
        · rw [hj, if_pos rfl, if_pos rfl, if_pos rfl]
          rfl
        · rw [if_neg hj, if_neg hj, if_neg fun he => hj (Option.some.inj he)]
    · rcases c with ⟨command, reply⟩
      cases command with
      | beginRoutine f => exact ⟨fun h => hopen f.number 0 h, fun _ _ h => nomatch h⟩
      | endRoutine =>
        refine ⟨fun h => (nomatch h), fun j k h => ?_⟩
        cases k with
        | zero =>
          refine (hclosed h).trans ?_
          split <;> rfl
        | succ k => cases h
      | _ => exact absurd rfl hc

/-! ## The routines of a program -/

theorem Segment.nests_routine {ls ks : List Label} {cs : List Call} (h : Segment ls ks cs)
    (f : RoutineId) (ds : List Call) :
    nests none (⟨.beginRoutine f, .done⟩ :: (cs ++ ⟨.endRoutine, .done⟩ :: ds)) = nests none ds := by
  show nests (some 0) (cs ++ ⟨.endRoutine, .done⟩ :: ds) = nests none ds
  rw [nests_append, h.nested]
  rfl

theorem nests_queue (c : GenContext) : ∀ rest : List (Layout × DefId × List TypedStmt),
    nests none (rest.flatMap (routineCalls c)) = some none
  | [] => rfl
  | q :: rest => by
    rw [List.flatMap_cons, routineCalls, List.cons_append, List.append_assoc, List.singleton_append,
      (segment_body q.2.1 q.1 q.2.2).nests_routine]
    exact nests_queue c rest

theorem nests_headings (ds : Defs) : ∀ fs : List (DefId × RoutineId),
    nests none (fs.map (headingCall ds)) = some none
  | [] => rfl
  | _ :: fs => nests_headings ds fs

/-- A routine before anything is added. -/
def Routine.declared (ds : Defs) (e : DefId × RoutineId) : Routine :=
  ⟨e.2, ds.nameOf e.1, (ds.paramsOf e.1).map (paramDecl ds), ds.typeOf e.1, [], 0, []⟩

theorem Builder.answers_headings {ds : Defs} {b' : Builder} :
    ∀ {fs : List (DefId × RoutineId)} {b : Builder}, b.Answers (fs.map (headingCall ds)) b' →
    b'.current = b.current ∧ b'.result.routines = b.result.routines ++ fs.map (Routine.declared ds)
  | [], b, h => by
    cases answers_nil.mp h
    exact ⟨rfl, (List.append_nil _).symm⟩
  | e :: fs, b, h => by
    obtain ⟨hreply, hrest⟩ := answers_cons.mp h
    obtain ⟨hcurrent, hroutines⟩ := answers_headings hrest
    have he : (⟨b.result.routines.length⟩ : RoutineId) = e.2 := by injection hreply
    refine ⟨hcurrent, hroutines.trans ?_⟩
    rw [List.map_cons, List.append_cons, Routine.declared, ← he]
    rfl

namespace Emitted

variable {p : TypedProgram} {g : Generated} {c : GenContext} {heads : List Call} {entry : RoutineId}
  {L : Layout} {rest : List (Layout × DefId × List TypedStmt)}

theorem nested (h : Emitted p g c heads entry L rest) : nests none g.calls = some none := by
  rw [h.calls, nests_append, h.headed.calls, nests_headings]
  show nests none (⟨.beginRoutine entry, .done⟩ :: _) = some none
  rw [(segment_entry p L).nests_routine, nests_queue]

/-- Every routine is what was declared, with what its commands add. -/
theorem routines_eq (h : Emitted p g c heads entry L rest) (n : Nat) :
    g.result.routines[n]? = c.routines[n]?.map fun e =>
      (Routine.declared c.defs e).addAll (gathered n (bodies g.calls)) := by
  obtain ⟨b, hanswers, hresult⟩ := h.answers
  have hcalls := h.calls
  have hnested := h.nested
  generalize hcode : ⟨.setEntry entry, .done⟩ :: ⟨.beginRoutine entry, .done⟩ ::
    (entryCalls c p L ++ (⟨.endRoutine, .done⟩ :: rest.flatMap (routineCalls c))) = code at hcalls
  rw [h.headed.calls] at hcalls
  have hinner : ∀ d ∈ c.routines.map (headingCall c.defs), d.command.isInner = true := fun d hd => by
    obtain ⟨e, _, rfl⟩ := List.mem_map.mp hd
    rfl
  rw [hcalls] at hanswers hnested
  rw [nests_append, nests_headings] at hnested
  obtain ⟨mid, hheads, hrest⟩ := hanswers.split
  obtain ⟨hcurrent, hroutines⟩ := Builder.answers_headings hheads
  have hplain : ∀ d ∈ code, ∀ name params result, d.command ≠ .declareRoutine name params result := by
    rw [← hcode]
    refine List.forall_mem_cons.mpr ⟨fun _ _ _ => nofun, fun d hd => ?_⟩
    exact (d.other_of_isOfRoutine
      ((segment_entry p L).isOfRoutine entry (isOfRoutine_queue c rest) d hd)).2
  rw [hresult, hrest.assembled hplain, hroutines, hcurrent, hcalls, bodies_append hinner,
    ← (within_eq_gathered n code).1 hnested]
  show (c.routines.map (Routine.declared c.defs))[n]?.map _ = _
  rw [List.getElem?_map, Option.map_map]
  rfl

/-- The routines are numbered as they stand in the module. -/
theorem numbered (h : Emitted p g c heads entry L rest) : (c.routines.map Prod.snd).Nodup ∧
    ∀ f ∈ c.routines.map Prod.snd, ∃ e, c.routines[f.number]? = some e ∧ e.2 = f := by
  have hnumbers := h.headed.numbers
  constructor
  · rw [hnumbers]
    exact List.pairwise_map.mpr
      ((List.nodup_range' ..).imp fun hne he => hne (congrArg RoutineId.number he))
  · intro f hf
    rw [hnumbers] at hf
    obtain ⟨i, hi, rfl⟩ := List.mem_map.mp hf
    have hlt : i < c.routines.length := by simpa using hi
    have hat : (c.routines.map Prod.snd)[i]? = some ⟨i⟩ := by
      rw [hnumbers, List.getElem?_map, List.getElem?_range' hlt]
      simp
    rw [List.getElem?_map] at hat
    exact Option.map_eq_some_iff.mp hat

theorem ids_eq (h : Emitted p g c heads entry L rest) :
    g.result.routines.map Routine.id = c.routines.map Prod.snd := by
  refine List.ext_getElem? fun i => ?_
  rw [List.getElem?_map, List.getElem?_map, h.routines_eq, Option.map_map]
  exact congrArg (Option.map · _) (funext fun e => (Routine.addAll_keeps _ _).1)

theorem names_eq (h : Emitted p g c heads entry L rest) :
    g.result.routines.map Routine.name = c.routines.map fun e => c.defs.nameOf e.1 := by
  refine List.ext_getElem? fun i => ?_
  rw [List.getElem?_map, List.getElem?_map, h.routines_eq, Option.map_map]
  exact congrArg (Option.map · _) (funext fun e => (Routine.addAll_keeps _ _).2.1)

/-- The routines of the program are those of the module. -/
theorem keys_eq (h : Emitted p g c heads entry L rest) (hp : Prepared c.defs p) :
    c.routines.map Prod.fst = p.routines.map Prod.fst :=
  h.headed.keys.trans hp.listed

theorem routine_eq (h : Emitted p g c heads entry L rest) {e : DefId × RoutineId}
    (he : e ∈ c.routines) : c.routine e.1 = e.2 := by
  have hkeys : (c.routines.map Prod.fst).Nodup := by
    rw [h.headed.keys]
    exact c.defs.nodup_ids.filter _
  rw [GenContext.routine, lookup_of_nodup hkeys he, Option.getD_some]

/-- Every routine is begun once. -/
theorem begun (h : Emitted p g c heads entry L rest) (hp : Prepared c.defs p) :
    ((bodies g.calls).map Prod.fst).Perm (g.result.routines.map Routine.id) := by
  have hreached : (p.main :: rest.map fun q => q.2.1).Perm (p.routines.map Prod.fst) := by
    have hrest := h.reached.map Prod.fst
    rw [List.map_map] at hrest
    exact .cons _ hrest
  have hbegun : (bodies g.calls).map Prod.fst =
      (p.main :: rest.map fun q => q.2.1).map c.routine := by
    rw [h.bodies_eq, List.map_cons, List.map_cons, List.map_map, List.map_map, GenContext.routine,
      h.main, Option.getD_some]
    rfl
  have hids : (p.routines.map Prod.fst).map c.routine = c.routines.map Prod.snd := by
    rw [← h.keys_eq hp, List.map_map]
    exact List.map_congr_left fun e he => h.routine_eq he
  rw [hbegun, h.ids_eq, ← hids]
  exact hreached.map _

/-- A routine is what was declared, with what its own commands add. -/
theorem routine_of_begun (h : Emitted p g c heads entry L rest) (hp : Prepared c.defs p)
    {b : RoutineId × List Call} (hb : b ∈ bodies g.calls) :
    g.result.routine? b.1 =
      c.routines[b.1.number]?.map fun e => (Routine.declared c.defs e).addAll b.2 := by
  have hbegun := h.begun hp
  rw [h.ids_eq] at hbegun
  rw [CodeModule.routine?, h.routines_eq, gathered_of_mem (hbegun.nodup_iff.mpr h.numbered.1) hb]

/-- A routine has the code of its commands, and the slots of its variables. -/
theorem routine_of_body (h : Emitted p g c heads entry L rest) (hp : Prepared c.defs p)
    {b : RoutineId × List Call} (hb : b ∈ bodies g.calls) :
    ∃ r, g.result.routine? b.1 = some r ∧ r.code = instrs b.2 ∧
      ∀ name type n, ⟨.declareLocal name type, .storage (.slot n)⟩ ∈ b.2 → n < r.slots := by
  have hbegun := h.begun hp
  rw [h.ids_eq] at hbegun
  obtain ⟨e, he, _⟩ := h.numbered.2 b.1 (hbegun.mem_iff.mp (List.mem_map_of_mem hb))
  refine ⟨(Routine.declared c.defs e).addAll b.2, ?_, (Routine.addAll_keeps _ _).2.2.2.2,
    fun _ _ _ hn => Routine.lt_slots_addAll _ hn⟩
  rw [h.routine_of_begun hp hb, he]
  rfl

/-- The callables of the program are numbered in order. -/
theorem routines_at (h : Emitted p g c heads entry L rest) (hp : Prepared c.defs p) {i : Nat}
    {r : DefId × List TypedStmt} (hr : p.routines[i]? = some r) :
    c.routines[i]? = some (r.1, ⟨i⟩) := by
  have hkey : (c.routines.map Prod.fst)[i]? = some r.1 := by
    rw [h.keys_eq hp, List.getElem?_map, hr]
    rfl
  rw [List.getElem?_map] at hkey
  obtain ⟨e, he, hfst⟩ := Option.map_eq_some_iff.mp hkey
  have hnumber : (c.routines.map Prod.snd)[i]? = some e.2 := by
    rw [List.getElem?_map, he]
    rfl
  rw [h.headed.numbers, List.getElem?_map, List.getElem?_range' (List.getElem?_eq_some_iff.mp he).1]
    at hnumber
  have hsnd : e.2 = ⟨i⟩ := by simpa using hnumber.symm
  rw [he, ← hfst, ← hsnd]

theorem entry_first (h : Emitted p g c heads entry L rest) (hp : Prepared c.defs p) :
    entry = ⟨0⟩ := by
  have hfirst : c.routines[0]? = some (p.main, ⟨0⟩) :=
    h.routines_at hp (r := (p.main, p.body)) rfl
  have hmain := h.routine_eq (List.mem_of_getElem? hfirst)
  rwa [GenContext.routine, h.main, Option.getD_some] at hmain

/-- A callable has the code of its commands, under its name. -/
theorem code_of (h : Emitted p g c heads entry L rest) (hp : Prepared c.defs p) {i : Nat}
    {r : DefId × List TypedStmt} (hr : p.routines[i]? = some r) {cs : List Call}
    (hb : (c.routine r.1, cs) ∈ bodies g.calls) :
    ∃ routine, g.result.routines[i]? = some routine ∧ routine.id = ⟨i⟩ ∧
      routine.name = c.defs.nameOf r.1 ∧ routine.code = instrs cs := by
  have hat := h.routines_at hp hr
  have hroutine := h.routine_of_begun hp hb
  rw [h.routine_eq (List.mem_of_getElem? hat), CodeModule.routine?, hat] at hroutine
  obtain ⟨hid, hname, _, _, hcode⟩ := Routine.addAll_keeps cs (Routine.declared c.defs (r.1, ⟨i⟩))
  exact ⟨_, hroutine, hid, hname, hcode⟩

theorem entryRoutine (h : Emitted p g c heads entry L rest) (hp : Prepared c.defs p) :
    ∃ r, g.result.entryRoutine? = some r := by
  have hentry : (entry, entryCalls c p L) ∈ bodies g.calls := by
    rw [h.bodies_eq]
    exact List.mem_cons_self ..
  obtain ⟨r, hr, _⟩ := h.routine_of_body hp hentry
  refine ⟨r, ?_⟩
  rw [CodeModule.entryRoutine?, h.entry_eq]
  exact hr

end Emitted

end StackPascal
