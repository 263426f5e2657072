import StackPascal.Generator

/-!
What a piece of generation does, command by command.

* `Layout`: what the commands depend on, apart from the code itself;
* `Runs`: a piece of generation succeeds, with given commands and replies, and
  leads from one layout to another;
* `Runs.bind`: pieces one after the other.
-/

namespace StackPascal

namespace Builder

theorem run_append (b : Builder) (cs ds : List Command) :
    b.run (cs ++ ds) = ((b.run cs).1 ++ ((b.run cs).2.run ds).1, ((b.run cs).2.run ds).2) := by
  induction cs generalizing b with
  | nil => rfl
  | cons c cs ih =>
    simp only [List.cons_append, run, ih]

/-- The builder gives these replies to these commands, and becomes `b'`. -/
def Answers (b : Builder) (cs : List Call) (b' : Builder) : Prop :=
  b.run (cs.map Call.command) = (cs.map Call.reply, b')

theorem Answers.append {b b' b'' : Builder} {cs ds : List Call} (h : b.Answers cs b')
    (k : b'.Answers ds b'') : b.Answers (cs ++ ds) b'' := by
  unfold Answers at *
  rw [List.map_append, run_append, h, k, List.map_append]

theorem answers_nil {b b' : Builder} : b.Answers [] b' ↔ b = b' :=
  ⟨fun h => (Prod.mk.inj h).2, fun h => congrArg (Prod.mk []) h⟩

theorem answers_cons {b b' : Builder} {c : Call} {cs : List Call} :
    b.Answers (c :: cs) b' ↔ (b.step c.command).1 = c.reply ∧ (b.step c.command).2.Answers cs b' := by
  unfold Answers
  simp only [List.map_cons, run, Prod.mk.injEq, List.cons.injEq]
  constructor
  · rintro ⟨⟨h, hs⟩, hb⟩
    exact ⟨h, Prod.ext hs hb⟩
  · rintro ⟨h, hs⟩
    exact ⟨⟨h, congrArg Prod.fst hs⟩, congrArg Prod.snd hs⟩

end Builder

/-! ## Layouts -/

/-- Where the variables declared so far are. -/
abbrev Places := List (DefId × Storage)

/-- Where a variable is; any place serves for one that is nowhere. -/
def Places.of (σ : Places) (id : DefId) : Storage := (σ.lookup id).getD (.slot 0)

/-- What the commands of a piece of generation depend on: where the variables
are, which bodies are put off, and the counters of the builder. -/
structure Layout where
  storage : Places
  pending : List (DefId × List TypedStmt)
  slots : Nat
  scopes : List Nat
  statics : Nat
  routines : Nat
  labels : Nat

namespace Layout

def empty : Layout := ⟨[], [], 0, [], 0, 0, 0⟩

def bind (L : Layout) (id : DefId) (place : Storage) : Layout :=
  { L with storage := (id, place) :: L.storage }

def takeSlot (L : Layout) : Layout := { L with slots := L.slots + 1 }

def takeStatic (L : Layout) : Layout := { L with statics := L.statics + 1 }

def takeRoutine (L : Layout) : Layout := { L with routines := L.routines + 1 }

def takeLabel (L : Layout) : Layout := { L with labels := L.labels + 1 }

def beginRoutine (L : Layout) : Layout := { L with slots := 0, scopes := [] }

def beginScope (L : Layout) : Layout := { L with scopes := L.slots :: L.scopes }

def endScope (L : Layout) : Layout :=
  match L.scopes with
  | [] => L
  | n :: rest => { L with scopes := rest, slots := n }

def defer (L : Layout) (id : DefId) (body : List TypedStmt) : Layout :=
  { L with pending := L.pending ++ [(id, body)] }

end Layout

def Emission.layout (s : Emission) : Layout where
  storage := s.storage
  pending := s.pending
  slots := s.builder.nextSlot
  scopes := s.builder.scopes
  statics := s.builder.result.statics.length
  routines := s.builder.result.routines.length
  labels := s.builder.nextLabel

/-! ## Pieces of generation -/

/-- From the layout `L`, the generation `m` succeeds with `a`, gives the
commands `cs`, and leaves the layout `L'`. -/
def Runs {α : Type} (m : Gen α) (L : Layout) (a : α) (cs : List Call) (L' : Layout) : Prop :=
  ∀ s : Emission, s.layout = L → ∃ s' : Emission,
    m.run s = .ok a s' ∧ s'.layout = L' ∧ s'.calls = cs.reverse ++ s.calls ∧
      s.builder.Answers cs s'.builder

/-- The calls that emit instructions. -/
def emits (is : List Instr) : List Call := is.map fun i => ⟨.emit i, .done⟩

@[simp] theorem emits_nil : emits [] = [] := rfl

@[simp] theorem emits_cons (i : Instr) (is : List Instr) :
    emits (i :: is) = ⟨.emit i, .done⟩ :: emits is := rfl

@[simp] theorem emits_append (is js : List Instr) : emits (is ++ js) = emits is ++ emits js :=
  List.map_append

namespace Runs

variable {α β : Type} {m : Gen α} {k : α → Gen β} {a : α} {b : β} {L L' L'' : Layout}
  {cs ds : List Call}

theorem pure : Runs (Pure.pure a) L a [] L := fun s hs =>
  ⟨s, rfl, hs, rfl, Builder.answers_nil.mpr rfl⟩

theorem bind (h : Runs m L a cs L') (hk : Runs (k a) L' b ds L'') :
    Runs (m >>= k) L b (cs ++ ds) L'' := by
  intro s hs
  obtain ⟨t, hrun, ht, hcalls, hbuilder⟩ := h s hs
  obtain ⟨u, hrun', hu, hcalls', hbuilder'⟩ := hk t ht
  refine ⟨u, ?_, hu, ?_, hbuilder.append hbuilder'⟩
  · rw [EStateM.run_bind, hrun]
    exact hrun'
  · rw [hcalls', hcalls, List.reverse_append, List.append_assoc]

theorem cast (h : Runs m L a cs L') (hc : cs = ds) (hL : L' = L'') : Runs m L a ds L'' :=
  hc ▸ hL ▸ h

/-- The commands of a piece that began with nothing, in order. -/
theorem calls_eq (h : Runs m L a cs L') {s : Emission} (hs : s.layout = L) (he : s.calls = []) :
    ∃ s', m.run s = .ok a s' ∧ s'.layout = L' ∧ s'.calls.reverse = cs ∧
      s.builder.Answers cs s'.builder := by
  obtain ⟨s', hrun, hL, hcalls, hbuilder⟩ := h s hs
  refine ⟨s', hrun, hL, ?_, hbuilder⟩
  rw [hcalls, he, List.append_nil, List.reverse_reverse]

end Runs

/-! ## Single commands -/

namespace Gen

theorem length_updateCurrent (b : Builder) (f : Routine → Routine) :
    (b.updateCurrent f).result.routines.length = b.result.routines.length ∧
      (b.updateCurrent f).result.statics = b.result.statics ∧
      (b.updateCurrent f).scopes = b.scopes ∧ (b.updateCurrent f).nextSlot = b.nextSlot ∧
      (b.updateCurrent f).nextLabel = b.nextLabel := by
  unfold Builder.updateCurrent
  cases b.current with
  | none => exact ⟨rfl, rfl, rfl, rfl, rfl⟩
  | some n => exact ⟨List.length_modify .., rfl, rfl, rfl, rfl⟩

variable {L : Layout}

/-- A command that is recorded as it is, with the reply of the builder. -/
theorem runs_command {α : Type} {m : Gen α} {L' : Layout} {a : α} {command : Command} {reply : Reply}
    (hm : ∀ s : Emission, s.layout = L → m.run s = .ok a
      { s with builder := (s.builder.step command).2, calls := ⟨command, reply⟩ :: s.calls })
    (hr : ∀ s : Emission, s.layout = L → (s.builder.step command).1 = reply)
    (hL : ∀ s : Emission, s.layout = L →
      Emission.layout { s with builder := (s.builder.step command).2 } = L') :
    Runs m L a [⟨command, reply⟩] L' := fun s hs =>
  ⟨_, hm s hs, hL s hs, rfl, Builder.answers_cons.mpr ⟨hr s hs, Builder.answers_nil.mpr rfl⟩⟩

theorem runs_emit (i : Instr) : Runs (emit i) L () (emits [i]) L := by
  refine runs_command (fun s _ => rfl) (fun s _ => rfl) fun s hs => ?_
  obtain ⟨hr, ht, hsc, hsl, hl⟩ := length_updateCurrent s.builder fun r => { r with code := r.code ++ [i] }
  rw [← hs]
  simp only [Builder.step, Builder.emit, Emission.layout, hr, ht, hsc, hsl, hl]

theorem runs_declareStatic (name : String) (type : ValueType) :
    Runs (declareStatic name type) L (.static L.statics)
      [⟨.declareStatic name type, .storage (.static L.statics)⟩] L.takeStatic := by
  refine runs_command (fun s hs => ?_) (fun s hs => ?_) fun s hs => ?_ <;> subst hs
  · rfl
  · rfl
  · simp [Builder.step, Builder.declareStatic, Emission.layout, Layout.takeStatic]

theorem runs_declareRoutine (name : String) (params : List ParamDecl) (result : ValueType) :
    Runs (declareRoutine name params result) L ⟨L.routines⟩
      [⟨.declareRoutine name params result, .routine ⟨L.routines⟩⟩] L.takeRoutine := by
  refine runs_command (fun s hs => ?_) (fun s hs => ?_) fun s hs => ?_ <;> subst hs
  · rfl
  · rfl
  · simp [Builder.step, Builder.declareRoutine, Emission.layout, Layout.takeRoutine]

theorem runs_declareLocal (name : String) (type : ValueType) :
    Runs (declareLocal name type) L (.slot L.slots)
      [⟨.declareLocal name type, .storage (.slot L.slots)⟩] L.takeSlot := by
  refine runs_command (fun s hs => ?_) (fun s hs => ?_) fun s hs => ?_ <;> subst hs
  · rfl
  · rfl
  · obtain ⟨hr, ht, hsc, hsl, hl⟩ := length_updateCurrent
      { s.builder with nextSlot := s.builder.nextSlot + 1 } fun r =>
        { r with slots := max r.slots (s.builder.nextSlot + 1),
                 locals := r.locals ++ [⟨s.builder.nextSlot, name, type⟩] }
    simp only [Builder.step, Builder.declareLocal, Emission.layout, Layout.takeSlot, hr, ht, hsc,
      hsl, hl]

theorem runs_newLabel :
    Runs newLabel L ⟨L.labels⟩ [⟨.newLabel, .label ⟨L.labels⟩⟩] L.takeLabel := by
  refine runs_command (fun s hs => ?_) (fun s hs => ?_) fun s hs => ?_ <;> subst hs <;> rfl

theorem runs_beginRoutine (f : RoutineId) :
    Runs (beginRoutine f) L () [⟨.beginRoutine f, .done⟩] L.beginRoutine := by
  refine runs_command (fun s _ => rfl) (fun s _ => rfl) fun s hs => ?_
  subst hs
  rfl

theorem runs_endRoutine : Runs endRoutine L () [⟨.endRoutine, .done⟩] L := by
  refine runs_command (fun s _ => rfl) (fun s _ => rfl) fun s hs => ?_
  subst hs
  rfl

theorem runs_setEntry (f : RoutineId) : Runs (setEntry f) L () [⟨.setEntry f, .done⟩] L := by
  refine runs_command (fun s _ => rfl) (fun s _ => rfl) fun s hs => ?_
  subst hs
  rfl

theorem runs_beginScope : Runs beginScope L () [⟨.beginScope, .done⟩] L.beginScope := by
  refine runs_command (fun s _ => rfl) (fun s _ => rfl) fun s hs => ?_
  subst hs
  rfl

theorem runs_endScope : Runs endScope L () [⟨.endScope, .done⟩] L.endScope := by
  refine runs_command (fun s _ => rfl) (fun s _ => rfl) fun s hs => ?_
  subst hs
  simp only [Layout.endScope, Builder.step, Builder.endScope, Emission.layout]
  cases h : s.builder.scopes <;> simp [h]

/-! ## Changes without a command -/

theorem runs_setStorage (id : DefId) (place : Storage) :
    Runs (setStorage id place) L () [] (L.bind id place) := fun s hs =>
  ⟨{ s with storage := (id, place) :: s.storage }, rfl, by subst hs; rfl, rfl,
    Builder.answers_nil.mpr rfl⟩

theorem runs_defer (id : DefId) (body : List TypedStmt) :
    Runs (modify fun s : Emission => { s with pending := s.pending ++ [(id, body)] }) L () []
      (L.defer id body) := fun s hs =>
  ⟨{ s with pending := s.pending ++ [(id, body)] }, rfl, by subst hs; rfl, rfl,
    Builder.answers_nil.mpr rfl⟩

theorem runs_storageOf {c : GenContext} {id : DefId} (h : (L.storage.lookup id).isSome) :
    Runs (storageOf c id) L (L.storage.of id) [] L := by
  intro s hs
  obtain ⟨place, hp⟩ := Option.isSome_iff_exists.mp h
  refine ⟨s, ?_, hs, rfl, Builder.answers_nil.mpr rfl⟩
  have hlookup : s.storage.lookup id = some place := by rw [← hp, ← hs]; rfl
  unfold storageOf Places.of
  rw [hp, EStateM.run_bind]
  simp only [EStateM.run_get, hlookup]
  rfl

theorem runs_routineOf {c : GenContext} {id : DefId} {f : RoutineId}
    (h : c.routines.lookup id = some f) : Runs (routineOf c id) L f [] L := by
  unfold routineOf
  rw [h]
  exact .pure

end Gen

end StackPascal
