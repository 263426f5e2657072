import StackPascal.Proofs.Names.Alike

/-!
Modules that differ in their names only, and how they are built.

* `CodeModule.nameless`: a module with its names left out;
* `Emission.Matches`: builders that have got equally far, names aside;
* `Parallel`: two pieces of the generator that do the same, names aside;
* `Parallel.bind`: so do two of them after two others;
* `parallel_emit`, `parallel_declareLocal`: the commands are such pieces, whatever names
  they are given.
-/

namespace StackPascal

/-! ## Modules without names -/

def ParamDecl.nameless (p : ParamDecl) : ParamDecl := { p with name := "" }

def LocalDecl.nameless (l : LocalDecl) : LocalDecl := { l with name := "" }

def StaticDecl.nameless (s : StaticDecl) : StaticDecl := { s with name := "" }

def Routine.nameless (r : Routine) : Routine :=
  { r with
    name := ""
    params := r.params.map ParamDecl.nameless
    locals := r.locals.map LocalDecl.nameless }

/-- The module with the names of routines, parameters, locals and statics left out. -/
def CodeModule.nameless (m : CodeModule) : CodeModule :=
  { m with
    routines := m.routines.map Routine.nameless
    statics := m.statics.map StaticDecl.nameless }

namespace Builder

def nameless (b : Builder) : Builder := { b with result := b.result.nameless }

theorem nameless_updateCurrent (b : Builder) {f g : Routine → Routine}
    (h : ∀ r, (f r).nameless = g r.nameless) :
    (b.updateCurrent f).nameless = b.nameless.updateCurrent g := by
  obtain ⟨⟨routines, statics, entry⟩, current, scopes, nextSlot, nextLabel⟩ := b
  cases current with
  | none => rfl
  | some n =>
    have hmodify : (routines.modify n f).map Routine.nameless =
        (routines.map Routine.nameless).modify n g := by
      refine List.ext_getElem? fun i => ?_
      simp only [List.getElem?_map, List.getElem?_modify]
      cases routines[i]? with
      | none => rfl
      | some r =>
        show some (if n = i then f r else r).nameless = some (if n = i then g r.nameless else r.nameless)
        split
        · rw [h]
        · rfl
    unfold updateCurrent nameless CodeModule.nameless
    dsimp only
    rw [hmodify]

end Builder

/-! ## Pieces of the generator -/

/-- The builders have got equally far, the variables have the same storage, and the
same callables are put off. -/
structure Emission.Matches (s t : Emission) : Prop where
  builder : t.builder.nameless = s.builder.nameless
  storage : t.storage = s.storage
  pending : t.pending = s.pending

/-- Both end with the same, or both in an error. -/
inductive Outcomes {α : Type} : EStateM.Result InternalError Emission α →
    EStateM.Result InternalError Emission α → Prop
  | ok (a : α) {s t : Emission} : s.Matches t → Outcomes (.ok a s) (.ok a t)
  | error {e e' : InternalError} {s t : Emission} : s.Matches t → Outcomes (.error e s) (.error e' t)

/-- Two pieces of the generator that do the same, names aside. -/
def Parallel {α : Type} (m n : Gen α) : Prop :=
  ∀ s t : Emission, s.Matches t → Outcomes (m.run s) (n.run t)

namespace Parallel

variable {α β : Type} {m n : Gen α} {k l : α → Gen β}

theorem pure (a : α) : Parallel (pure a : Gen α) (pure a) := fun _ _ h => .ok a h

theorem throw (e e' : InternalError) : Parallel (throw e : Gen α) (throw e') := fun _ _ h => .error h

theorem bind (h : Parallel m n) (hk : ∀ a, Parallel (k a) (l a)) :
    Parallel (m >>= k) (n >>= l) := by
  intro s t hst
  have hmn : Outcomes (m s) (n t) := h s t hst
  show Outcomes (EStateM.bind m k s) (EStateM.bind n l t)
  unfold EStateM.bind
  generalize m s = r at hmn ⊢
  generalize n t = r' at hmn ⊢
  cases hmn with
  | ok a h' => exact hk a _ _ h'
  | error h' => exact .error h'

theorem get {k l : Emission → Gen α}
    (h : ∀ s t : Emission, s.Matches t → Outcomes ((k s).run s) ((l t).run t)) :
    Parallel (get >>= k) (get >>= l) := h

/-- A command that is recorded. What it does to the builder does not depend on names. -/
theorem command {f g h : Builder → α × Builder}
    (hm : ∀ s, ∃ calls, m.run s = .ok (f s.builder).1 { s with builder := (f s.builder).2, calls })
    (hn : ∀ s, ∃ calls, n.run s = .ok (g s.builder).1 { s with builder := (g s.builder).2, calls })
    (hf : ∀ b, ((f b).1, (f b).2.nameless) = h b.nameless)
    (hg : ∀ b, ((g b).1, (g b).2.nameless) = h b.nameless) : Parallel m n := by
  intro s t hst
  obtain ⟨calls, hrun⟩ := hm s
  obtain ⟨calls', hrun'⟩ := hn t
  have hboth := (hg t.builder).trans ((congrArg h hst.builder).trans (hf s.builder).symm)
  obtain ⟨hvalue, hbuilder⟩ := Prod.mk.inj hboth
  rw [hrun, hrun', hvalue]
  exact .ok _ ⟨hbuilder, hst.storage, hst.pending⟩

/-- The same command in both. -/
theorem same {f : Builder → α × Builder}
    (hm : ∀ s, ∃ calls, m.run s = .ok (f s.builder).1 { s with builder := (f s.builder).2, calls })
    (hf : ∀ b, ((f b).1, (f b).2.nameless) = f b.nameless) : Parallel m m :=
  command hm hm hf hf

end Parallel

/-! ## Commands -/

namespace Gen

theorem parallel_declareStatic (x y : String) (type : ValueType) :
    Parallel (declareStatic x type) (declareStatic y type) := by
  have hname : ∀ (x : String) (b : Builder),
      ((b.declareStatic x type).1, (b.declareStatic x type).2.nameless) =
        b.nameless.declareStatic "" type := by
    intro x b
    simp [Builder.declareStatic, Builder.nameless, CodeModule.nameless, StaticDecl.nameless]
  exact .command (f := fun b => b.declareStatic x type) (g := fun b => b.declareStatic y type)
    (h := fun b => b.declareStatic "" type) (fun _ => ⟨_, rfl⟩) (fun _ => ⟨_, rfl⟩) (hname x) (hname y)

theorem parallel_declareRoutine (x y : String) {ps qs : List ParamDecl}
    (h : qs.map ParamDecl.nameless = ps.map ParamDecl.nameless) (result : ValueType) :
    Parallel (declareRoutine x ps result) (declareRoutine y qs result) := by
  have hname : ∀ (x : String) (rs : List ParamDecl) (b : Builder),
      ((b.declareRoutine x rs result).1, (b.declareRoutine x rs result).2.nameless) =
        b.nameless.declareRoutine "" (rs.map ParamDecl.nameless) result := by
    intro x rs b
    simp [Builder.declareRoutine, Builder.nameless, CodeModule.nameless, Routine.nameless]
  refine .command (f := fun b => b.declareRoutine x ps result)
    (g := fun b => b.declareRoutine y qs result)
    (h := fun b => b.declareRoutine "" (ps.map ParamDecl.nameless) result)
    (fun _ => ⟨_, rfl⟩) (fun _ => ⟨_, rfl⟩) (hname x ps) fun b => ?_
  rw [hname y qs, h]

theorem parallel_declareLocal (x y : String) (type : ValueType) :
    Parallel (declareLocal x type) (declareLocal y type) := by
  have hname : ∀ (x : String) (b : Builder),
      ((b.declareLocal x type).1, (b.declareLocal x type).2.nameless) =
        b.nameless.declareLocal "" type := by
    intro x b
    refine congrArg (Prod.mk (Storage.slot b.nextSlot)) (Builder.nameless_updateCurrent _ fun r => ?_)
    simp [Routine.nameless, LocalDecl.nameless, Builder.nameless]
  exact .command (f := fun b => b.declareLocal x type) (g := fun b => b.declareLocal y type)
    (h := fun b => b.declareLocal "" type) (fun _ => ⟨_, rfl⟩) (fun _ => ⟨_, rfl⟩) (hname x) (hname y)

theorem parallel_newLabel : Parallel newLabel newLabel :=
  .same (f := Builder.newLabel) (fun _ => ⟨_, rfl⟩) fun _ => rfl

theorem parallel_beginRoutine (f : RoutineId) : Parallel (beginRoutine f) (beginRoutine f) :=
  .same (f := fun b => ((), b.beginRoutine f)) (fun _ => ⟨_, rfl⟩) fun _ => rfl

theorem parallel_endRoutine : Parallel endRoutine endRoutine :=
  .same (f := fun b => ((), b.endRoutine)) (fun _ => ⟨_, rfl⟩) fun _ => rfl

theorem parallel_beginScope : Parallel beginScope beginScope :=
  .same (f := fun b => ((), b.beginScope)) (fun _ => ⟨_, rfl⟩) fun _ => rfl

theorem parallel_endScope : Parallel endScope endScope := by
  refine .same (f := fun b => ((), b.endScope)) (fun _ => ⟨_, rfl⟩) fun b => ?_
  obtain ⟨result, current, scopes, nextSlot, nextLabel⟩ := b
  cases scopes <;> rfl

theorem parallel_setEntry (f : RoutineId) : Parallel (setEntry f) (setEntry f) :=
  .same (f := fun b => ((), b.setEntry f)) (fun _ => ⟨_, rfl⟩) fun _ => rfl

theorem parallel_emit (i : Instr) : Parallel (emit i) (emit i) :=
  .same (f := fun b => ((), b.emit i)) (fun _ => ⟨_, rfl⟩) fun b =>
    congrArg (Prod.mk ()) (b.nameless_updateCurrent fun _ => rfl)

theorem parallel_emitIf (needed : Bool) (i : Instr) : Parallel (emitIf needed i) (emitIf needed i) := by
  cases needed with
  | true => exact parallel_emit i
  | false => exact .pure ()

end Gen

end StackPascal
