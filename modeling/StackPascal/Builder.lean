import StackPascal.CodeModule

/-!
Building a module command by command.

A command declares something, opens or closes a routine or a scope, or emits an
instruction into the open routine. Local slots are counted within a routine;
the end of a scope frees the slots taken since its beginning. Labels are
numbered through the whole module.
-/

namespace StackPascal

inductive Command
  | declareStatic (name : String) (type : ValueType)
  | declareRoutine (name : String) (params : List ParamDecl) (result : ValueType)
  | beginRoutine (routine : RoutineId)
  | endRoutine
  | declareLocal (name : String) (type : ValueType)
  | beginScope
  | endScope
  | newLabel
  | emit (instr : Instr)
  | setEntry (routine : RoutineId)
  deriving DecidableEq

/-- What a command hands out. -/
inductive Reply
  | done
  | storage (s : Storage)
  | routine (f : RoutineId)
  | label (l : Label)
  deriving DecidableEq

/-- `current` is the number of the open routine; `scopes` holds the slot
counter at the beginning of each open scope, the innermost first. -/
structure Builder where
  result : CodeModule
  current : Option Nat
  scopes : List Nat
  nextSlot : Nat
  nextLabel : Nat
  deriving DecidableEq

namespace Builder

def empty : Builder := ⟨.empty, none, [], 0, 0⟩

/-- Changes the open routine, if one is open and it has been declared. -/
def updateCurrent (b : Builder) (f : Routine → Routine) : Builder :=
  match b.current with
  | none => b
  | some n => { b with result := { b.result with routines := b.result.routines.modify n f } }

def declareStatic (b : Builder) (name : String) (type : ValueType) : Storage × Builder :=
  (.static b.result.statics.length,
   { b with result := { b.result with statics := b.result.statics ++ [⟨name, type⟩] } })

def declareRoutine (b : Builder) (name : String) (params : List ParamDecl)
    (result : ValueType) : RoutineId × Builder :=
  let id : RoutineId := ⟨b.result.routines.length⟩
  (id, { b with
    result := { b.result with
      routines := b.result.routines ++ [⟨id, name, params, result, [], 0, []⟩] } })

/-- A routine starts with slot 0, even if it is begun again. -/
def beginRoutine (b : Builder) (f : RoutineId) : Builder :=
  { b with current := some f.number, scopes := [], nextSlot := 0 }

def endRoutine (b : Builder) : Builder := { b with current := none }

/-- Takes the next slot; outside a routine nothing is recorded of it. -/
def declareLocal (b : Builder) (name : String) (type : ValueType) : Storage × Builder :=
  let slot := b.nextSlot
  (.slot slot,
   updateCurrent { b with nextSlot := slot + 1 } fun r =>
     { r with slots := max r.slots (slot + 1), locals := r.locals ++ [⟨slot, name, type⟩] })

def beginScope (b : Builder) : Builder := { b with scopes := b.nextSlot :: b.scopes }

/-- The end of a scope that was never begun does nothing. -/
def endScope (b : Builder) : Builder :=
  match b.scopes with
  | [] => b
  | n :: rest => { b with scopes := rest, nextSlot := n }

def newLabel (b : Builder) : Label × Builder :=
  (⟨b.nextLabel⟩, { b with nextLabel := b.nextLabel + 1 })

def emit (b : Builder) (i : Instr) : Builder :=
  b.updateCurrent fun r => { r with code := r.code ++ [i] }

def setEntry (b : Builder) (f : RoutineId) : Builder :=
  { b with result := { b.result with entry := some f } }

def step (b : Builder) : Command → Reply × Builder
  | .declareStatic name type =>
    let (s, b) := b.declareStatic name type
    (.storage s, b)
  | .declareRoutine name params result =>
    let (f, b) := b.declareRoutine name params result
    (.routine f, b)
  | .beginRoutine f => (.done, b.beginRoutine f)
  | .endRoutine => (.done, b.endRoutine)
  | .declareLocal name type =>
    let (s, b) := b.declareLocal name type
    (.storage s, b)
  | .beginScope => (.done, b.beginScope)
  | .endScope => (.done, b.endScope)
  | .newLabel =>
    let (l, b) := b.newLabel
    (.label l, b)
  | .emit i => (.done, b.emit i)
  | .setEntry f => (.done, b.setEntry f)

def run (b : Builder) : List Command → List Reply × Builder
  | [] => ([], b)
  | c :: cs =>
    let (r, next) := b.step c
    let (rs, last) := next.run cs
    (r :: rs, last)

end Builder

/-- A command with what it handed out. -/
structure Call where
  command : Command
  reply : Reply
  deriving DecidableEq

end StackPascal
