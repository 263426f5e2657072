import StackPascal.Instr

/-!
Compiled modules, and their listing.

A module has statics and routines, one of which is the entry. `CodeModule.listing` shows
all of it line by line.
-/

namespace StackPascal

structure StaticDecl where
  name : String
  type : ValueType
  deriving DecidableEq

structure ParamDecl where
  name : String
  type : ValueType
  byRef : Bool
  deriving DecidableEq

/-- The slot of a local may be used again once its block has ended. -/
structure LocalDecl where
  slot : Nat
  name : String
  type : ValueType
  deriving DecidableEq

/-- `slots` is the number of local slots that an activation needs. -/
structure Routine where
  id : RoutineId
  name : String
  params : List ParamDecl
  result : ValueType
  locals : List LocalDecl
  slots : Nat
  code : List Instr
  deriving DecidableEq

structure CodeModule where
  routines : List Routine
  statics : List StaticDecl
  entry : Option RoutineId
  deriving DecidableEq

namespace CodeModule

def empty : CodeModule := ⟨[], [], none⟩

def routine? (m : CodeModule) (f : RoutineId) : Option Routine := m.routines[f.number]?

def named? (m : CodeModule) (name : String) : Option Routine := m.routines.find? (·.name = name)

def entryRoutine? (m : CodeModule) : Option Routine := m.entry.bind m.routine?

end CodeModule

/-! ## Listing -/

def ParamDecl.render (p : ParamDecl) : String :=
  (if p.byRef then "var " else "") ++ p.name ++ ": " ++ p.type.render

def renderParams (ps : List ParamDecl) : String := ", ".intercalate (ps.map ParamDecl.render)

def LocalDecl.render (l : LocalDecl) : String :=
  "  .local " ++ toString l.slot ++ " " ++ l.name ++ ": " ++ l.type.render

/-- Labels stand at the margin, instructions are indented. -/
def codeLine : Instr → String
  | .label l => (Instr.label l).render
  | i => "    " ++ i.render

/-- An empty line, the heading, the locals and the code. -/
def Routine.lines (r : Routine) : List String :=
  ["", "function " ++ r.id.render ++ " " ++ r.name ++ "(" ++ renderParams r.params ++ "): "
      ++ r.result.render]
    ++ r.locals.map LocalDecl.render ++ r.code.map codeLine

def staticLines (n : Nat) : List StaticDecl → List String
  | [] => []
  | s :: ss => (".static " ++ toString n ++ " " ++ s.name ++ ": " ++ s.type.render)
      :: staticLines (n + 1) ss

namespace CodeModule

def lines (m : CodeModule) : List String :=
  staticLines 0 m.statics
    ++ (match m.entry with
        | some f => [".entry " ++ f.render]
        | none => [])
    ++ m.routines.flatMap Routine.lines

def listing (m : CodeModule) : String := String.join (m.lines.map (· ++ "\n"))

end CodeModule

end StackPascal
