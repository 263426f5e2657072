import StackPascal.Position
import StackPascal.ScopeTable
import StackPascal.Types

/-!
Definitions: one for every declared name, numbered in the order of
declaration.

A variable is global, or belongs to a callable as a variable of its body or as
a parameter. `Defs.owner` is the callable whose activation holds a variable;
the variables of the program block belong to the program itself, and the
predefined constants to none. A callable lists its parameters and variables,
and the variables of other callables that it uses.
-/

namespace StackPascal

structure DefId where
  number : Nat
  deriving DecidableEq

def DefId.render (d : DefId) : String := "d" ++ toString d.number

inductive CallableKind
  | procedure | function
  deriving DecidableEq

/-- Predefined procedures, which take any number of arguments. -/
inductive Intrinsic
  | print | read
  deriving DecidableEq

/-- `captures` holds the variables of enclosing callables, in the order of
first use. -/
structure CallableInfo where
  kind : CallableKind
  params : List DefId
  captures : List DefId
  locals : List DefId
  parent : Option DefId
  intrinsic : Option Intrinsic
  deriving DecidableEq

def CallableInfo.new (kind : CallableKind) (parent : Option DefId) : CallableInfo :=
  ⟨kind, [], [], [], parent, none⟩

inductive DefKind
  | global
  | owned (owner : DefId)
  | param (owner : DefId) (byRef : Bool)
  | callable (info : CallableInfo)
  deriving DecidableEq

structure Def where
  name : String
  type : ValueType
  scope : ScopeId
  kind : DefKind
  pos : Position
  deriving DecidableEq

namespace Def

def isVariable (d : Def) : Bool :=
  match d.kind with
  | .callable _ => false
  | _ => true

def isByRef (d : Def) : Bool :=
  match d.kind with
  | .param _ byRef => byRef
  | _ => false

def isGlobal (d : Def) : Bool :=
  match d.kind with
  | .global => true
  | _ => false

def isPredefined (d : Def) : Bool := d.scope = .predefined

def callable? (d : Def) : Option CallableInfo :=
  match d.kind with
  | .callable info => some info
  | _ => none

end Def

/-- `main` is the callable that stands for the program body. -/
structure Defs where
  list : List Def
  main : Option DefId
  deriving DecidableEq

namespace Defs

def empty : Defs := ⟨[], none⟩

def size (ds : Defs) : Nat := ds.list.length

/-- The number that the next definition will have. -/
def nextId (ds : Defs) : DefId := ⟨ds.list.length⟩

def push (ds : Defs) (d : Def) : Defs := { ds with list := ds.list ++ [d] }

def get? (ds : Defs) (id : DefId) : Option Def := ds.list[id.number]?

def ids (ds : Defs) : List DefId := (List.range ds.list.length).map DefId.mk

def callable? (ds : Defs) (id : DefId) : Option CallableInfo :=
  match ds.get? id with
  | some d => d.callable?
  | none => none

def nameOf (ds : Defs) (id : DefId) : String :=
  match ds.get? id with
  | some d => d.name
  | none => ""

def typeOf (ds : Defs) (id : DefId) : ValueType :=
  match ds.get? id with
  | some d => d.type
  | none => .void

def isVariable (ds : Defs) (id : DefId) : Bool :=
  match ds.get? id with
  | some d => d.isVariable
  | none => false

def isByRef (ds : Defs) (id : DefId) : Bool :=
  match ds.get? id with
  | some d => d.isByRef
  | none => false

def isGlobal (ds : Defs) (id : DefId) : Bool :=
  match ds.get? id with
  | some d => d.isGlobal
  | none => false

def kindOf? (ds : Defs) (id : DefId) : Option CallableKind := (ds.callable? id).map (·.kind)

def capturesOf (ds : Defs) (id : DefId) : List DefId :=
  match ds.callable? id with
  | some info => info.captures
  | none => []

/-- The callable whose activation holds the storage of a variable. -/
def owner (ds : Defs) (id : DefId) : Option DefId :=
  match ds.get? id with
  | some d =>
    match d.kind with
    | .owned owner => some owner
    | .param owner _ => some owner
    | .global => if d.isPredefined then none else ds.main
    | .callable _ => none
  | none => none

/-- Changes what is known of a callable; anything else stays as it is. -/
def updateCallable (ds : Defs) (id : DefId) (f : CallableInfo → CallableInfo) : Defs :=
  match ds.get? id with
  | some d =>
    match d.kind with
    | .callable info =>
      { ds with list := ds.list.set id.number { d with kind := .callable (f info) } }
    | _ => ds
  | none => ds

def addParam (ds : Defs) (callable param : DefId) : Defs :=
  ds.updateCallable callable fun info => { info with params := info.params ++ [param] }

def addLocal (ds : Defs) (callable declared : DefId) : Defs :=
  ds.updateCallable callable fun info => { info with locals := info.locals ++ [declared] }

/-- Whether recording that the callable uses the variable would be news. -/
def lacksCapture (ds : Defs) (callable captured : DefId) : Bool :=
  match ds.callable? callable with
  | some info => !info.captures.contains captured
  | none => false

/-- Records that the callable uses a variable of another one, if it is news. -/
def addCapture (ds : Defs) (callable captured : DefId) : Defs :=
  if ds.lacksCapture callable captured then
    ds.updateCallable callable fun info => { info with captures := info.captures ++ [captured] }
  else ds

end Defs

end StackPascal
