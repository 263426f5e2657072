/-!
Nested scopes of names.

All live bindings stand in one list, the newest first, each with the scope it
was made in. Entering a scope notes how many bindings there are, leaving it
drops those made since. A name means its newest binding, so inner scopes
shadow outer ones. Scopes are numbered in the order in which they are entered;
number 0 is the scope of the predefined names, which is never left.
-/

namespace StackPascal

structure ScopeId where
  number : Nat
  deriving DecidableEq

namespace ScopeId

def predefined : ScopeId := ⟨0⟩

/-- The scope of the program block, the first one entered. -/
def program : ScopeId := ⟨1⟩

def render (s : ScopeId) : String := "#" ++ toString s.number

end ScopeId

structure Binding (α : Type) where
  name : String
  scope : ScopeId
  value : α

/-- An open scope, and how many bindings there were when it was entered. -/
structure OpenScope where
  id : ScopeId
  outer : Nat

structure ScopeTable (α : Type) where
  bindings : List (Binding α)
  inner : List OpenScope
  nextScope : Nat

namespace ScopeTable

variable {α : Type}

def empty : ScopeTable α := ⟨[], [], 1⟩

def current (t : ScopeTable α) : ScopeId :=
  match t.inner with
  | [] => .predefined
  | s :: _ => s.id

def enter (t : ScopeTable α) : ScopeTable α :=
  { t with inner := ⟨⟨t.nextScope⟩, t.bindings.length⟩ :: t.inner, nextScope := t.nextScope + 1 }

/-- Leaving the predefined scope does nothing. -/
def leave (t : ScopeTable α) : ScopeTable α :=
  match t.inner with
  | [] => t
  | s :: rest =>
    { t with bindings := t.bindings.drop (t.bindings.length - s.outer), inner := rest }

/-- The newest binding of a name. -/
def binding? (t : ScopeTable α) (name : String) : Option (Binding α) :=
  t.bindings.find? (·.name = name)

def find? (t : ScopeTable α) (name : String) : Option α := (t.binding? name).map (·.value)

/-- The value that the name has in the current scope itself. -/
def here? (t : ScopeTable α) (name : String) : Option α :=
  match t.binding? name with
  | some b => if b.scope = t.current then some b.value else none
  | none => none

/-- Binds the name in the current scope; a name that already has a value there
keeps it, and the value is returned. -/
def insert (t : ScopeTable α) (name : String) (value : α) : Except α (ScopeTable α) :=
  match t.here? name with
  | some existing => .error existing
  | none => .ok { t with bindings := ⟨name, t.current, value⟩ :: t.bindings }

end ScopeTable

end StackPascal
