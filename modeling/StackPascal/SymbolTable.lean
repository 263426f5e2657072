import Std.Data.HashMap
import StackPascal.ScopeTable

/-!
Nested scopes of names, looked up by name.

Every bound name has a stack of its values, the newest first, each with the scope
it was made in. All scopes share one log of the names bound since the start, the
newest first. A scope that is entered notes how long the log is; when it is left,
the log is rolled back to that length, which takes the newest value off the stack
of each name it drops. A `ScopeTable` holds the same bindings in one list.
-/

namespace StackPascal

structure SymbolTable (α : Type) where
  map : Std.HashMap String (List (ScopeId × α))
  changes : List String
  /-- The innermost scope first, the predefined one last. -/
  scopes : List OpenScope
  nextScope : Nat

namespace SymbolTable

variable {α : Type}

def empty : SymbolTable α := ⟨∅, [], [⟨.predefined, 0⟩], 1⟩

def current (t : SymbolTable α) : ScopeId :=
  match t.scopes with
  | [] => .predefined
  | s :: _ => s.id

def enter (t : SymbolTable α) : SymbolTable α :=
  { t with scopes := ⟨⟨t.nextScope⟩, t.changes.length⟩ :: t.scopes, nextScope := t.nextScope + 1 }

/-- Takes the newest value of a name away, and the name with its last one. -/
def unbind (map : Std.HashMap String (List (ScopeId × α))) (name : String) :
    Std.HashMap String (List (ScopeId × α)) :=
  match map[name]? with
  | none => map
  | some stack => if stack.tail.isEmpty then map.erase name else map.insert name stack.tail

/-- Undoes the changes of a log, the newest first, as long as more than `outer` are left. -/
def rollback (outer : Nat) (map : Std.HashMap String (List (ScopeId × α))) :
    List String → Std.HashMap String (List (ScopeId × α)) × List String
  | [] => (map, [])
  | name :: changes =>
    if outer < changes.length + 1 then rollback outer (unbind map name) changes
    else (map, name :: changes)

/-- Leaving the predefined scope does nothing. -/
def leave (t : SymbolTable α) : SymbolTable α :=
  match t.scopes with
  | s :: outer :: rest =>
    let (map, changes) := rollback s.outer t.map t.changes
    { t with map := map, changes := changes, scopes := outer :: rest }
  | _ => t

/-- The newest value of a name, and its scope. -/
def newest? (t : SymbolTable α) (name : String) : Option (ScopeId × α) :=
  t.map[name]?.bind List.head?

def find? (t : SymbolTable α) (name : String) : Option α := (t.newest? name).map Prod.snd

def declaredHere (t : SymbolTable α) (name : String) : Bool :=
  match t.newest? name with
  | some (scope, _) => scope = t.current
  | none => false

/-- Binds the name in the current scope and logs it; a name that already has a value
there keeps it, and the value is returned. -/
def insert (t : SymbolTable α) (name : String) (value : α) : Except α (SymbolTable α) :=
  let stack := t.map.getD name []
  let bound := { t with
    map := t.map.insert name ((t.current, value) :: stack)
    changes := name :: t.changes }
  match stack with
  | (scope, existing) :: _ => if scope = t.current then .error existing else .ok bound
  | [] => .ok bound

end SymbolTable

end StackPascal
