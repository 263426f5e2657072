import StackPascal.Binary64.Shortest
import StackPascal.Operator
import StackPascal.Position
import StackPascal.Text.Quoted
import StackPascal.Types

/-!
The instructions of the stack machine, and how a listing writes them.
-/

namespace StackPascal

structure RoutineId where
  number : Nat
  deriving DecidableEq

def RoutineId.render (f : RoutineId) : String := "f" ++ toString f.number

structure Label where
  number : Nat
  deriving DecidableEq

def Label.render (l : Label) : String := "L" ++ toString l.number

/-- Where a variable lives: in the module, or in the current activation as a
local slot or as an argument. -/
inductive Storage
  | static (index : Nat)
  | slot (index : Nat)
  | arg (index : Nat)
  deriving DecidableEq

def Storage.render : Storage → String
  | static n => "static[" ++ toString n ++ "]"
  | slot n => "local[" ++ toString n ++ "]"
  | arg n => "arg[" ++ toString n ++ "]"

inductive Instr
  | pushInt (value : Int)
  | pushReal (value : Binary64)
  | pushStr (value : String)
  | pushBool (value : Bool)
  | load (source : Storage)
  /-- pop a value into a variable -/
  | store (target : Storage)
  /-- push the address of a variable -/
  | loadAddr (place : Storage)
  /-- pop an address, push the value there -/
  | loadRef (type : ValueType)
  /-- pop a value and an address, store the value there -/
  | storeRef (type : ValueType)
  /-- pop a length, push an array of that many zero elements -/
  | newArray (element : BasicType)
  /-- pop an index and an array, push the element -/
  | loadElem (element : BasicType)
  /-- pop a value, an index and an array, store the element -/
  | storeElem (element : BasicType)
  /-- pop an index and an array, push the address of the element -/
  | elemAddr (element : BasicType)
  /-- pop an array, push its length -/
  | arrayLen
  | binary (op : BinOp) (operand : BasicType)
  | not
  | neg (operand : BasicType)
  /-- turn the integer on top of the stack into a real number -/
  | widen
  | call (routine : RoutineId)
  | ret
  | pop
  | jump (target : Label)
  | jumpIfFalse (target : Label)
  | jumpIfTrue (target : Label)
  | label (label : Label)
  /-- pop a condition, fail with the position if it is false -/
  | assert (pos : Position)
  /-- pop a value, push its text -/
  | toStr (type : ValueType)
  /-- pop an array of texts and a separator, push the joined text -/
  | join
  | writeLine
  | readLine
  /-- pop a text, push the value it writes -/
  | parse (type : BasicType)
  deriving DecidableEq

def renderBool (b : Bool) : String := if b then "true" else "false"

def Instr.render : Instr → String
  | pushInt n => "push.int " ++ toString n
  | pushReal r => "push.real " ++ r.render
  | pushStr s => "push.str " ++ Text.quoted s
  | pushBool b => "push.bool " ++ renderBool b
  | load s => "load " ++ s.render
  | store s => "store " ++ s.render
  | loadAddr s => "addr " ++ s.render
  | loadRef t => "load.ref " ++ t.render
  | storeRef t => "store.ref " ++ t.render
  | newArray t => "new.array " ++ t.render
  | loadElem t => "load.elem " ++ t.render
  | storeElem t => "store.elem " ++ t.render
  | elemAddr t => "addr.elem " ++ t.render
  | arrayLen => "array.len"
  | binary op t => op.mnemonic ++ " " ++ t.render
  | not => "not"
  | neg t => "neg " ++ t.render
  | widen => "widen"
  | call f => "call " ++ f.render
  | ret => "ret"
  | pop => "pop"
  | jump l => "jump " ++ l.render
  | jumpIfFalse l => "jump.false " ++ l.render
  | jumpIfTrue l => "jump.true " ++ l.render
  | label l => l.render ++ ":"
  | assert p => "assert " ++ p.render
  | toStr t => "to.str " ++ t.render
  | join => "join"
  | writeLine => "write.line"
  | readLine => "read.line"
  | parse t => "parse " ++ t.render

end StackPascal
