import StackPascal.Operator

/-!
The types of values, and the rules by which operators and assignments accept
them.

* `commonType`: the type two scalars meet in, an `Int` widening to `Real`;
* `assignable`: which values a variable may take;
* `binaryResult`, `notResult`: where the operators apply, and what they give.
-/

namespace StackPascal

/-- `void` is the absence of a value, and the type of an expression that has
already been reported. -/
inductive BasicType
  | int | real | string | bool | void
  deriving DecidableEq

def BasicType.render : BasicType → String
  | int => "Int"
  | real => "Real"
  | string => "String"
  | bool => "Bool"
  | void => "Void"

structure ValueType where
  basic : BasicType
  isArray : Bool
  deriving DecidableEq

namespace ValueType

def scalar (b : BasicType) : ValueType := ⟨b, false⟩

def array (b : BasicType) : ValueType := ⟨b, true⟩

def int : ValueType := scalar .int

def real : ValueType := scalar .real

def string : ValueType := scalar .string

def bool : ValueType := scalar .bool

def void : ValueType := scalar .void

def element (t : ValueType) : ValueType := scalar t.basic

def isVoid (t : ValueType) : Bool := t.basic = .void

def isNumeric (t : ValueType) : Bool := !t.isArray && (t.basic = .int || t.basic = .real)

def render (t : ValueType) : String :=
  if t.isArray then t.basic.render ++ "[]" else t.basic.render

end ValueType

/-- The type two scalar operands meet in. -/
def commonType (a b : ValueType) : Option BasicType :=
  if a.isArray || b.isArray then none
  else
    match a.basic, b.basic with
    | .void, _ | _, .void => none
    | .int, .real | .real, .int => some .real
    | x, y => if x = y then some x else none

/-- Whether a value of type `value` may be stored in a variable of type `target`. -/
def assignable (target value : ValueType) : Bool :=
  if target.isArray || value.isArray then target = value
  else commonType target value = some target.basic

/-- The type in which an arithmetic or logical operator works on operands that
meet in `common`; the quotient of two integers is real. -/
def operandType (op : BinOp) (common : BasicType) : Option BasicType :=
  match common, op with
  | .int, .div => some .real
  | .int, .add | .int, .sub | .int, .mul | .int, .rem => some .int
  | .real, .add | .real, .sub | .real, .mul | .real, .div => some .real
  | .string, .add => some .string
  | .bool, .and | .bool, .or => some .bool
  | _, _ => none

/-- The type both operands are widened to, and the type of the result. -/
def binaryResult (op : BinOp) (left right : ValueType) : Option (BasicType × ValueType) :=
  match commonType left right with
  | none => none
  | some common =>
    if op.isComparison then some (common, .bool)
    else (operandType op common).map fun t => (t, .scalar t)

def notResult (operand : ValueType) : Option ValueType :=
  if operand = .bool then some .bool else none

end StackPascal
