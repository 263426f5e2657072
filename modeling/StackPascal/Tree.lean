import StackPascal.Binary64
import StackPascal.Operator
import StackPascal.Position
import StackPascal.Types

/-!
The tree of a program.

Every node knows where it stands. An expression has a sign, which the parser
toggles for each minus in front of it; its position is that of its first token,
for a binary expression that of the operator.
-/

namespace StackPascal

/-- A name where it stands in the text. -/
structure Ident where
  text : String
  pos : Position
  deriving DecidableEq

inductive Literal
  | int (value : Int)
  | real (value : Binary64)
  | string (value : String)
  deriving DecidableEq

/-- Names, elements and calls stand where their name stands. -/
inductive Expr
  | literal (value : Literal) (sign : Sign) (pos : Position)
  | binary (op : BinOp) (left right : Expr) (sign : Sign) (pos : Position)
  | not (operand : Expr) (sign : Sign) (pos : Position)
  | call (callee : Ident) (args : List Expr) (sign : Sign)
  | member (base : Expr) (member : Ident) (sign : Sign) (pos : Position)
  | name (name : Ident) (sign : Sign)
  | element (name : Ident) (index : Expr) (sign : Sign)

namespace Expr

def sign : Expr → Sign
  | literal _ s _ | binary _ _ _ s _ | not _ s _ | call _ _ s | member _ _ s _ | name _ s
  | element _ _ s => s

def pos : Expr → Position
  | literal _ _ p | binary _ _ _ _ p | not _ _ p | member _ _ _ p => p
  | call c _ _ => c.pos
  | name n _ | element n _ _ => n.pos

/-- The expression after one more minus in front of it. -/
def negate : Expr → Expr
  | literal v s p => literal v s.toggle p
  | binary op l r s p => binary op l r s.toggle p
  | not e s p => not e s.toggle p
  | call c args s => call c args s.toggle
  | member b m s p => member b m s.toggle p
  | name n s => name n s.toggle
  | element n i s => element n i s.toggle

/-- The expression with a sign in front of it. -/
def signed (e : Expr) : Sign → Expr
  | .plus => e
  | .minus => e.negate

end Expr

/-- What an assignment writes to. -/
inductive Target
  | name (name : Ident)
  | element (name : Ident) (index : Expr)

namespace Target

def ident : Target → Ident
  | name n | element n _ => n

/-- The target read as an expression. -/
def expr : Target → Expr
  | name n => .name n .plus
  | element n i => .element n i .plus

end Target

/-- A written type; an array may say its size. -/
inductive TypeExpr
  | scalar (basic : BasicType) (pos : Position)
  | array (element : BasicType) (size : Option Expr) (pos : Position)

namespace TypeExpr

def pos : TypeExpr → Position
  | scalar _ p | array _ _ p => p

def type : TypeExpr → ValueType
  | scalar b _ => .scalar b
  | array b _ _ => .array b

end TypeExpr

structure Param where
  name : Ident
  type : TypeExpr
  byRef : Bool

/-- A procedure has no result type, a function has one. -/
structure Heading where
  name : Ident
  params : List Param
  result : Option TypeExpr
  pos : Position

/-- A block is given by the position of its `begin` and its statements; an
assignment and a call stand where their first name stands. -/
inductive Stmt
  | declare (names : List Ident) (type : TypeExpr) (pos : Position)
  | callable (heading : Heading) (start : Position) (body : List Stmt)
  | assign (target : Target) (value : Expr)
  | ifThen (cond : Expr) (yes : Stmt) (pos : Position)
  | ifElse (cond : Expr) (yes no : Stmt) (pos : Position)
  | whileDo (cond : Expr) (body : Stmt) (pos : Position)
  | call (callee : Ident) (args : List Expr)
  | ret (value : Option Expr) (pos : Position)
  | assert (cond : Expr) (pos : Position)
  | block (start : Position) (body : List Stmt)

structure Program where
  name : Ident
  start : Position
  body : List Stmt
  pos : Position

end StackPascal
