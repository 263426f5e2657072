import StackPascal.Binary64
import StackPascal.Definition
import StackPascal.Operator
import StackPascal.Tree

/-!
The typed tree: names are resolved to definitions, and every expression has a
type. What has been reported stands as `bad`, of type `Void`.
-/

namespace StackPascal

structure ExprInfo where
  type : ValueType
  sign : Sign
  pos : Position
  deriving DecidableEq

/-- `operand` is the type to which both sides of an operation are widened. -/
inductive TypedExpr
  | literal (value : Literal) (info : ExprInfo)
  | binary (op : BinOp) (operand : BasicType) (left right : TypedExpr) (info : ExprInfo)
  | not (operand : TypedExpr) (info : ExprInfo)
  | call (callee : DefId) (args : List TypedExpr) (info : ExprInfo)
  | size (array : TypedExpr) (info : ExprInfo)
  | name (id : DefId) (info : ExprInfo)
  | element (id : DefId) (index : TypedExpr) (info : ExprInfo)
  | bad (info : ExprInfo)

namespace TypedExpr

def info : TypedExpr → ExprInfo
  | literal _ i | binary _ _ _ _ i | not _ i | call _ _ i | size _ i | name _ i | element _ _ i
  | bad i => i

def type (e : TypedExpr) : ValueType := e.info.type

def sign (e : TypedExpr) : Sign := e.info.sign

def pos (e : TypedExpr) : Position := e.info.pos

def isVoid (e : TypedExpr) : Bool := e.type.isVoid

def mapInfo (f : ExprInfo → ExprInfo) : TypedExpr → TypedExpr
  | literal v i => literal v (f i)
  | binary op t l r i => binary op t l r (f i)
  | not e i => not e (f i)
  | call c args i => call c args (f i)
  | size a i => size a (f i)
  | name d i => name d (f i)
  | element d e i => element d e (f i)
  | bad i => bad (f i)

def withSign (e : TypedExpr) (sign : Sign) : TypedExpr :=
  e.mapInfo fun i => { i with sign := sign }

/-- What stands for an expression that has been reported. -/
def reported (pos : Position) : TypedExpr := bad ⟨.void, .plus, pos⟩

/-- Whether the expression denotes storage that can be passed by reference. -/
def isPlace : TypedExpr → Bool
  | name _ _ | element _ _ _ => true
  | _ => false

def isVariable (e : TypedExpr) : Bool := e.isPlace && e.sign = .plus

end TypedExpr

/-- What an assignment writes to. -/
inductive Place
  | name (id : DefId)
  | element (id : DefId) (index : TypedExpr)

def TypedExpr.place? : TypedExpr → Option Place
  | name id _ => some (.name id)
  | element id index _ => some (.element id index)
  | _ => none

inductive TypedStmt
  | declare (ids : List DefId) (type : ValueType) (size : Option TypedExpr) (pos : Position)
  | callable (id : DefId) (body : List TypedStmt)
  | assign (target : Place) (value : TypedExpr) (pos : Position)
  | ifThen (cond : TypedExpr) (yes : TypedStmt) (pos : Position)
  | ifElse (cond : TypedExpr) (yes no : TypedStmt) (pos : Position)
  | whileDo (cond : TypedExpr) (body : TypedStmt) (pos : Position)
  | call (callee : DefId) (args : List TypedExpr) (pos : Position)
  | ret (value : Option TypedExpr) (pos : Position)
  | assert (cond : TypedExpr) (pos : Position)
  | block (body : List TypedStmt)

structure TypedProgram where
  name : String
  main : DefId
  body : List TypedStmt

end StackPascal
