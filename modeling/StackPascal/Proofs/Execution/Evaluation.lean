import Mathlib.Logic.Function.Basic
import StackPascal.Proofs.Execution.Values
import StackPascal.Proofs.Scoping

/-!
What the statements of a typed tree do, evaluated directly.

* `Store`: what the variables, the arrays and the output hold;
* `TypedExpr.eval`: the value of an expression;
* `TypedStmt.exec`, `TypedStmt.execIn`: what a statement makes of a store, with a
  bound on the rounds of each loop.

Calls of routines and returns leave the activation and are undefined here.
-/

namespace StackPascal

/-- An array is a reference. -/
inductive Value
  | scalar (value : Scalar)
  | array (ref : Nat)
  deriving DecidableEq

namespace Value

def scalar? : Value → Option Scalar
  | scalar x => some x
  | array _ => none

def array? : Value → Option Nat
  | array r => some r
  | scalar _ => none

def nat? (v : Value) : Option Nat := v.scalar?.bind Scalar.nat?

def bool? : Value → Option Bool
  | scalar (.bool b) => some b
  | _ => none

end Value

/-- What a reference parameter refers to: a variable that is visible, a variable
of another activation, or an element of an array. -/
inductive Location
  | named (id : DefId)
  | outside (index : Nat)
  | element (array index : Nat)
  deriving DecidableEq

/-- `vars` holds a variable from the execution of its declaration to the end of
its block, `outside` the variables of other activations. -/
structure Store where
  vars : DefId → Option Value
  outside : Nat → Option Value
  heap : Heap
  lines : List String

namespace Store

def read (st : Store) : Location → Option Value
  | .named id => st.vars id
  | .outside n => st.outside n
  | .element r i => (st.heap.read r i).map .scalar

/-- What is written to a variable whose declaration has not been executed is lost. -/
def write (st : Store) (v : Value) : Location → Option Store
  | .named id =>
    some (if (st.vars id).isSome then { st with vars := Function.update st.vars id (some v) } else st)
  | .outside n => some { st with outside := Function.update st.outside n (some v) }
  | .element r i => v.scalar?.bind fun x => (st.heap.write r i x).map fun h => { st with heap := h }

def declare (st : Store) (id : DefId) (v : Value) : Store :=
  { st with vars := Function.update st.vars id (some v) }

@[simp] theorem vars_declare_self (st : Store) (id : DefId) (v : Value) :
    (st.declare id v).vars id = some v := Function.update_self ..

theorem vars_declare_ne (st : Store) {id u : DefId} (v : Value) (h : u ≠ id) :
    (st.declare id v).vars u = st.vars u := Function.update_of_ne h ..

/-- The variables are gone until they are declared again. -/
def clear (st : Store) (ids : List DefId) : Store :=
  { st with vars := fun v => if v ∈ ids then none else st.vars v }

/-- Declares variables one after the other; `init` makes the value of each. -/
def declareAll (init : Store → Option (Value × Store)) : List DefId → Store → Option Store
  | [], st => some st
  | id :: ids, st => do
    let made ← init st
    declareAll init ids (made.2.declare id made.1)

/-- A new array of `n` zero elements. -/
def makeArray (element : BasicType) (n : Nat) (st : Store) : Option (Value × Store) :=
  (st.heap.make element n).map fun h => (.array st.heap.length, { st with heap := h })

end Store

def Literal.scalar : Literal → Scalar
  | int n => .int n
  | real r => .real r
  | string s => .text s

/-- The activation in which statements are evaluated: what its reference
parameters refer to. -/
structure Activation where
  defs : Defs
  refs : DefId → Option Location

/-- Where a variable is; a reference parameter stands for what it refers to. -/
def Activation.locate (a : Activation) (id : DefId) : Option Location :=
  if a.defs.isByRef id then a.refs id else some (.named id)

def Activation.get (a : Activation) (st : Store) (id : DefId) : Option Value :=
  (a.locate id).bind st.read

/-! ## Expressions -/

namespace Primitives

variable (P : Primitives)

/-- A minus sign is applied last. -/
def signed (info : ExprInfo) (v : Value) : Option Value :=
  if info.sign = .minus then do
    let x ← v.scalar?
    let y ← P.neg info.type.basic x
    return .scalar y
  else some v

def widened (needed : Bool) (v : Value) : Option Value :=
  if needed then do
    let x ← v.scalar?
    let y ← P.widen x
    return .scalar y
  else some v

end Primitives

namespace TypedExpr

variable (P : Primitives) (a : Activation) (st : Store)

/-- The operands of an operation are evaluated from left to right and widened to
the type of the operation; `and` and `or` evaluate both. -/
def eval : TypedExpr → Option Value
  | literal value info => P.signed info (.scalar value.scalar)
  | binary op operand left right info => do
    let v ← eval left
    let v ← P.widened (left.type.basic ≠ operand) v
    let w ← eval right
    let w ← P.widened (right.type.basic ≠ operand) w
    let x ← v.scalar?
    let y ← w.scalar?
    let z ← P.binary op operand x y
    P.signed info (.scalar z)
  | not operand info => do
    let v ← eval operand
    let x ← v.scalar?
    let y ← P.not x
    P.signed info (.scalar y)
  | size array info => do
    let v ← eval array
    let r ← v.array?
    let n ← st.heap.size? r
    P.signed info (.scalar (.int n))
  | name id info => do
    let v ← a.get st id
    P.signed info v
  | element id index info => do
    let v ← a.get st id
    let r ← v.array?
    let w ← eval index
    let i ← w.nat?
    let x ← st.heap.read r i
    P.signed info (.scalar x)
  | call _ _ _ | bad _ => none

/-- The value for a place of the given type. -/
def evalAs (e : TypedExpr) (target : ValueType) : Option Value :=
  (e.eval P a st).bind (P.widened (e.type = .int && target = .real))

def holds (e : TypedExpr) : Option Bool := (e.eval P a st).bind Value.bool?

/-- The text of a value that is to be written. -/
def written (e : TypedExpr) : Option String := do
  let v ← e.eval P a st
  let x ← v.scalar?
  P.toStr e.type x

end TypedExpr

/-! ## Statements -/

namespace TypedStmt

/-- The variables that a statement declares in the block it stands in. -/
def declared : TypedStmt → List DefId
  | declare ids _ _ _ => ids
  | ifThen _ yes _ => yes.declared
  | ifElse _ yes no _ => yes.declared ++ no.declared
  | whileDo _ body _ => body.declared
  | callable _ _ | assign _ _ _ | call _ _ _ | ret _ _ | assert _ _ | block _ => []

def declaredIn : List TypedStmt → List DefId
  | [] => []
  | s :: ss => s.declared ++ declaredIn ss

end TypedStmt

/-- How the evaluation of a statement ends. -/
inductive Outcome
  | done (st : Store)
  | failed (pos : Position) (st : Store)

namespace Outcome

def store : Outcome → Store
  | done st => st
  | failed _ st => st

/-- What comes after a statement is evaluated if no assertion has failed. -/
def andThen (o : Outcome) (k : Store → Option Outcome) : Option Outcome :=
  match o with
  | done st => k st
  | failed pos st => some (failed pos st)

def clear (ids : List DefId) : Outcome → Outcome
  | done st => done (st.clear ids)
  | failed pos st => failed pos (st.clear ids)

end Outcome

section Statements

variable (P : Primitives) (a : Activation)

def Place.assign (st : Store) (value : TypedExpr) : Place → Option Store
  | name id => do
    let l ← a.locate id
    let v ← value.evalAs P a st (a.defs.typeOf id)
    st.write v l
  | element id index => do
    let w ← a.get st id
    let r ← w.array?
    let u ← index.eval P a st
    let i ← u.nat?
    let v ← value.evalAs P a st (a.defs.typeOf id).element
    st.write v (.element r i)

/-- The size of arrays is evaluated once for all variables of a declaration, each
of which gets an array of its own. -/
def TypedStmt.execDeclaration (ids : List DefId) (type : ValueType) (size : Option TypedExpr)
    (st : Store) : Option Store :=
  if type.isArray then do
    let e ← size
    let v ← e.eval P a st
    Store.declareAll (fun st => v.nat?.bind fun n => st.makeArray type.basic n) ids st
  else Store.declareAll (fun st => type.basic.zero.map fun z => (.scalar z, st)) ids st

/-- The texts of the arguments are written on one line. -/
def TypedStmt.execPrint (args : List TypedExpr) (st : Store) : Option Store := do
  let texts ← args.mapM (TypedExpr.written P a st)
  let line ← P.join texts " "
  return { st with lines := st.lines ++ [line] }

/-- At most `n` rounds of a loop. -/
def iterate (test : Store → Option Bool) (body : Store → Option Outcome) : Nat → Store → Option Outcome
  | 0, _ => none
  | n + 1, st =>
    (test st).bind fun b =>
      if b then (body st).bind fun o => o.andThen (iterate test body n) else some (.done st)

namespace TypedStmt

mutual

/-- The variables of a block are gone when it begins, and when it ends. -/
def exec (n : Nat) : TypedStmt → Store → Option Outcome
  | declare ids type size _, st => (execDeclaration P a ids type size st).map .done
  | callable _ _, st => some (.done st)
  | assign target value _, st => (target.assign P a st value).map .done
  | ifThen cond yes _, st =>
    (cond.holds P a st).bind fun b => if b then exec n yes st else some (.done st)
  | ifElse cond yes no _, st =>
    (cond.holds P a st).bind fun b => if b then exec n yes st else exec n no st
  | whileDo cond body _, st => iterate (fun st => cond.holds P a st) (exec n body) n st
  | call callee args _, st =>
    if (a.defs.callable? callee).bind CallableInfo.intrinsic = some .print then
      (execPrint P a args st).map .done
    else none
  | ret _ _, _ => none
  | assert cond pos, st =>
    (cond.holds P a st).map fun b => if b then .done st else .failed pos st
  | block body, st => (execIn n body (st.clear (declaredIn body))).map (.clear (declaredIn body))

def execIn (n : Nat) : List TypedStmt → Store → Option Outcome
  | [], st => some (.done st)
  | s :: ss, st => (exec n s st).bind fun o => o.andThen (execIn n ss)

end

end TypedStmt

end Statements

end StackPascal
