import StackPascal.Capture

/-!
Closure conversion: every callable that uses variables of enclosing callables
gets a reference parameter for each of them, and every call of it passes them
along.

* `addCaptureParams`: the new parameters, one per captured variable;
* `Substitution`: which parameter stands for which variable in which callable;
* `liftExpr`, `liftStmt`: the tree with the substitution applied and the calls
  extended.
-/

namespace StackPascal

/-- For each lifted callable, the parameter that replaces each captured
variable. -/
abbrev Substitution := List (DefId × List (DefId × DefId))

/-! ## Parameters -/

/-- The parameters of one callable for its captured variables. -/
structure Lifting where
  defs : Defs
  substitution : Substitution
  events : List Event

namespace Lifting

/-- The definition of the parameter that stands for a captured variable. -/
def paramFor (ds : Defs) (callable captured : DefId) : Option Def :=
  match ds.get? callable, ds.get? captured with
  | some c, some v => some ⟨v.name, v.type, c.scope, .param callable true, v.pos⟩
  | _, _ => none

/-- One more parameter of `callable`; `pairs` are those it already got. -/
def addParam (callable : DefId) (state : Defs × List (DefId × DefId) × List Event)
    (captured : DefId) : Defs × List (DefId × DefId) × List Event :=
  let (ds, pairs, events) := state
  match paramFor ds callable captured with
  | none => state
  | some d =>
    let id := ds.nextId
    ((ds.push d).addParam callable id, pairs ++ [(captured, id)],
     events ++ [.captureParam (ds.nameOf callable) d.name id captured])

/-- Whether the callable gets parameters for its captured variables. -/
def isLifted (ds : Defs) (id : DefId) : Bool :=
  match ds.callable? id with
  | some info => info.intrinsic.isNone && !info.captures.isEmpty && ds.main ≠ some id
  | none => false

def addParams (l : Lifting) (callable : DefId) : Lifting :=
  let (ds, pairs, events) :=
    (l.defs.capturesOf callable).foldl (addParam callable) (l.defs, [], l.events)
  ⟨ds, l.substitution ++ [(callable, pairs)], events⟩

end Lifting

/-- The new parameters come after all definitions, callable by callable. -/
def addCaptureParams (ds : Defs) : Lifting :=
  (ds.ids.filter (Lifting.isLifted ds)).foldl Lifting.addParams ⟨ds, [], []⟩

/-! ## Replacing -/

/-- What the walk over the tree needs to know; `defs` has the new parameters. -/
structure LiftContext where
  defs : Defs
  substitution : Substitution

namespace LiftContext

/-- What stands for a variable inside the callable `current`. -/
def replace (c : LiftContext) (current id : DefId) : DefId :=
  match c.substitution.lookup current with
  | some pairs => (pairs.lookup id).getD id
  | none => id

/-- The arguments for the new parameters of `callee`. -/
def captureArgs (c : LiftContext) (current callee : DefId) (pos : Position) : List TypedExpr :=
  match c.substitution.lookup callee with
  | some _ =>
    (c.defs.capturesOf callee).map fun v =>
      .name (c.replace current v) ⟨c.defs.typeOf v, .plus, pos⟩
  | none => []

mutual

def liftExpr (c : LiftContext) (current : DefId) : TypedExpr → TypedExpr
  | .literal v i => .literal v i
  | .binary op t l r i => .binary op t (c.liftExpr current l) (c.liftExpr current r) i
  | .not e i => .not (c.liftExpr current e) i
  | .call callee args i =>
    .call callee (c.liftExprs current args ++ c.captureArgs current callee i.pos) i
  | .size a i => .size (c.liftExpr current a) i
  | .name id i => .name (c.replace current id) i
  | .element id e i => .element (c.replace current id) (c.liftExpr current e) i
  | .bad i => .bad i

def liftExprs (c : LiftContext) (current : DefId) : List TypedExpr → List TypedExpr
  | [] => []
  | e :: es => c.liftExpr current e :: c.liftExprs current es

end

def liftPlace (c : LiftContext) (current : DefId) : Place → Place
  | .name id => .name (c.replace current id)
  | .element id e => .element (c.replace current id) (c.liftExpr current e)

mutual

/-- The body of a callable is lifted inside that callable. -/
def liftStmt (c : LiftContext) (current : DefId) : TypedStmt → TypedStmt
  | .declare ids t size pos => .declare ids t (size.map (c.liftExpr current)) pos
  | .callable id body => .callable id (c.liftStmts id body)
  | .assign p v pos => .assign (c.liftPlace current p) (c.liftExpr current v) pos
  | .ifThen e yes pos => .ifThen (c.liftExpr current e) (c.liftStmt current yes) pos
  | .ifElse e yes no pos =>
    .ifElse (c.liftExpr current e) (c.liftStmt current yes) (c.liftStmt current no) pos
  | .whileDo e body pos => .whileDo (c.liftExpr current e) (c.liftStmt current body) pos
  | .call callee args pos =>
    .call callee (c.liftExprs current args ++ c.captureArgs current callee pos) pos
  | .ret v pos => .ret (v.map (c.liftExpr current)) pos
  | .assert e pos => .assert (c.liftExpr current e) pos
  | .block body => .block (c.liftStmts current body)

def liftStmts (c : LiftContext) (current : DefId) : List TypedStmt → List TypedStmt
  | [] => []
  | s :: ss => c.liftStmt current s :: c.liftStmts current ss

end

end LiftContext

/-- The lifted program, its definitions, and what was told to the log. -/
structure Lifted where
  program : TypedProgram
  defs : Defs
  events : List Event

def Analysis.lift (a : Analysis) : Lifted :=
  let l := addCaptureParams a.defs
  let c : LiftContext := ⟨l.defs, l.substitution⟩
  ⟨{ a.program with body := c.liftStmts a.program.main a.program.body }, l.defs, l.events⟩

end StackPascal
