import StackPascal.Builder
import StackPascal.Lifting

/-!
Lowering a typed program to stack machine code.

The generator issues commands to a module builder and keeps a record of them.
Expressions leave their value on the operand stack, statements leave the stack
as they found it. The bodies of callables are put off until the routine around
them is complete. A program that was not accepted, or not lifted, may end in
an internal error; what had been built by then is kept.

* `genExpr`, `genStmt`: the code of one expression or statement;
* `genProgram`: all routines;
* `generate`: the module, the record of commands, and the error if there was one.
-/

namespace StackPascal

inductive InternalError
  | unresolvedRoutine (name : String)
  | notCallable (name : String)
  | noStorage (name : String) (id : DefId)
  | arrayWithoutSize
  | badExpression
  | argumentCount (name : String) (given expected : Nat)
  | notAddressable (pos : Position)
  deriving DecidableEq

def InternalError.message : InternalError → String
  | unresolvedRoutine name => "unresolved function " ++ inQuotes name
  | notCallable name => inQuotes name ++ " is not a callable"
  | noStorage name id => "no storage for " ++ inQuotes name ++ " (" ++ id.render ++ ")"
  | arrayWithoutSize => "array declaration without a size"
  | badExpression => "erroneous expression reached code generation"
  | argumentCount name given expected =>
    "call of " ++ inQuotes name ++ " with " ++ toString given ++ " arguments, expected "
      ++ toString expected
  | notAddressable pos => "reference argument at " ++ pos.render ++ " is not addressable"

/-- The builder, the commands given to it (newest first), the storage of the
variables declared so far, and the callables whose bodies are still to come. -/
structure Emission where
  builder : Builder
  calls : List Call
  storage : List (DefId × Storage)
  pending : List (DefId × List TypedStmt)

abbrev Gen := EStateM InternalError Emission

/-- The definitions, and the routine of each callable. -/
structure GenContext where
  defs : Defs
  routines : List (DefId × RoutineId)

namespace Gen

/-! ## Commands -/

def record (command : Command) (reply : Reply) (b : Builder) : Gen Unit :=
  modify fun s => { s with builder := b, calls := ⟨command, reply⟩ :: s.calls }

def declareStatic (name : String) (type : ValueType) : Gen Storage := do
  let (storage, b) := (← get).builder.declareStatic name type
  record (.declareStatic name type) (.storage storage) b
  return storage

def declareRoutine (name : String) (params : List ParamDecl) (result : ValueType) :
    Gen RoutineId := do
  let (f, b) := (← get).builder.declareRoutine name params result
  record (.declareRoutine name params result) (.routine f) b
  return f

def declareLocal (name : String) (type : ValueType) : Gen Storage := do
  let (storage, b) := (← get).builder.declareLocal name type
  record (.declareLocal name type) (.storage storage) b
  return storage

def newLabel : Gen Label := do
  let (l, b) := (← get).builder.newLabel
  record .newLabel (.label l) b
  return l

def beginRoutine (f : RoutineId) : Gen Unit := do
  record (.beginRoutine f) .done ((← get).builder.beginRoutine f)

def endRoutine : Gen Unit := do
  record .endRoutine .done (← get).builder.endRoutine

def beginScope : Gen Unit := do
  record .beginScope .done (← get).builder.beginScope

def endScope : Gen Unit := do
  record .endScope .done (← get).builder.endScope

def emit (i : Instr) : Gen Unit := do
  record (.emit i) .done ((← get).builder.emit i)

def emitIf (needed : Bool) (i : Instr) : Gen Unit := if needed then emit i else return ()

def setEntry (f : RoutineId) : Gen Unit := do
  record (.setEntry f) .done ((← get).builder.setEntry f)

/-! ## Variables and routines -/

def setStorage (id : DefId) (storage : Storage) : Gen Unit :=
  modify fun s => { s with storage := (id, storage) :: s.storage }

def storageOf (c : GenContext) (id : DefId) : Gen Storage := do
  match (← get).storage.lookup id with
  | some storage => return storage
  | none => throw (.noStorage (c.defs.nameOf id) id)

def routineOf (c : GenContext) (id : DefId) : Gen RoutineId :=
  match c.routines.lookup id with
  | some f => return f
  | none => throw (.unresolvedRoutine (c.defs.nameOf id))

/-- Storage for a variable: a static if it is global, and a slot of the open
routine otherwise. -/
def newStorage (c : GenContext) (id : DefId) : Gen Storage :=
  if c.defs.isGlobal id then declareStatic (c.defs.nameOf id) (c.defs.typeOf id)
  else declareLocal (c.defs.nameOf id) (c.defs.typeOf id)

def declareVariable (c : GenContext) (id : DefId) : Gen Storage := do
  let storage ← newStorage c id
  setStorage id storage
  return storage

/-- Pushes what a variable holds; a reference parameter holds an address. -/
def loadVariable (c : GenContext) (id : DefId) : Gen Unit := do
  emit (.load (← storageOf c id))
  emitIf (c.defs.isByRef id) (.loadRef (c.defs.typeOf id))

/-- Pushes the address of a variable. -/
def loadAddress (c : GenContext) (id : DefId) : Gen Unit := do
  let storage ← storageOf c id
  emit (if c.defs.isByRef id then .load storage else .loadAddr storage)

/-- Pushes the zero value of a type; there is none of type `Void`. -/
def genZero (type : ValueType) : Gen Unit :=
  if type.isArray then do
    emit (.pushInt 0)
    emit (.newArray type.basic)
  else
    match type.basic with
    | .int => emit (.pushInt 0)
    | .real => emit (.pushReal .zero)
    | .string => emit (.pushStr "")
    | .bool => emit (.pushBool false)
    | .void => return ()

/-! ## Expressions -/

/-- How a call is carried out. -/
inductive CallPlan
  | print
  | read
  | routine (f : RoutineId) (params : List DefId)

def planCall (c : GenContext) (callee : DefId) (given : Nat) : Gen CallPlan :=
  match c.defs.callable? callee with
  | none => throw (.notCallable (c.defs.nameOf callee))
  | some info =>
    match info.intrinsic with
    | some .print => return .print
    | some .read => return .read
    | none => do
      let f ← routineOf c callee
      if info.params.length = given then return .routine f info.params
      else throw (.argumentCount (c.defs.nameOf callee) given info.params.length)

def pushLiteral : Literal → Instr
  | .int n => .pushInt n
  | .real r => .pushReal r
  | .string s => .pushStr s

/-- A minus sign is applied last. -/
def genSign (info : ExprInfo) : Gen Unit := emitIf (info.sign = .minus) (.neg info.type.basic)

def widenIf (needed : Bool) : Gen Unit := emitIf needed .widen

/-- Whether a value of the expression's type has to be widened for `target`. -/
def needsWidening (type target : ValueType) : Bool := type = .int && target = .real

/-- Prints `count` parts, which `parts` stores into an array of texts. -/
def genPrint (count : Nat) (parts : Storage → Gen Unit) : Gen Unit := do
  beginScope
  let array ← declareLocal "" (.array .string)
  emit (.pushInt count)
  emit (.newArray .string)
  emit (.store array)
  parts array
  emit (.pushStr " ")
  emit (.load array)
  emit .join
  emit .writeLine
  endScope

mutual

def genExpr (c : GenContext) : TypedExpr → Gen Unit
  | .literal value info => do
    emit (pushLiteral value)
    genSign info
  | .binary op operand left right info => do
    genExpr c left
    widenIf (left.type.basic ≠ operand)
    genExpr c right
    widenIf (right.type.basic ≠ operand)
    emit (.binary op operand)
    genSign info
  | .not operand info => do
    genExpr c operand
    emit .not
    genSign info
  | .call callee args info => do
    let plan ← planCall c callee args.length
    (match plan with
      | .print => genPrint args.length fun array => genParts c array 0 args
      | .read => genReads c args
      | .routine f params => do
        genArgs c params args
        emit (.call f))
    genSign info
  | .size array info => do
    genExpr c array
    emit .arrayLen
    genSign info
  | .name id info => do
    loadVariable c id
    genSign info
  | .element id index info => do
    loadVariable c id
    genExpr c index
    emit (.loadElem (c.defs.typeOf id).basic)
    genSign info
  | .bad _ => throw .badExpression

/-- The address of the place that the expression denotes. -/
def genAddress (c : GenContext) : TypedExpr → Gen Unit
  | .name id _ => loadAddress c id
  | .element id index _ => do
    loadVariable c id
    genExpr c index
    emit (.elemAddr (c.defs.typeOf id).basic)
  | e => throw (.notAddressable e.pos)

/-- Arguments of a routine, one for each parameter. -/
def genArgs (c : GenContext) : List DefId → List TypedExpr → Gen Unit
  | param :: params, arg :: args => do
    (if c.defs.isByRef param then genAddress c arg
      else do
        genExpr c arg
        widenIf (needsWidening arg.type (c.defs.typeOf param)))
    genArgs c params args
  | _, _ => return ()

/-- Stores the texts of the arguments into an array, from index `i` on. -/
def genParts (c : GenContext) (array : Storage) (i : Nat) : List TypedExpr → Gen Unit
  | [] => return ()
  | arg :: args => do
    emit (.load array)
    emit (.pushInt i)
    genExpr c arg
    emit (.toStr arg.type)
    emit (.storeElem .string)
    genParts c array (i + 1) args

/-- Reads a line into each argument. -/
def genReads (c : GenContext) : List TypedExpr → Gen Unit
  | [] => return ()
  | arg :: args => do
    genAddress c arg
    emit .readLine
    emitIf (arg.type.basic ≠ .string) (.parse arg.type.basic)
    emit (.storeRef arg.type)
    genReads c args

end

/-- Evaluates an expression for a place of the given type. -/
def genExprAs (c : GenContext) (e : TypedExpr) (target : ValueType) : Gen Unit := do
  genExpr c e
  widenIf (needsWidening e.type target)

/-! ## Statements -/

/-- Each scalar variable starts with the zero value of its type. -/
def genScalars (c : GenContext) (type : ValueType) : List DefId → Gen Unit
  | [] => return ()
  | id :: ids => do
    let storage ← declareVariable c id
    genZero type
    emit (.store storage)
    genScalars c type ids

/-- Each array variable gets an array of its own, with the size in `size`. -/
def genArrays (c : GenContext) (element : BasicType) (size : Storage) : List DefId → Gen Unit
  | [] => return ()
  | id :: ids => do
    let storage ← declareVariable c id
    emit (.load size)
    emit (.newArray element)
    emit (.store storage)
    genArrays c element size ids

/-- The size of arrays is evaluated once, for all variables of a declaration. -/
def genDeclaration (c : GenContext) (ids : List DefId) (type : ValueType)
    (size : Option TypedExpr) : Gen Unit :=
  if type.isArray then
    match size with
    | none => throw .arrayWithoutSize
    | some e => do
      genExpr c e
      let count ← declareLocal "" .int
      emit (.store count)
      genArrays c type.basic count ids
  else genScalars c type ids

def genAssign (c : GenContext) (target : Place) (value : TypedExpr) : Gen Unit :=
  match target with
  | .name id => do
    let type := c.defs.typeOf id
    let storage ← storageOf c id
    if c.defs.isByRef id then
      emit (.load storage)
      genExprAs c value type
      emit (.storeRef type)
    else
      genExprAs c value type
      emit (.store storage)
  | .element id index => do
    let type := c.defs.typeOf id
    loadVariable c id
    genExpr c index
    genExprAs c value type.element
    emit (.storeElem type.basic)

mutual

/-- The code of a statement in the body of the callable `current`. -/
def genStmt (c : GenContext) (current : DefId) : TypedStmt → Gen Unit
  | .declare ids type size _ => genDeclaration c ids type size
  | .callable id body => modify fun s => { s with pending := s.pending ++ [(id, body)] }
  | .assign target value _ => genAssign c target value
  | .ifThen cond yes _ => do
    let otherwise ← newLabel
    let done ← newLabel
    genExpr c cond
    emit (.jumpIfFalse otherwise)
    genStmt c current yes
    emit (.jump done)
    emit (.label otherwise)
    emit (.label done)
  | .ifElse cond yes no _ => do
    let otherwise ← newLabel
    let done ← newLabel
    genExpr c cond
    emit (.jumpIfFalse otherwise)
    genStmt c current yes
    emit (.jump done)
    emit (.label otherwise)
    genStmt c current no
    emit (.label done)
  | .whileDo cond body _ => do
    let again ← newLabel
    let test ← newLabel
    emit (.jump test)
    emit (.label again)
    genStmt c current body
    emit (.label test)
    genExpr c cond
    emit (.jumpIfTrue again)
  | .call callee args pos => do
    genExpr c (.call callee args ⟨.void, .plus, pos⟩)
    emitIf (!(c.defs.typeOf callee).isVoid) .pop
  | .ret none _ => emit .ret
  | .ret (some value) _ => do
    genExprAs c value (c.defs.typeOf current)
    emit .ret
  | .assert cond pos => do
    genExpr c cond
    emit (.assert pos)
  | .block body => do
    beginScope
    genStmts c current body
    endScope

def genStmts (c : GenContext) (current : DefId) : List TypedStmt → Gen Unit
  | [] => return ()
  | s :: ss => do
    genStmt c current s
    genStmts c current ss

end

def genBlock (c : GenContext) (current : DefId) (body : List TypedStmt) : Gen Unit := do
  beginScope
  genStmts c current body
  endScope

/-! ## Routines -/

/-- How the routine of a callable declares a parameter. -/
def paramDecl (ds : Defs) (id : DefId) : ParamDecl :=
  ⟨ds.nameOf id, ds.typeOf id, ds.isByRef id⟩

/-- Declares a routine for every callable that is not predefined. -/
def declareRoutines (ds : Defs) : List DefId → Gen (List (DefId × RoutineId))
  | [] => return []
  | id :: ids => do
    match ds.callable? id with
    | some info =>
      if info.intrinsic.isNone then
        let f ← declareRoutine (ds.nameOf id) (info.params.map (paramDecl ds)) (ds.typeOf id)
        let fs ← declareRoutines ds ids
        return (id, f) :: fs
      else declareRoutines ds ids
    | none => declareRoutines ds ids

/-- Stores the predefined constants into their statics. -/
def genConstants (c : GenContext) : List DefId → Gen Unit
  | [] => return ()
  | id :: ids => do
    let storage ← declareStatic (c.defs.nameOf id) .bool
    setStorage id storage
    emit (.pushBool (c.defs.nameOf id = "true"))
    emit (.store storage)
    genConstants c ids

/-- Whether the definition is one of the predefined constants. -/
def isConstant (ds : Defs) (id : DefId) : Bool :=
  match ds.get? id with
  | some d => d.isPredefined && d.isGlobal
  | none => false

/-- The arguments of a routine are the storage of its parameters. -/
def bindParams (i : Nat) : List DefId → Gen Unit
  | [] => return ()
  | param :: params => do
    setStorage param (.arg i)
    bindParams (i + 1) params

/-- A routine whose body does not return gives the zero value of its type. -/
def genRoutine (c : GenContext) (id : DefId) (body : List TypedStmt) : Gen Unit := do
  let f ← routineOf c id
  match c.defs.callable? id with
  | none => throw (.notCallable (c.defs.nameOf id))
  | some info =>
    bindParams 0 info.params
    beginRoutine f
    genBlock c id body
    genZero (c.defs.typeOf id)
    emit .ret
    endRoutine

/-- The routines put off so far and those met on the way, `n` at most. -/
def genPending (c : GenContext) : Nat → Gen Unit
  | 0 => return ()
  | n + 1 => do
    match (← get).pending with
    | [] => return ()
    | (id, body) :: rest =>
      modify fun s => { s with pending := rest }
      genRoutine c id body
      genPending c n

/-- The entry routine sets the constants and runs the program body. Each
callable is put off once, so the definitions bound the routines to come. -/
def genProgram (ds : Defs) (p : TypedProgram) : Gen Unit := do
  let routines ← declareRoutines ds ds.ids
  let c : GenContext := ⟨ds, routines⟩
  let entry ← routineOf c p.main
  setEntry entry
  beginRoutine entry
  genConstants c (ds.ids.filter (isConstant ds))
  genBlock c p.main p.body
  emit .ret
  endRoutine
  genPending c ds.size

end Gen

/-! ## Results -/

/-- The module as far as it was built, the commands in order, and the error
that ended the generation, if one did. -/
structure Generated where
  result : CodeModule
  calls : List Call
  error : Option InternalError

def generate (ds : Defs) (p : TypedProgram) : Generated :=
  match (Gen.genProgram ds p).run ⟨.empty, [], [], []⟩ with
  | .ok _ s => ⟨s.builder.result, s.calls.reverse, none⟩
  | .error e s => ⟨s.builder.result, s.calls.reverse, some e⟩

/-- What a command tells the log. Setting the entry begins the program, and
beginning any other routine begins the code of a callable. -/
def Command.events (m : CodeModule) : Command → List Event
  | .setEntry f => [.emittingProgram (((m.routine? f).map Routine.name).getD "") f]
  | .beginRoutine f =>
    if m.entry = some f then []
    else [.emittingRoutine (((m.routine? f).map Routine.name).getD "") f]
  | .emit i => [.emitted i]
  | _ => []

def Generated.events (g : Generated) : List Event :=
  g.calls.flatMap fun c => c.command.events g.result

end StackPascal
