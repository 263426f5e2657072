import StackPascal.Event
import StackPascal.Typed

/-!
Resolving names and checking types.

One walk over the tree declares definitions, looks names up in the scopes, and
builds the typed tree. Problems are reported on the way and do not stop it: an
expression that was reported gets type `Void`, which no later check repeats.
The walk also records which variables of other callables each callable uses,
and who calls whom.

* `annotateExpr`, `annotateStmt`: the walk, told which callable it is in;
* `start`: where it begins, with the program and the predefined names declared;
* `annotateProgram`: the whole walk.
-/

namespace StackPascal

/-- What the walk has done so far. Calls and events stand newest first. -/
structure Progress where
  defs : Defs
  scopes : ScopeTable DefId
  calls : List (DefId × DefId)
  events : List Event

abbrev Analyze := StateM Progress

namespace Analyze

/-! ## Steps -/

def note (e : Event) : Analyze Unit := modify fun s => { s with events := e :: s.events }

def report (pos : Position) (p : SemanticProblem) : Analyze Unit :=
  note (.report ⟨pos, .semantic p⟩)

def reportIf (wrong : Bool) (pos : Position) (p : SemanticProblem) : Analyze Unit :=
  if wrong then report pos p else return ()

def enterScope : Analyze Unit := modify fun s => { s with scopes := s.scopes.enter }

def leaveScope : Analyze Unit := modify fun s => { s with scopes := s.scopes.leave }

def defs : Analyze Defs := do return (← get).defs

def scopes : Analyze (ScopeTable DefId) := do return (← get).scopes

def updateDefs (f : Defs → Defs) : Analyze Unit := modify fun s => { s with defs := f s.defs }

/-- Declares a name in the current scope. A name that is already declared there
is reported and gets no definition. -/
def declare (name : Ident) (type : ValueType) (kind : DefKind) : Analyze (Option DefId) := do
  let s ← get
  match s.scopes.insert name.text s.defs.nextId with
  | .error _ =>
    report name.pos (.redeclared name.text)
    return none
  | .ok scopes =>
    let id := s.defs.nextId
    let scope := s.scopes.current
    set { s with defs := s.defs.push ⟨name.text, type, scope, kind, name.pos⟩, scopes := scopes }
    note (.bound name.text id scope)
    return some id

/-- Records a variable as captured if its storage belongs to another callable. -/
def capture (current id : DefId) : Analyze Unit := do
  let defs ← defs
  match defs.owner id with
  | none => return ()
  | some owner =>
    if owner ≠ current && defs.lacksCapture current id then
      updateDefs (·.addCapture current id)
      note (.captured (defs.nameOf current) (defs.nameOf id) id)
    else return ()

/-- The variable that a name means, from inside the callable `current`. -/
def resolveVariable (current : DefId) (name : Ident) : Analyze (Option DefId) := do
  match (← scopes).find? name.text with
  | none =>
    report name.pos (.undeclaredVariable name.text)
    return none
  | some id =>
    if (← defs).isVariable id then
      capture current id
      return some id
    else
      report name.pos (.notVariable name.text)
      return none

/-! ## Expressions -/

def literalType : Literal → ValueType
  | .int _ => .int
  | .real _ => .real
  | .string _ => .string

/-- A minus needs a number; on what was reported it is not checked. -/
def applySign (sign : Sign) (e : TypedExpr) : Analyze TypedExpr :=
  match sign with
  | .plus => return e
  | .minus =>
    if e.isVoid then return e
    else if e.type.isNumeric then return e.withSign .minus
    else do
      report e.pos (.badMinus e.type)
      return .reported e.pos

def checkBinary (op : BinOp) (left right : TypedExpr) (pos : Position) : Analyze TypedExpr :=
  if left.isVoid || right.isVoid then return .reported pos
  else
    match binaryResult op left.type right.type with
    | some (operand, type) => return .binary op operand left right ⟨type, .plus, pos⟩
    | none => do
      report pos (.badOperands op left.type right.type)
      return .reported pos

def checkNot (operand : TypedExpr) (pos : Position) : Analyze TypedExpr :=
  if operand.isVoid then return .reported pos
  else
    match notResult operand.type with
    | some type => return .not operand ⟨type, .plus, pos⟩
    | none => do
      report pos (.badNot operand.type)
      return .reported pos

/-- The only member is the size of an array. -/
def checkMember (base : TypedExpr) (member : Ident) (pos : Position) : Analyze TypedExpr :=
  if base.isVoid then return .reported pos
  else if base.type.isArray && member.text = "size" then return .size base ⟨.int, .plus, pos⟩
  else do
    report member.pos (.noMember base.type member.text)
    return .reported pos

/-- The array is checked before the type of its subscript. -/
def checkElement (name : Ident) (id : DefId) (index : TypedExpr) : Analyze TypedExpr := do
  let type := (← defs).typeOf id
  if type.isArray then
    reportIf (!index.isVoid && index.type ≠ .int) index.pos .badSubscript
    return .element id index ⟨type.element, .plus, name.pos⟩
  else
    report name.pos (.notArray name.text)
    return .reported name.pos

/-- An argument of a predefined procedure: not an array, and a variable if the
procedure writes to it. -/
def checkIntrinsicArg (name : Ident) (intrinsic : Intrinsic) (i : Nat) (arg : TypedExpr) :
    Analyze Unit :=
  if arg.isVoid then return ()
  else if arg.type.isArray then report name.pos (.arrayArgument name.text i arg.type)
  else
    reportIf (intrinsic = .read && !arg.isVariable) name.pos
      (.variableArgument name.text i arg.type)

def checkIntrinsicArgs (name : Ident) (intrinsic : Intrinsic) :
    Nat → List TypedExpr → Analyze Unit
  | _, [] => return ()
  | i, arg :: args => do
    checkIntrinsicArg name intrinsic i arg
    checkIntrinsicArgs name intrinsic (i + 1) args

/-- Whether an argument has a type that the parameter takes: a reference
exactly its type, a value also one that widens to it. -/
def fits (byRef : Bool) (param arg : ValueType) : Bool :=
  if byRef then arg = param else assignable param arg

def checkArg (name : Ident) (i : Nat) (arg : TypedExpr) (param : DefId) : Analyze Unit := do
  let defs ← defs
  let type := defs.typeOf param
  let byRef := defs.isByRef param
  reportIf (!arg.isVoid && !fits byRef type arg.type) name.pos
    (.badArgument name.text i type arg.type)
  reportIf (!arg.isVoid && byRef && !arg.isVariable) name.pos
    (.variableArgument name.text i arg.type)

def checkArgs (name : Ident) : Nat → List TypedExpr → List DefId → Analyze Unit
  | i, arg :: args, param :: params => do
    checkArg name i arg param
    checkArgs name (i + 1) args params
  | _, _, _ => return ()

/-- Checks the arguments of a call and records who calls whom. A wrong number
of arguments ends the check. -/
def checkCall (current callee : DefId) (name : Ident) (args : List TypedExpr) :
    Analyze Unit := do
  match (← defs).callable? callee with
  | none => return ()
  | some info =>
    match info.intrinsic with
    | some intrinsic => checkIntrinsicArgs name intrinsic 1 args
    | none =>
      modify fun s => { s with calls := (current, callee) :: s.calls }
      if args.length = info.params.length then checkArgs name 1 args info.params
      else report name.pos (.argumentCount name.text info.params.length args.length)

/-- The function that a call in an expression names. -/
def resolveFunction (callee : Ident) : Analyze (Option DefId) := do
  match (← scopes).find? callee.text with
  | none =>
    report callee.pos (.undeclaredFunction callee.text)
    return none
  | some id =>
    if (← defs).kindOf? id = some .function then return some id
    else
      report callee.pos (.notFunction callee.text)
      return none

mutual

def annotateExpr (current : DefId) : Expr → Analyze TypedExpr
  | .literal value sign pos => applySign sign (.literal value ⟨literalType value, .plus, pos⟩)
  | .binary op left right sign pos => do
    let left ← annotateExpr current left
    let right ← annotateExpr current right
    applySign sign (← checkBinary op left right pos)
  | .not operand sign pos => do
    let operand ← annotateExpr current operand
    applySign sign (← checkNot operand pos)
  | .call callee args sign => do
    match ← resolveFunction callee with
    | none => return .reported callee.pos
    | some id =>
      let args ← annotateExprs current args
      checkCall current id callee args
      applySign sign (.call id args ⟨(← defs).typeOf id, .plus, callee.pos⟩)
  | .member base member sign pos => do
    let base ← annotateExpr current base
    applySign sign (← checkMember base member pos)
  | .name name sign => do
    match ← resolveVariable current name with
    | none => return .reported name.pos
    | some id => applySign sign (.name id ⟨(← defs).typeOf id, .plus, name.pos⟩)
  | .element name index sign => do
    match ← resolveVariable current name with
    | none => return .reported name.pos
    | some id =>
      let index ← annotateExpr current index
      applySign sign (← checkElement name id index)

def annotateExprs (current : DefId) : List Expr → Analyze (List TypedExpr)
  | [] => return []
  | e :: es => do
    let e ← annotateExpr current e
    let es ← annotateExprs current es
    return e :: es

end

/-! ## Declarations -/

def annotateSize (current : DefId) (size : Expr) : Analyze TypedExpr := do
  let size ← annotateExpr current size
  reportIf (!size.isVoid && size.type ≠ .int) size.pos .badSize
  return size

/-- The size in a variable declaration; an array needs one. -/
def declaredSize (current : DefId) (names : List Ident) :
    TypeExpr → Analyze (Option TypedExpr)
  | .scalar _ _ => return none
  | .array _ (some size) _ => some <$> annotateSize current size
  | .array _ none pos => do
    report pos (.missingSize ((names.head?.map Ident.text).getD ""))
    return none

/-- The type of a parameter or result. A size written there is checked and
then dropped. -/
def signatureType (current : DefId) (type : TypeExpr) : Analyze ValueType := do
  match type with
  | .array _ (some size) _ =>
    let _ ← annotateSize current size
    return type.type
  | _ => return type.type

/-- Declares one variable: global in the scope of the program block, and
otherwise one of the current callable. -/
def declareVariable (current : DefId) (name : Ident) (type : ValueType) :
    Analyze (Option DefId) := do
  if (← scopes).current = .program then declare name type .global
  else
    match ← declare name type (.owned current) with
    | none => return none
    | some id =>
      updateDefs (·.addLocal current id)
      return some id

def declareVariables (current : DefId) (type : ValueType) : List Ident → Analyze (List DefId)
  | [] => return []
  | name :: names => do
    let id ← declareVariable current name type
    let ids ← declareVariables current type names
    return id.toList ++ ids

def annotateDeclaration (current : DefId) (names : List Ident) (type : TypeExpr)
    (pos : Position) : Analyze TypedStmt := do
  let size ← declaredSize current names type
  let ids ← declareVariables current type.type names
  return .declare ids type.type size pos

def headingKind (h : Heading) : CallableKind :=
  match h.result with
  | some _ => .function
  | none => .procedure

def resultType (current : DefId) (h : Heading) : Analyze ValueType :=
  match h.result with
  | some type => signatureType current type
  | none => return .void

/-- Declares the callable of a heading. A redeclared one is skipped altogether. -/
def declareCallable (current : DefId) (h : Heading) : Analyze (Option DefId) := do
  if ((← scopes).here? h.name.text).isSome then
    report h.name.pos (.redeclared h.name.text)
    return none
  else
    let type ← resultType current h
    match ← declare h.name type (.callable (.new (headingKind h) (some current))) with
    | none => return none
    | some id =>
      note (.declared (headingKind h) h.name.text id)
      return some id

def declareParam (callable : DefId) (p : Param) : Analyze Unit := do
  let type ← signatureType callable p.type
  match ← declare p.name type (.param callable p.byRef) with
  | none => return ()
  | some id => updateDefs (·.addParam callable id)

def declareParams (callable : DefId) : List Param → Analyze Unit
  | [] => return ()
  | p :: ps => do
    declareParam callable p
    declareParams callable ps

/-! ## Statements -/

def annotateCond (current : DefId) (place : Condition) (cond : Expr) : Analyze TypedExpr := do
  let cond ← annotateExpr current cond
  reportIf (!cond.isVoid && cond.type ≠ .bool) cond.pos (.badCondition place)
  return cond

def checkAssign (name : Ident) (target value : TypedExpr) : Analyze (Option TypedStmt) :=
  if target.isVoid || value.isVoid then return none
  else if !assignable target.type value.type then do
    report name.pos (.badAssignment value.type target.type)
    return none
  else if target.type.isArray then do
    report name.pos (.wholeArray name.text)
    return none
  else return target.place?.map fun place => .assign place value name.pos

def annotateAssign (current : DefId) (target : Target) (value : Expr) :
    Analyze (Option TypedStmt) := do
  let place ← annotateExpr current target.expr
  let value ← annotateExpr current value
  checkAssign target.ident place value

/-- The callable that a statement names. -/
def resolveCallable (callee : Ident) : Analyze (Option (DefId × CallableKind)) := do
  match (← scopes).find? callee.text with
  | none =>
    report callee.pos (.undeclaredProcedure callee.text)
    return none
  | some id =>
    match (← defs).kindOf? id with
    | some kind => return some (id, kind)
    | none =>
      report callee.pos (.notCallable callee.text)
      return none

def annotateCall (current : DefId) (callee : Ident) (args : List Expr) :
    Analyze (Option TypedStmt) := do
  match ← resolveCallable callee with
  | none => return none
  | some (id, kind) =>
    let args ← annotateExprs current args
    checkCall current id callee args
    if kind = .function then
      report callee.pos (.discardedResult callee.text)
      return none
    else return some (.call id args callee.pos)

def checkReturn (result : ValueType) (value : Option TypedExpr) (pos : Position) :
    Analyze (Option TypedStmt) :=
  match value with
  | some v =>
    if result.isVoid then do
      report pos .valueInProcedure
      return none
    else if !v.isVoid && !assignable result v.type then do
      report pos (.badReturn v.type result)
      return none
    else return some (.ret value pos)
  | none =>
    if result.isVoid then return some (.ret none pos)
    else do
      report pos .emptyReturn
      return none

def annotateOption (current : DefId) : Option Expr → Analyze (Option TypedExpr)
  | some e => some <$> annotateExpr current e
  | none => return none

def annotateReturn (current : DefId) (value : Option Expr) (pos : Position) :
    Analyze (Option TypedStmt) := do
  let value ← annotateOption current value
  checkReturn ((← defs).typeOf current) value pos

/-- What stands for a branch that has been reported. -/
def branchOr (s : Option TypedStmt) : TypedStmt := s.getD (.block [])

mutual

/-- There is no statement where the problem was reported. -/
def annotateStmt (current : DefId) : Stmt → Analyze (Option TypedStmt)
  | .declare names type pos => some <$> annotateDeclaration current names type pos
  | .callable heading _ body => do
    match ← declareCallable current heading with
    | none => return none
    | some id =>
      enterScope
      declareParams id heading.params
      enterScope
      let body ← annotateStmts id body
      leaveScope
      leaveScope
      return some (.callable id body)
  | .assign target value => annotateAssign current target value
  | .ifThen cond yes pos => do
    let cond ← annotateCond current .ifTest cond
    let yes ← annotateStmt current yes
    return some (.ifThen cond (branchOr yes) pos)
  | .ifElse cond yes no pos => do
    let cond ← annotateCond current .ifTest cond
    let yes ← annotateStmt current yes
    let no ← annotateStmt current no
    return some (.ifElse cond (branchOr yes) (branchOr no) pos)
  | .whileDo cond body pos => do
    let cond ← annotateCond current .whileCondition cond
    let body ← annotateStmt current body
    return some (.whileDo cond (branchOr body) pos)
  | .call callee args => annotateCall current callee args
  | .ret value pos => annotateReturn current value pos
  | .assert cond pos => do
    let cond ← annotateCond current .assertion cond
    return some (.assert cond pos)
  | .block _ body => do
    enterScope
    let body ← annotateStmts current body
    leaveScope
    return some (.block body)

def annotateStmts (current : DefId) : List Stmt → Analyze (List TypedStmt)
  | [] => return []
  | s :: ss => do
    let s ← annotateStmt current s
    let ss ← annotateStmts current ss
    return s.toList ++ ss

end

/-! ## The program -/

/-- The callable that stands for the program body. -/
def mainId : DefId := ⟨0⟩

/-- The predefined names with their types and kinds. -/
def predefined : List (String × ValueType × DefKind) :=
  [("true", .bool, .global),
   ("false", .bool, .global),
   ("writeln", .void,
    .callable { CallableInfo.new .procedure none with intrinsic := some .print }),
   ("read", .void,
    .callable { CallableInfo.new .procedure none with intrinsic := some .read })]

/-- The predefined names are bound in the scope that is never left. -/
def predefine (s : Progress) (entry : String × ValueType × DefKind) : Progress :=
  let (name, type, kind) := entry
  let id := s.defs.nextId
  { s with
    defs := s.defs.push ⟨name, type, .predefined, kind, .nowhere⟩
    scopes := (s.scopes.insert name id).toOption.getD s.scopes }

/-- The program itself is the first definition, and no name is bound to it. -/
def start (name : Ident) : Progress :=
  let main : Def := ⟨name.text, .void, .predefined, .callable (.new .procedure none), name.pos⟩
  predefined.foldl predefine ⟨⟨[main], some mainId⟩, .empty, [], []⟩

def annotateProgram (p : Program) : List TypedStmt × Progress :=
  (do
    enterScope
    let body ← annotateStmts mainId p.body
    leaveScope
    return body : Analyze (List TypedStmt)).run (start p.name)

end Analyze

end StackPascal
