import StackPascal.Proofs.ClosureConversion
import StackPascal.Proofs.Code.Commands

/-!
The code of a typed tree, written down without the generation.

* `TypedExpr.code`, `addressCode`, `argsCode`: the instructions of expressions;
* `TypedStmt.layout`: the layout after a statement;
* `TypedStmt.calls`: the commands of a statement, with the replies to them.
-/

namespace StackPascal

open Gen

/-! ## Expressions -/

def optional (needed : Bool) (i : Instr) : List Instr := if needed then [i] else []

def GenContext.routine (c : GenContext) (id : DefId) : RoutineId := (c.routines.lookup id).getD ⟨0⟩

def variableCode (c : GenContext) (σ : Places) (id : DefId) : List Instr :=
  .load (σ.of id) :: optional (c.defs.isByRef id) (.loadRef (c.defs.typeOf id))

/-- The instruction that pushes the address of a variable. -/
def addressOf (c : GenContext) (σ : Places) (id : DefId) : Instr :=
  if c.defs.isByRef id then .load (σ.of id) else .loadAddr (σ.of id)

def zeroCode (type : ValueType) : List Instr :=
  if type.isArray then [.pushInt 0, .newArray type.basic]
  else
    match type.basic with
    | .int => [.pushInt 0]
    | .real => [.pushReal .zero]
    | .string => [.pushStr ""]
    | .bool => [.pushBool false]
    | .void => []

def signCode (info : ExprInfo) : List Instr :=
  optional (info.sign = .minus) (.neg info.type.basic)

namespace TypedExpr

mutual

def code (c : GenContext) (σ : Places) : TypedExpr → List Instr
  | literal value info => pushLiteral value :: signCode info
  | binary op operand left right info =>
    code c σ left ++ (optional (left.type.basic ≠ operand) .widen ++
      (code c σ right ++ (optional (right.type.basic ≠ operand) .widen ++
        .binary op operand :: signCode info)))
  | not operand info => code c σ operand ++ .not :: signCode info
  | call callee args info =>
    argsCode c σ (c.defs.paramsOf callee) args ++ .call (c.routine callee) :: signCode info
  | size array info => code c σ array ++ .arrayLen :: signCode info
  | name id info => variableCode c σ id ++ signCode info
  | element id index info =>
    variableCode c σ id ++
      (code c σ index ++ .loadElem (c.defs.typeOf id).basic :: signCode info)
  | bad _ => []

def addressCode (c : GenContext) (σ : Places) : TypedExpr → List Instr
  | name id _ => [addressOf c σ id]
  | element id index _ =>
    variableCode c σ id ++ (code c σ index ++ [.elemAddr (c.defs.typeOf id).basic])
  | _ => []

def argsCode (c : GenContext) (σ : Places) : List DefId → List TypedExpr → List Instr
  | param :: params, arg :: args =>
    (if c.defs.isByRef param then addressCode c σ arg
      else code c σ arg ++ optional (needsWidening arg.type (c.defs.typeOf param)) .widen) ++
      argsCode c σ params args
  | _, _ => []

end

def codeAs (c : GenContext) (σ : Places) (e : TypedExpr) (target : ValueType) : List Instr :=
  e.code c σ ++ optional (needsWidening e.type target) .widen

/-- The texts of the arguments go into an array, from index `i` on. -/
def partsCode (c : GenContext) (σ : Places) (array : Storage) (i : Nat) :
    List TypedExpr → List Instr
  | [] => []
  | arg :: args =>
    .load array :: .pushInt i :: (arg.code c σ ++
      (.toStr arg.type :: .storeElem .string :: partsCode c σ array (i + 1) args))

/-- The texts are put together and written. -/
def lineCode (c : GenContext) (σ : Places) (array : Storage) (args : List TypedExpr) : List Instr :=
  partsCode c σ array 0 args ++ [.pushStr " ", .load array, .join, .writeLine]

/-- A line is read into each argument. -/
def readsCode (c : GenContext) (σ : Places) : List TypedExpr → List Instr
  | [] => []
  | arg :: args =>
    arg.addressCode c σ ++ .readLine :: (optional (arg.type.basic ≠ .string) (.parse arg.type.basic) ++
      .storeRef arg.type :: readsCode c σ args)

end TypedExpr

def Place.assignCode (c : GenContext) (σ : Places) (value : TypedExpr) : Place → List Instr
  | name id =>
    if c.defs.isByRef id then
      .load (σ.of id) :: (value.codeAs c σ (c.defs.typeOf id) ++ [.storeRef (c.defs.typeOf id)])
    else value.codeAs c σ (c.defs.typeOf id) ++ [.store (σ.of id)]
  | element id index =>
    variableCode c σ id ++ (index.code c σ ++
      (value.codeAs c σ (c.defs.typeOf id).element ++ [.storeElem (c.defs.typeOf id).basic]))

/-! ## Variables -/

namespace Layout

def newPlace (c : GenContext) (L : Layout) (id : DefId) : Storage :=
  if c.defs.isGlobal id then .static L.statics else .slot L.slots

/-- The layout after the declaration of a variable. -/
def reserve (c : GenContext) (L : Layout) (id : DefId) : Layout :=
  (if c.defs.isGlobal id then L.takeStatic else L.takeSlot).bind id (L.newPlace c id)

def reserveAll (c : GenContext) (L : Layout) (ids : List DefId) : Layout := ids.foldl (reserve c) L

def reserveCall (c : GenContext) (L : Layout) (id : DefId) : Call where
  command :=
    if c.defs.isGlobal id then .declareStatic (c.defs.nameOf id) (c.defs.typeOf id)
    else .declareLocal (c.defs.nameOf id) (c.defs.typeOf id)
  reply := .storage (L.newPlace c id)

/-- A slot without a name, for the use of the generated code. -/
def temporaryCall (L : Layout) (type : ValueType) : Call :=
  ⟨.declareLocal "" type, .storage (.slot L.slots)⟩

def labelCall (L : Layout) : Call := ⟨.newLabel, .label ⟨L.labels⟩⟩

end Layout

/-- Each variable is declared and gets the value that `init` pushes. -/
def variablesCalls (c : GenContext) (init : DefId → List Instr) : Layout → List DefId → List Call
  | _, [] => []
  | L, id :: ids =>
    L.reserveCall c id :: (emits (init id ++ [.store (L.newPlace c id)]) ++
      variablesCalls c init (L.reserve c id) ids)

/-- The size of arrays goes into a slot of its own. -/
def sizeCalls (c : GenContext) (L : Layout) (e : TypedExpr) : List Call :=
  emits (e.code c L.storage) ++
    [L.temporaryCall .int, ⟨.emit (.store (.slot L.slots)), .done⟩]

def declarationCalls (c : GenContext) (L : Layout) (ids : List DefId) (type : ValueType)
    (size : Option TypedExpr) : List Call :=
  if type.isArray then
    match size with
    | none => []
    | some e =>
      sizeCalls c L e ++
        variablesCalls c (fun _ => [.load (.slot L.slots), .newArray type.basic]) L.takeSlot ids
  else variablesCalls c (fun _ => zeroCode type) L ids

/-! ## Statements -/

namespace TypedStmt

mutual

/-- The layout after a statement. -/
def layout (c : GenContext) (L : Layout) : TypedStmt → Layout
  | declare ids type _ _ => (if type.isArray then L.takeSlot else L).reserveAll c ids
  | callable id body => L.defer id body
  | ifThen _ yes _ => layout c L.takeLabel.takeLabel yes
  | ifElse _ yes no _ => layout c (layout c L.takeLabel.takeLabel yes) no
  | whileDo _ body _ => layout c L.takeLabel.takeLabel body
  | block body => (layoutIn c L.beginScope body).endScope
  | assign _ _ _ | call _ _ _ | ret _ _ | assert _ _ => L

def layoutIn (c : GenContext) (L : Layout) : List TypedStmt → Layout
  | [] => L
  | s :: ss => layoutIn c (layout c L s) ss

end

/-- The text of a line is put together in an array of its own. -/
def printCalls (c : GenContext) (L : Layout) (args : List TypedExpr) : List Call :=
  ⟨.beginScope, .done⟩ :: L.temporaryCall (.array .string) ::
    (emits (.pushInt args.length :: .newArray .string :: .store (.slot L.slots) ::
      TypedExpr.lineCode c L.storage (.slot L.slots) args) ++ [⟨.endScope, .done⟩])

/-- What stands for a call: the work of a predefined procedure, or the call of
a routine. -/
def callCalls (c : GenContext) (L : Layout) (callee : DefId) (args : List TypedExpr) : List Call :=
  match (c.defs.callable? callee).bind CallableInfo.intrinsic with
  | some .print => printCalls c L args
  | some .read => emits (TypedExpr.readsCode c L.storage args)
  | none =>
    emits (TypedExpr.argsCode c L.storage (c.defs.paramsOf callee) args ++ [.call (c.routine callee)])

mutual

/-- The commands of a statement in the body of `f`. -/
def calls (c : GenContext) (f : DefId) (L : Layout) : TypedStmt → List Call
  | declare ids type size _ => declarationCalls c L ids type size
  | callable _ _ => []
  | assign target value _ => emits (target.assignCode c L.storage value)
  | ifThen cond yes _ =>
    L.labelCall :: L.takeLabel.labelCall ::
      (emits (cond.code c L.storage ++ [.jumpIfFalse ⟨L.labels⟩]) ++
        (calls c f L.takeLabel.takeLabel yes ++
          emits [.jump ⟨L.labels + 1⟩, .label ⟨L.labels⟩, .label ⟨L.labels + 1⟩]))
  | ifElse cond yes no _ =>
    L.labelCall :: L.takeLabel.labelCall ::
      (emits (cond.code c L.storage ++ [.jumpIfFalse ⟨L.labels⟩]) ++
        (calls c f L.takeLabel.takeLabel yes ++
          (emits [.jump ⟨L.labels + 1⟩, .label ⟨L.labels⟩] ++
            (calls c f (yes.layout c L.takeLabel.takeLabel) no ++ emits [.label ⟨L.labels + 1⟩]))))
  | whileDo cond body _ =>
    L.labelCall :: L.takeLabel.labelCall ::
      (emits [.jump ⟨L.labels + 1⟩, .label ⟨L.labels⟩] ++
        (calls c f L.takeLabel.takeLabel body ++
          emits (.label ⟨L.labels + 1⟩ ::
            (cond.code c (body.layout c L.takeLabel.takeLabel).storage ++ [.jumpIfTrue ⟨L.labels⟩]))))
  | call callee args _ => callCalls c L callee args
  | ret none _ => emits [.ret]
  | ret (some value) _ => emits (value.codeAs c L.storage (c.defs.typeOf f) ++ [.ret])
  | assert cond pos => emits (cond.code c L.storage ++ [.assert pos])
  | block body => ⟨.beginScope, .done⟩ :: (callsIn c f L.beginScope body ++ [⟨.endScope, .done⟩])

def callsIn (c : GenContext) (f : DefId) (L : Layout) : List TypedStmt → List Call
  | [] => []
  | s :: ss => calls c f L s ++ callsIn c f (s.layout c L) ss

end

end TypedStmt

end StackPascal
