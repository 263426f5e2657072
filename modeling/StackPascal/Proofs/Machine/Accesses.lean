import StackPascal.Proofs.Machine.Segments

/-!
What the loads and stores of a routine are emitted for.

Each of them is for a variable of the program, or for a slot that the generated
code has for itself, and goes where the generator has put that.

* `Referent`: what a storage is in use for;
* `TypedStmt.accesses`, `routineAccesses`: the accesses of a statement and of a
  routine, in the order of the code;
* `accessed_calls`, `accessed_routine`: these are the accesses of the
  instructions;
* `annotate`: the accesses, each at its instruction.
-/

namespace StackPascal

/-! ## Accesses -/

/-- What a storage is in use for: a variable of the program, the size of arrays
that are declared together, or the texts of a line that is printed. -/
inductive Referent
  | named (id : DefId)
  | sizeOf (ids : List DefId)
  | line (pos : Position)
  deriving DecidableEq

/-- What is done to a storage: it gets its first value or another one, or it is
read, by its value or its address. -/
inductive Access.Role
  | setUp
  | assign
  | read
  deriving DecidableEq

structure Access where
  role : Access.Role
  referent : Referent
  storage : Storage
  deriving DecidableEq

/-- Whether the instruction reads a storage or stores into one, and which one. -/
def Instr.access? : Instr → Option (Bool × Storage)
  | load s | loadAddr s => some (true, s)
  | store s => some (false, s)
  | _ => none

/-- What an instruction shows of its access. -/
def Access.shown (a : Access) : Bool × Storage := (decide (a.role = .read), a.storage)

/-- The accesses of instructions, as far as they show them. -/
def accessed (is : List Instr) : List (Bool × Storage) := is.filterMap Instr.access?

/-- The variables that are named are read where they are. -/
def reads (σ : Places) (us : List Use) : List Access :=
  us.filterMap fun
    | .place id => some ⟨.read, .named id, σ.of id⟩
    | .callee _ => none

/-- Each variable is set up, after the accesses in `init`. -/
def variablesAccesses (c : GenContext) (init : List Access) : Layout → List DefId → List Access
  | _, [] => []
  | L, id :: ids =>
    init ++ ⟨.setUp, .named id, L.newPlace c id⟩ :: variablesAccesses c init (L.reserve c id) ids

/-- The size of arrays is set up first, and read for each of them. -/
def declarationAccesses (c : GenContext) (L : Layout) (ids : List DefId) (type : ValueType)
    (size : Option TypedExpr) : List Access :=
  if type.isArray then
    reads L.storage (TypedExpr.usesOption size) ++ ⟨.setUp, .sizeOf ids, .slot L.slots⟩ ::
      variablesAccesses c [⟨.read, .sizeOf ids, .slot L.slots⟩] L.takeSlot ids
  else variablesAccesses c [] L ids

def Place.assignAccesses (c : GenContext) (σ : Places) (value : TypedExpr) : Place → List Access
  | name id =>
    if c.defs.isByRef id then ⟨.read, .named id, σ.of id⟩ :: reads σ value.uses
    else reads σ value.uses ++ [⟨.assign, .named id, σ.of id⟩]
  | element id index => reads σ (Place.element id index).uses ++ reads σ value.uses

/-- The array of a line is read for each argument, and in the end for the line. -/
def lineAccesses (σ : Places) (array : Access) : List TypedExpr → List Access
  | [] => [array]
  | arg :: args => array :: (reads σ arg.uses ++ lineAccesses σ array args)

namespace TypedStmt

def callAccesses (c : GenContext) (L : Layout) (callee : DefId) (args : List TypedExpr)
    (pos : Position) : List Access :=
  match (c.defs.callable? callee).bind CallableInfo.intrinsic with
  | some .print =>
    ⟨.setUp, .line pos, .slot L.slots⟩ :: lineAccesses L.storage ⟨.read, .line pos, .slot L.slots⟩ args
  | _ => reads L.storage (TypedExpr.usesAll args)

mutual

/-- The accesses of a statement, in the order of its code. -/
def accesses (c : GenContext) (L : Layout) : TypedStmt → List Access
  | declare ids type size _ => declarationAccesses c L ids type size
  | callable _ _ => []
  | assign target value _ => target.assignAccesses c L.storage value
  | ifThen cond yes _ => reads L.storage cond.uses ++ accesses c L.takeLabel.takeLabel yes
  | ifElse cond yes no _ =>
    reads L.storage cond.uses ++ (accesses c L.takeLabel.takeLabel yes ++
      accesses c (yes.layout c L.takeLabel.takeLabel) no)
  | whileDo cond body _ =>
    accesses c L.takeLabel.takeLabel body ++
      reads (body.layout c L.takeLabel.takeLabel).storage cond.uses
  | call callee args pos => callAccesses c L callee args pos
  | ret value _ => reads L.storage (TypedExpr.usesOption value)
  | assert cond _ => reads L.storage cond.uses
  | block body => accessesIn c L.beginScope body

def accessesIn (c : GenContext) (L : Layout) : List TypedStmt → List Access
  | [] => []
  | s :: ss => accesses c L s ++ accessesIn c (s.layout c L) ss

end

end TypedStmt

/-- The accesses of a routine: it sets the constants `ids`, and then the body is
executed. -/
def routineAccesses (c : GenContext) (L : Layout) (ids : List DefId) (body : List TypedStmt) :
    List Access :=
  variablesAccesses c [] L ids ++ (TypedStmt.block body).accesses c (L.reserveAll c ids)

/-! ## Accesses of the code -/

open Gen TypedExpr

@[simp] theorem accessed_nil : accessed [] = [] := rfl

@[simp] theorem accessed_append (is js : List Instr) :
    accessed (is ++ js) = accessed is ++ accessed js :=
  List.filterMap_append

theorem accessed_cons {i : Instr} (h : i.access? = none) (is : List Instr) :
    accessed (i :: is) = accessed is :=
  List.filterMap_cons_none h

theorem accessed_optional {i : Instr} (h : i.access? = none) (needed : Bool) :
    accessed (optional needed i) = [] := by
  cases needed with
  | false => rfl
  | true => exact accessed_cons h []

@[simp] theorem reads_append (σ : Places) (us vs : List Use) :
    reads σ (us ++ vs) = reads σ us ++ reads σ vs :=
  List.filterMap_append

section Expressions

variable {c : GenContext} {σ : Places}

@[simp] theorem accessed_sign (info : ExprInfo) : accessed (signCode info) = [] :=
  accessed_optional rfl _

@[simp] theorem accessed_widen (needed : Bool) : accessed (optional needed .widen) = [] :=
  accessed_optional rfl _

theorem accessed_variable (id : DefId) (us : List Use) (is : List Instr)
    (h : accessed is = (reads σ us).map Access.shown) :
    accessed (variableCode c σ id ++ is) = (reads σ (.place id :: us)).map Access.shown := by
  have hload : accessed (variableCode c σ id) = [(true, σ.of id)] :=
    congrArg ((true, σ.of id) :: ·) (accessed_optional rfl _)
  rw [accessed_append, hload, h]
  rfl

theorem accessed_zero (type : ValueType) : accessed (zeroCode type) = [] := by
  obtain ⟨basic, isArray⟩ := type
  cases isArray <;> cases basic <;> rfl

mutual

/-- An expression reads the variables that it names. -/
theorem accessed_code : ∀ e : TypedExpr, e.WellTyped c.defs →
    accessed (e.code c σ) = (reads σ e.uses).map Access.shown
  | .literal value info, _ => by
    rw [code, accessed_cons (by cases value <;> rfl), accessed_sign]
    rfl
  | .binary op operand left right info, ⟨hl, hr, _⟩ => by
    simp only [code, uses, accessed_append, accessed_widen, List.nil_append, reads_append,
      List.map_append, accessed_code left hl, accessed_code right hr]
    rw [accessed_cons rfl, accessed_sign, List.append_nil]
  | .not operand info, h => by
    rw [code, uses, accessed_append, accessed_cons rfl, accessed_sign, List.append_nil,
      accessed_code operand h.1]
  | .call callee args info, ⟨i, hg, _, ha, _⟩ => by
    have hargs := accessed_args (c.defs.paramsOf callee) args (Defs.paramsOf_eq hg ▸ ha)
    rw [code, uses, accessed_append, accessed_cons rfl, accessed_sign, List.append_nil, hargs]
    rfl
  | .size array info, h => by
    rw [code, uses, accessed_append, accessed_cons rfl, accessed_sign, List.append_nil,
      accessed_code array h.1]
  | .name id info, _ => accessed_variable id [] _ (accessed_sign info)
  | .element id index info, ⟨_, h, _⟩ => by
    rw [code, uses]
    refine accessed_variable id index.uses _ ?_
    rw [accessed_append, accessed_cons rfl, accessed_sign, List.append_nil, accessed_code index h]
  | .bad _, h => h.elim

theorem accessed_address : ∀ e : TypedExpr, e.WellTyped c.defs → e.isVariable = true →
    accessed (e.addressCode c σ) = (reads σ e.uses).map Access.shown
  | .name id _, _, _ => by
    rw [addressCode, addressOf]
    split <;> rfl
  | .element id index _, ⟨_, h, _⟩, _ => by
    rw [addressCode, uses]
    refine accessed_variable id index.uses _ ?_
    rw [accessed_append, accessed_cons rfl, accessed_nil, List.append_nil, accessed_code index h]
  | .literal _ _, _, hv => nomatch hv
  | .binary _ _ _ _ _, _, hv => nomatch hv
  | .not _ _, _, hv => nomatch hv
  | .call _ _ _, _, hv => nomatch hv
  | .size _ _, _, hv => nomatch hv
  | .bad _, _, hv => nomatch hv

theorem accessed_args : ∀ (params : List DefId) (args : List TypedExpr),
    WellTypedArgs c.defs params args →
    accessed (argsCode c σ params args) = (reads σ (usesAll args)).map Access.shown
  | [], [], _ => by rw [argsCode.eq_def, usesAll]; rfl
  | [], _ :: _, h => h.elim
  | _ :: _, [], h => h.elim
  | param :: params, arg :: args, ⟨he, ht, hs⟩ => by
    rw [argsCode, usesAll, accessed_append, reads_append, List.map_append, accessed_args params args hs]
    unfold Defs.Takes at ht
    split
    · next hr =>
      rw [if_pos hr] at ht
      rw [accessed_address arg he ht.1]
    · rw [accessed_append, accessed_widen, List.append_nil, accessed_code arg he]

end

theorem accessed_codeAs {e : TypedExpr} (h : e.WellTyped c.defs) (target : ValueType) :
    accessed (e.codeAs c σ target) = (reads σ e.uses).map Access.shown := by
  rw [codeAs, accessed_append, accessed_widen, List.append_nil, accessed_code e h]

theorem accessed_line (a : Access) (ha : a.role = .read) : ∀ (args : List TypedExpr) (i : Nat),
    (∀ e ∈ args, e.WellTyped c.defs) →
    accessed (partsCode c σ a.storage i args ++ [.pushStr " ", .load a.storage, .join, .writeLine]) =
      (lineAccesses σ a args).map Access.shown
  | [], _, _ => by
    rw [lineAccesses, List.map_singleton, Access.shown, ha]
    rfl
  | arg :: args, i, h => by
    have hrest := accessed_line a ha args (i + 1) fun e he => h e (List.mem_cons_of_mem _ he)
    have hload : accessed [.load a.storage] = [a.shown] := by rw [Access.shown, ha]; rfl
    rw [partsCode, lineAccesses, List.map_cons, List.map_append, ← hrest,
      ← accessed_code arg (h arg (List.mem_cons_self ..))]
    simp only [List.cons_append, List.append_assoc]
    rw [← List.singleton_append, accessed_append, hload, accessed_cons rfl, accessed_append,
      accessed_cons rfl, accessed_cons rfl]
    rfl

theorem accessed_reads : ∀ args : List TypedExpr,
    (∀ e ∈ args, e.WellTyped c.defs ∧ e.isVariable = true) →
    accessed (readsCode c σ args) = (reads σ (usesAll args)).map Access.shown
  | [], _ => rfl
  | arg :: args, h => by
    obtain ⟨he, hv⟩ := h arg (List.mem_cons_self ..)
    rw [readsCode, usesAll, accessed_append, accessed_cons rfl, accessed_append, accessed_optional rfl,
      accessed_cons rfl, accessed_address arg he hv, reads_append, List.map_append, List.nil_append,
      accessed_reads args fun e he => h e (List.mem_cons_of_mem _ he)]

end Expressions

section Statements

variable {c : GenContext} {f : DefId}

theorem accessed_instrs_append (cs ds : List Call) :
    accessed (instrs (cs ++ ds)) = accessed (instrs cs) ++ accessed (instrs ds) := by
  rw [instrs_append, accessed_append]

theorem accessed_variables {init : DefId → List Instr} {as : List Access}
    (hi : ∀ id, accessed (init id) = as.map Access.shown) : ∀ (ids : List DefId) (L : Layout),
    accessed (instrs (variablesCalls c init L ids)) = (variablesAccesses c as L ids).map Access.shown
  | [], _ => rfl
  | id :: ids, L => by
    rw [variablesCalls, variablesAccesses, instrs_reserve, instrs_append, instrs_emits, accessed_append,
      accessed_append, hi id, accessed_variables hi ids (L.reserve c id), List.map_append, List.map_cons,
      List.append_assoc]
    rfl

theorem accessed_declaration {ids : List DefId} {type : ValueType} {size : Option TypedExpr}
    (h : TypedStmt.DeclarationTyped c.defs ids type size) (L : Layout) :
    accessed (instrs (declarationCalls c L ids type size)) =
      (declarationAccesses c L ids type size).map Access.shown := by
  unfold declarationCalls declarationAccesses
  split
  · next ha =>
    obtain ⟨e, rfl, he, _⟩ := h.2 ha
    have hone : ∀ _ : DefId, accessed [.load (.slot L.slots), .newArray type.basic] =
        [⟨.read, .sizeOf ids, .slot L.slots⟩].map Access.shown := fun _ => rfl
    have harrays := accessed_variables (c := c) hone ids L.takeSlot
    dsimp only
    rw [sizeCalls, accessed_instrs_append, accessed_instrs_append, instrs_emits, accessed_code e he,
      harrays, List.map_append, List.append_assoc]
    rfl
  · exact accessed_variables (fun _ => accessed_zero type) ids L

theorem accessed_assign {target : Place} {value : TypedExpr} (ht : target.WellTyped c.defs)
    (hv : value.WellTyped c.defs) (σ : Places) :
    accessed (target.assignCode c σ value) = (target.assignAccesses c σ value).map Access.shown := by
  cases target with
  | name id =>
    rw [Place.assignCode, Place.assignAccesses]
    split
    · rw [← List.singleton_append, accessed_append, accessed_append, accessed_codeAs hv]
      exact congrArg _ (List.append_nil _)
    · rw [accessed_append, accessed_codeAs hv, List.map_append]
      rfl
  | element id index =>
    rw [Place.assignCode, Place.assignAccesses, ← reads_append]
    refine accessed_variable id (index.uses ++ value.uses) _ ?_
    rw [accessed_append, accessed_append, accessed_code index ht.2.2.1, accessed_codeAs hv,
      accessed_cons rfl, accessed_nil, List.append_nil, reads_append, List.map_append]

theorem accessed_call {callee : DefId} {args : List TypedExpr} {info : CallableInfo}
    (hi : c.defs.callable? callee = some info) (h : info.Accepts c.defs args) (L : Layout)
    (pos : Position) : accessed (instrs (TypedStmt.callCalls c L callee args)) =
      (TypedStmt.callAccesses c L callee args pos).map Access.shown := by
  unfold CallableInfo.Accepts at h
  unfold TypedStmt.callCalls TypedStmt.callAccesses
  rw [hi, Option.bind_some]
  cases hn : info.intrinsic with
  | none =>
    rw [hn] at h
    have hargs := accessed_args (σ := L.storage) (c.defs.paramsOf callee) args (Defs.paramsOf_eq hi ▸ h)
    rw [instrs_emits, accessed_append, hargs, accessed_cons rfl, accessed_nil, List.append_nil]
  | some i =>
    rw [hn] at h
    cases i with
    | print =>
      have hline := accessed_line (σ := L.storage) ⟨.read, .line pos, .slot L.slots⟩ rfl args 0
        fun e he => (h e he).1
      have hcalls : instrs (TypedStmt.printCalls c L args) =
          [.pushInt args.length, .newArray .string, .store (.slot L.slots)] ++
            lineCode c L.storage (.slot L.slots) args := by
        show instrs (emits _ ++ _) = _
        rw [instrs_append, instrs_emits]
        exact List.append_nil _
      rw [hcalls, accessed_append, lineCode, hline]
      rfl
    | read =>
      rw [instrs_emits]
      exact accessed_reads args fun e he => ⟨(h e he).1, (h e he).2.2 rfl⟩

mutual

/-- The instructions of a statement have its accesses. -/
theorem accessed_calls : ∀ (s : TypedStmt) (L : Layout), s.WellTyped c.defs f →
    accessed (instrs (s.calls c f L)) = (s.accesses c L).map Access.shown
  | .declare _ _ _ _, L, h => accessed_declaration h L
  | .callable _ _, _, _ => rfl
  | .assign target value _, L, h => by
    rw [TypedStmt.calls, TypedStmt.accesses, instrs_emits, accessed_assign h.1 h.2.1]
  | .ifThen cond yes _, L, h => by
    show accessed (instrs (emits _ ++ (_ ++ emits _))) = _
    rw [TypedStmt.accesses, accessed_instrs_append, accessed_instrs_append, instrs_emits, instrs_emits,
      accessed_append, accessed_code cond h.1, accessed_calls yes _ h.2.2, List.map_append]
    exact congrArg₂ (· ++ ·) (List.append_nil _) (List.append_nil _)
  | .ifElse cond yes no _, L, h => by
    show accessed (instrs (emits _ ++ (_ ++ (emits _ ++ (_ ++ emits _))))) = _
    rw [TypedStmt.accesses, accessed_instrs_append, accessed_instrs_append, accessed_instrs_append,
      accessed_instrs_append, instrs_emits, instrs_emits, instrs_emits, accessed_append,
      accessed_code cond h.1, accessed_calls yes _ h.2.2.1, accessed_calls no _ h.2.2.2,
      List.map_append, List.map_append]
    exact congrArg₂ (· ++ ·) (List.append_nil _) (congrArg _ (List.append_nil _))
  | .whileDo cond body _, L, h => by
    have htest : accessed (.label ⟨L.labels + 1⟩ ::
        (cond.code c (body.layout c L.takeLabel.takeLabel).storage ++ [.jumpIfTrue ⟨L.labels⟩])) = _ :=
      (accessed_cons rfl _).trans (accessed_append ..)
    show accessed (instrs (emits _ ++ (_ ++ emits _))) = _
    rw [TypedStmt.accesses, accessed_instrs_append, accessed_instrs_append, instrs_emits, instrs_emits,
      htest, accessed_code cond h.1, accessed_calls body _ h.2.2, List.map_append]
    refine (List.nil_append _).trans ?_
    rw [← List.append_assoc]
    exact List.append_nil _
  | .call callee args pos, L, ⟨_, hi, _, ha⟩ => accessed_call hi ha L pos
  | .ret none _, _, _ => rfl
  | .ret (some value) _, L, h => by
    rw [TypedStmt.calls, TypedStmt.accesses, instrs_emits, accessed_append, accessed_codeAs h.2.1,
      accessed_cons rfl, accessed_nil, List.append_nil, usesOption]
  | .assert cond _, L, h => by
    rw [TypedStmt.calls, TypedStmt.accesses, instrs_emits, accessed_append, accessed_code cond h.1,
      accessed_cons rfl, accessed_nil, List.append_nil]
  | .block body, L, h => by
    show accessed (instrs (_ ++ _)) = _
    rw [TypedStmt.accesses, accessed_instrs_append, accessed_callsIn body _ h]
    exact List.append_nil _

theorem accessed_callsIn : ∀ (ss : List TypedStmt) (L : Layout), TypedStmt.WellTypedIn c.defs f ss →
    accessed (instrs (TypedStmt.callsIn c f L ss)) = (TypedStmt.accessesIn c L ss).map Access.shown
  | [], _, _ => rfl
  | s :: ss, L, h => by
    rw [TypedStmt.callsIn, TypedStmt.accessesIn, accessed_instrs_append, accessed_calls s L h.1,
      accessed_callsIn ss _ h.2, List.map_append]

end

/-- The instructions of a routine have its accesses. -/
theorem accessed_routine {L : Layout} {ids : List DefId} {body : List TypedStmt}
    (h : TypedStmt.WellTypedIn c.defs f body) :
    accessed (instrs (variablesCalls c (constantCode c) L ids ++ bodyCalls c f (L.reserveAll c ids) body)) =
      (routineAccesses c L ids body).map Access.shown := by
  have hone : ∀ id, accessed (constantCode c id) = [].map Access.shown := fun _ => rfl
  have hconstants := accessed_variables (c := c) hone ids L
  have hblock := accessed_calls (.block body) (L.reserveAll c ids) h
  rw [bodyCalls, routineAccesses, accessed_instrs_append, accessed_instrs_append, hconstants, hblock,
    instrs_emits, accessed_append, accessed_zero, accessed_cons rfl, List.map_append]
  exact congrArg _ (List.append_nil _)

end Statements

/-! ## Parts of the code -/

/-- What holds of commands with their accesses, by the frame they begin with, holds
of their parts too. -/
structure Splits (H : Frame → List Call → List Access → Prop) : Prop where
  left : ∀ {fr : Frame} {cs ds : List Call} {as bs : List Access}, H fr (cs ++ ds) (as ++ bs) →
    accessed (instrs cs) = as.map Access.shown → H fr cs as
  right : ∀ {fr : Frame} {cs ds : List Call} {as bs : List Access}, H fr (cs ++ ds) (as ++ bs) →
    accessed (instrs cs) = as.map Access.shown → H (fr.run cs) ds bs

namespace Splits

variable {H : Frame → List Call → List Access → Prop} (S : Splits H) {c : GenContext} {f : DefId}
  {fr : Frame} {cs ds : List Call} {as : List Access} {L : Layout} {cond : TypedExpr} {pos : Position}
include S

/-- The rest has no accesses. -/
theorem first (h : H fr (cs ++ ds) as) (hcs : accessed (instrs cs) = as.map Access.shown) : H fr cs as := by
  rw [← List.append_nil as] at h
  exact S.left h hcs

theorem last (h : H fr (cs ++ ds) as) (hcs : accessed (instrs cs) = as.map Access.shown) :
    H (fr.run cs) ds [] := by
  rw [← List.append_nil as] at h
  exact S.right h hcs

/-- The beginning has no accesses. -/
theorem skip (cs : List Call) (h : H fr (cs ++ ds) as) (hcs : accessed (instrs cs) = []) :
    H (fr.run cs) ds as := by
  rw [← List.nil_append as] at h
  exact S.right h hcs

theorem start (cs : List Call) (h : H fr (cs ++ ds) as) (hcs : accessed (instrs cs) = []) : H fr cs [] := by
  rw [← List.nil_append as] at h
  exact S.left h hcs

theorem labels (h : H fr (L.labelCall :: L.takeLabel.labelCall :: cs) as) : H fr cs as :=
  S.skip [L.labelCall, L.takeLabel.labelCall] h rfl

theorem test {σ : Places} {i : Instr} (h : H fr (emits (cond.code c σ ++ [i]) ++ cs) (reads σ cond.uses ++ as))
    (ht : cond.WellTyped c.defs) (hi : i.access? = none) :
    H fr (emits (cond.code c σ ++ [i])) (reads σ cond.uses) ∧
      H (fr.run (emits (cond.code c σ ++ [i]))) cs as := by
  have hcode : accessed (instrs (emits (cond.code c σ ++ [i]))) = (reads σ cond.uses).map Access.shown := by
    rw [instrs_emits, accessed_append, accessed_cons hi, accessed_nil, List.append_nil,
      accessed_code cond ht]
  exact ⟨S.left h hcode, S.right h hcode⟩

theorem ifThen {yes : TypedStmt} (h : H fr ((TypedStmt.ifThen cond yes pos).calls c f L)
      ((TypedStmt.ifThen cond yes pos).accesses c L))
    (ht : cond.WellTyped c.defs) (hy : yes.WellTyped c.defs f) :
    let test := emits (cond.code c L.storage ++ [.jumpIfFalse ⟨L.labels⟩])
    let code := yes.calls c f L.takeLabel.takeLabel
    H fr test (reads L.storage cond.uses) ∧
      H (fr.run test) code (yes.accesses c L.takeLabel.takeLabel) ∧
      H ((fr.run test).run code)
        (emits [.jump ⟨L.labels + 1⟩, .label ⟨L.labels⟩, .label ⟨L.labels + 1⟩]) [] := by
  obtain ⟨htest, hrest⟩ := S.test (S.labels h) ht rfl
  have hcode := accessed_calls yes L.takeLabel.takeLabel hy
  exact ⟨htest, S.first hrest hcode, S.last hrest hcode⟩

theorem ifElse {yes no : TypedStmt} (h : H fr ((TypedStmt.ifElse cond yes no pos).calls c f L)
      ((TypedStmt.ifElse cond yes no pos).accesses c L))
    (ht : cond.WellTyped c.defs) (hy : yes.WellTyped c.defs f) (hn : no.WellTyped c.defs f) :
    let test := emits (cond.code c L.storage ++ [.jumpIfFalse ⟨L.labels⟩])
    let code := yes.calls c f L.takeLabel.takeLabel
    let marks := emits [.jump ⟨L.labels + 1⟩, .label ⟨L.labels⟩]
    let other := no.calls c f (yes.layout c L.takeLabel.takeLabel)
    H fr test (reads L.storage cond.uses) ∧
      H (fr.run test) code (yes.accesses c L.takeLabel.takeLabel) ∧
      H ((fr.run test).run code) marks [] ∧
      H (((fr.run test).run code).run marks) other
        (no.accesses c (yes.layout c L.takeLabel.takeLabel)) ∧
      H ((((fr.run test).run code).run marks).run other) (emits [.label ⟨L.labels + 1⟩]) [] := by
  obtain ⟨htest, hrest⟩ := S.test (S.labels h) ht rfl
  have hcode := accessed_calls yes L.takeLabel.takeLabel hy
  have hmarks := S.right hrest hcode
  have hother := accessed_calls no (yes.layout c L.takeLabel.takeLabel) hn
  have hlast := S.skip _ hmarks rfl
  exact ⟨htest, S.left hrest hcode, S.start _ hmarks rfl, S.first hlast hother, S.last hlast hother⟩

theorem whileDo {body : TypedStmt} (h : H fr ((TypedStmt.whileDo cond body pos).calls c f L)
      ((TypedStmt.whileDo cond body pos).accesses c L))
    (hb : body.WellTyped c.defs f) :
    let marks := emits [.jump ⟨L.labels + 1⟩, .label ⟨L.labels⟩]
    let code := body.calls c f L.takeLabel.takeLabel
    let σ := (body.layout c L.takeLabel.takeLabel).storage
    H fr marks [] ∧ H (fr.run marks) code (body.accesses c L.takeLabel.takeLabel) ∧
      H ((fr.run marks).run code) (emits [.label ⟨L.labels + 1⟩]) [] ∧
      H (((fr.run marks).run code).run (emits [.label ⟨L.labels + 1⟩]))
        (emits (cond.code c σ ++ [.jumpIfTrue ⟨L.labels⟩])) (reads σ cond.uses) := by
  have hstart := S.labels h
  have hrest := S.skip _ hstart rfl
  have hcode := accessed_calls body L.takeLabel.takeLabel hb
  have hend := S.right hrest hcode
  exact ⟨S.start _ hstart rfl, S.left hrest hcode, S.start (emits [_]) hend rfl,
    S.skip (emits [_]) hend rfl⟩

theorem block {body : List TypedStmt} (h : H fr ((TypedStmt.block body).calls c f L)
      ((TypedStmt.block body).accesses c L)) (hb : TypedStmt.WellTypedIn c.defs f body) :
    H fr.beginScope (TypedStmt.callsIn c f L.beginScope body) (TypedStmt.accessesIn c L.beginScope body) :=
  S.first (S.skip [⟨.beginScope, .done⟩] h rfl) (accessed_callsIn body L.beginScope hb)

theorem statements {s : TypedStmt} {ss : List TypedStmt} (h : H fr (TypedStmt.callsIn c f L (s :: ss))
      (TypedStmt.accessesIn c L (s :: ss))) (ht : s.WellTyped c.defs f) :
    H fr (s.calls c f L) (s.accesses c L) ∧
      H (fr.run (s.calls c f L)) (TypedStmt.callsIn c f (s.layout c L) ss)
        (TypedStmt.accessesIn c (s.layout c L) ss) :=
  ⟨S.left h (accessed_calls s L ht), S.right h (accessed_calls s L ht)⟩

theorem reserve {init : DefId → List Instr} {id : DefId} {ids : List DefId}
    (h : H fr (variablesCalls c init L (id :: ids)) (variablesAccesses c as L (id :: ids)))
    (hi : accessed (init id) = as.map Access.shown) :
    let one := L.reserveCall c id :: emits (init id ++ [.store (L.newPlace c id)])
    H fr one (as ++ [⟨.setUp, .named id, L.newPlace c id⟩]) ∧
      H (fr.run one) (variablesCalls c init (L.reserve c id) ids)
        (variablesAccesses c as (L.reserve c id) ids) := by
  have hone : accessed (instrs (L.reserveCall c id :: emits (init id ++ [.store (L.newPlace c id)]))) =
      List.map Access.shown (as ++ [⟨.setUp, .named id, L.newPlace c id⟩]) := by
    rw [instrs_reserve, instrs_emits, accessed_append, hi, List.map_append]
    rfl
  have hcons : H fr ((L.reserveCall c id :: emits (init id ++ [.store (L.newPlace c id)])) ++
      variablesCalls c init (L.reserve c id) ids) ((as ++ [⟨.setUp, .named id, L.newPlace c id⟩]) ++
      variablesAccesses c as (L.reserve c id) ids) := by
    rw [List.cons_append, List.append_assoc]
    exact h
  exact ⟨S.left hcons hone, S.right hcons hone⟩

/-- The size is pushed, and stored in a slot; then the arrays are declared. -/
theorem size {e : TypedExpr} {ids : List DefId} {cs : List Call} {as : List Access}
    (h : H fr (sizeCalls c L e ++ cs)
      (reads L.storage e.uses ++ ⟨.setUp, .sizeOf ids, .slot L.slots⟩ :: as))
    (he : e.WellTyped c.defs) :
    H fr (emits (e.code c L.storage)) (reads L.storage e.uses) ∧
      H (fr.run (emits (e.code c L.storage)))
        (L.temporaryCall .int :: (emits ([] ++ [.store (.slot L.slots)]) ++ cs))
        ([] ++ ⟨.setUp, .sizeOf ids, .slot L.slots⟩ :: as) ∧
      H (fr.run (sizeCalls c L e)) cs as := by
  have hcode : accessed (instrs (emits (e.code c L.storage))) = (reads L.storage e.uses).map Access.shown := by
    rw [instrs_emits, accessed_code e he]
  have hsize : accessed (instrs (sizeCalls c L e)) =
      List.map Access.shown (reads L.storage e.uses ++ [⟨.setUp, .sizeOf ids, .slot L.slots⟩]) := by
    rw [sizeCalls, accessed_instrs_append, hcode, List.map_append]
    rfl
  have hwhole := h
  rw [← List.singleton_append, ← List.append_assoc] at hwhole
  rw [sizeCalls, List.append_assoc] at h
  exact ⟨S.left h hcode, S.right h hcode, S.right hwhole hsize⟩

end Splits

/-! ## Accesses at their instructions -/

/-- The accesses, each at its instruction. -/
def annotate : List Instr → List Access → List (Option Access)
  | [], _ => []
  | i :: is, as =>
    match i.access? with
    | none => none :: annotate is as
    | some _ => as.head? :: annotate is as.tail

theorem annotate_append : ∀ {is : List Instr} {as : List Access}, accessed is = as.map Access.shown →
    ∀ (js : List Instr) (bs : List Access), annotate (is ++ js) (as ++ bs) = annotate is as ++ annotate js bs
  | [], as, h, js, bs => by
    obtain rfl : as = [] := List.map_eq_nil_iff.mp h.symm
    rfl
  | i :: is, as, h, js, bs => by
    unfold accessed at h
    rw [List.filterMap_cons] at h
    rw [List.cons_append, annotate, annotate]
    cases hi : i.access? with
    | none =>
      rw [hi] at h
      exact congrArg (none :: ·) (annotate_append h js bs)
    | some x =>
      rw [hi] at h
      cases as with
      | nil => cases h
      | cons a as => exact congrArg (some a :: ·) (annotate_append (List.cons.inj h).2 js bs)

/-- An instruction that accesses a storage has an access that shows it. -/
theorem shown_annotate : ∀ {is : List Instr} {as : List Access}, accessed is = as.map Access.shown →
    ∀ {p : Nat} {i : Instr}, is[p]? = some i →
    ∃ note, (annotate is as)[p]? = some note ∧ note.map Access.shown = i.access?
  | i :: is, as, h, p, j, hp => by
    unfold accessed at h
    rw [List.filterMap_cons] at h
    rw [annotate]
    cases hi : i.access? with
    | none =>
      rw [hi] at h
      cases p with
      | zero => cases hp; exact ⟨none, rfl, hi.symm⟩
      | succ p => exact shown_annotate h hp
    | some x =>
      rw [hi] at h
      cases as with
      | nil => cases h
      | cons a as =>
        obtain ⟨hx, h⟩ := List.cons.inj h
        cases p with
        | zero => cases hp; exact ⟨some a, rfl, (congrArg some hx.symm).trans hi.symm⟩
        | succ p => exact shown_annotate h hp

end StackPascal
