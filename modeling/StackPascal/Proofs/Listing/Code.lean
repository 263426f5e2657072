import StackPascal.Proofs.Code.Program
import StackPascal.Proofs.Listing.Literals

/-!
What a listing can show of the modules that are built.

* `Command.Plain`: a command with words for names, or with a plain instruction;
* `plain_step`, `plain_run`: such commands build a plain module;
* `code_plain`: the code of an expression pushes plain literals if it has only such;
* `calls_plain`, `Emitted.plain`: so the commands of a program are plain if its literals
  are and its definitions have words for names.
-/

namespace StackPascal

open Gen

/-! ## Commands -/

namespace Command

/-- Its names are words, and its instruction pushes a number, if it pushes a real one. -/
def Plain : Command → Prop
  | declareStatic name _ | declareLocal name _ => IsWord name
  | declareRoutine name params _ => IsWord name ∧ ∀ p ∈ params, IsWord p.name
  | emit i => i.Plain
  | beginRoutine _ | endRoutine | beginScope | endScope | newLabel | setEntry _ => True

@[simp] theorem plain_emit {i : Instr} : (emit i).Plain ↔ i.Plain := Iff.rfl

@[simp] theorem plain_beginRoutine (f : RoutineId) : (beginRoutine f).Plain := trivial

@[simp] theorem plain_endRoutine : endRoutine.Plain := trivial

@[simp] theorem plain_beginScope : beginScope.Plain := trivial

@[simp] theorem plain_endScope : endScope.Plain := trivial

@[simp] theorem plain_setEntry (f : RoutineId) : (setEntry f).Plain := trivial

end Command

theorem plain_updateCurrent {b : Builder} {f : Routine → Routine}
    (hf : ∀ r : Routine, r.Plain → (f r).Plain) (h : b.result.Plain) :
    (b.updateCurrent f).result.Plain where
  statics := (length_updateCurrent b f).2.1 ▸ h.statics
  routines := forall_updateCurrent hf h.routines

/-- A module stays plain with each plain command. -/
theorem plain_step {b : Builder} (h : b.result.Plain) {c : Command} (hc : c.Plain) :
    (b.step c).2.result.Plain := by
  cases c with
  | declareStatic name type =>
    exact ⟨List.forall_mem_append.mpr ⟨h.statics, List.forall_mem_singleton.mpr hc⟩, h.routines⟩
  | declareRoutine name params result =>
    refine ⟨h.statics, List.forall_mem_append.mpr ⟨h.routines, List.forall_mem_singleton.mpr ?_⟩⟩
    exact ⟨hc.1, hc.2, nofun, nofun, .inl ⟨rfl, rfl⟩⟩
  | declareLocal name type =>
    refine plain_updateCurrent (fun r hr => ⟨hr.name, hr.params, ?_, hr.code, ?_⟩) h
    · exact List.forall_mem_append.mpr ⟨hr.locals, List.forall_mem_singleton.mpr hc⟩
    · exact hr.measured.declare ⟨b.nextSlot, name, type⟩
  | emit i =>
    refine plain_updateCurrent (fun r hr => ⟨hr.name, hr.params, hr.locals, ?_, hr.measured⟩) h
    exact List.forall_mem_append.mpr ⟨hr.code, List.forall_mem_singleton.mpr hc⟩
  | endScope =>
    simp only [Builder.step, Builder.endScope]
    cases b.scopes <;> exact h
  | setEntry f => exact ⟨h.statics, h.routines⟩
  | beginRoutine f | endRoutine | beginScope | newLabel => exact h

theorem plain_run {cs : List Command} (hcs : ∀ c ∈ cs, c.Plain) {b : Builder} (h : b.result.Plain) :
    (b.run cs).2.result.Plain := by
  induction cs generalizing b with
  | nil => exact h
  | cons c cs ih =>
    obtain ⟨hc, hcs⟩ := List.forall_mem_cons.mp hcs
    exact ih hcs (plain_step h hc)

/-! ## Instructions -/

def PlainCode (is : List Instr) : Prop := ∀ i ∈ is, i.Plain

section Instructions

variable {c : GenContext} {σ : Places} {ds : Defs}

@[simp] theorem plainCode_nil : PlainCode [] := List.forall_mem_nil _

@[simp] theorem plainCode_cons {i : Instr} {is : List Instr} :
    PlainCode (i :: is) ↔ i.Plain ∧ PlainCode is := List.forall_mem_cons

@[simp] theorem plainCode_append {is js : List Instr} :
    PlainCode (is ++ js) ↔ PlainCode is ∧ PlainCode js := List.forall_mem_append

@[simp] theorem plainCode_optional {needed : Bool} {i : Instr} :
    PlainCode (optional needed i) ↔ (needed = true → i.Plain) := by
  cases needed <;> simp [optional]

@[simp] theorem signCode_plain (info : ExprInfo) : PlainCode (signCode info) := by
  simp [signCode, Instr.Plain]

@[simp] theorem variableCode_plain (id : DefId) : PlainCode (variableCode c σ id) := by
  simp [variableCode, Instr.Plain]

@[simp] theorem addressOf_plain (id : DefId) : (addressOf c σ id).Plain := by
  unfold addressOf
  split <;> trivial

@[simp] theorem zeroCode_plain (type : ValueType) : PlainCode (zeroCode type) := by
  unfold zeroCode
  split
  · simp [Instr.Plain]
  · cases type.basic <;> simp [Instr.Plain]
    decide

theorem pushLiteral_plain {v : Literal} (h : v.Plain) : (pushLiteral v).Plain := by
  cases v with
  | real x => exact h
  | int n => trivial
  | string s => trivial

namespace TypedExpr

mutual

theorem code_plain : ∀ e : TypedExpr, PlainValues (e.erase ds).literals → PlainCode (e.code c σ)
  | .literal value info, h => by
    have hvalue := pushLiteral_plain (h value List.mem_cons_self)
    simp [code, hvalue]
  | .binary op operand left right info, h => by
    obtain ⟨hleft, hright⟩ := plainValues_append.mp h
    simp [code, Instr.Plain, code_plain left hleft, code_plain right hright]
  | .not operand info, h => by simp [code, Instr.Plain, code_plain operand h]
  | .call callee args info, h => by simp [code, Instr.Plain, argsCode_plain _ args h]
  | .size array info, h => by simp [code, Instr.Plain, code_plain array h]
  | .name id info, _ => by simp [code]
  | .element id index info, h => by simp [code, Instr.Plain, code_plain index h]
  | .bad _, _ => plainCode_nil

theorem addressCode_plain : ∀ e : TypedExpr, PlainValues (e.erase ds).literals →
    PlainCode (e.addressCode c σ)
  | .name id _, _ => by simp [addressCode]
  | .element id index _, h => by simp [addressCode, Instr.Plain, code_plain index h]
  | .literal _ _, _ | .binary _ _ _ _ _, _ | .not _ _, _ | .call _ _ _, _ | .size _ _, _
  | .bad _, _ => plainCode_nil

theorem argsCode_plain : ∀ (params : List DefId) (args : List TypedExpr),
    PlainValues (Expr.literalsAll (eraseAll ds args)) → PlainCode (argsCode c σ params args)
  | [], _, _ => by simp [argsCode]
  | _ :: _, [], _ => by simp [argsCode]
  | param :: params, arg :: args, h => by
    obtain ⟨harg, hargs⟩ := plainValues_append.mp h
    refine plainCode_append.mpr ⟨?_, argsCode_plain params args hargs⟩
    split
    · exact addressCode_plain arg harg
    · simp [Instr.Plain, code_plain arg harg]

end

theorem codeAs_plain {e : TypedExpr} (h : PlainValues (e.erase ds).literals) (target : ValueType) :
    PlainCode (e.codeAs c σ target) := by
  simp [codeAs, Instr.Plain, code_plain e h]

theorem partsCode_plain {args : List TypedExpr}
    (h : PlainValues (Expr.literalsAll (eraseAll ds args))) (array : Storage) (i : Nat) :
    PlainCode (partsCode c σ array i args) := by
  induction args generalizing i with
  | nil => exact plainCode_nil
  | cons arg args ih =>
    obtain ⟨harg, hargs⟩ := plainValues_append.mp h
    simp [partsCode, Instr.Plain, code_plain arg harg, ih hargs]

theorem readsCode_plain {args : List TypedExpr}
    (h : PlainValues (Expr.literalsAll (eraseAll ds args))) : PlainCode (readsCode c σ args) := by
  induction args with
  | nil => exact plainCode_nil
  | cons arg args ih =>
    obtain ⟨harg, hargs⟩ := plainValues_append.mp h
    simp [readsCode, Instr.Plain, addressCode_plain arg harg, ih hargs]

end TypedExpr

theorem assignCode_plain {target : Place} {value : TypedExpr}
    (htarget : PlainValues (target.erase ds).literals)
    (hvalue : PlainValues (value.erase ds).literals) : PlainCode (target.assignCode c σ value) := by
  have hcode (type : ValueType) : PlainCode (value.codeAs c σ type) :=
    TypedExpr.codeAs_plain hvalue type
  cases target with
  | name id =>
    rw [Place.assignCode]
    split <;> simp [Instr.Plain, hcode]
  | element id index =>
    simp [Place.assignCode, Instr.Plain, hcode, TypedExpr.code_plain index htarget]

end Instructions

/-! ## Statements -/

/-- All of the calls are of plain commands. -/
def PlainCalls (cs : List Call) : Prop := ∀ call ∈ cs, call.command.Plain

section Calls

variable {c : GenContext} {ds : Defs}

@[simp] theorem plainCalls_nil : PlainCalls [] := List.forall_mem_nil _

@[simp] theorem plainCalls_cons {call : Call} {cs : List Call} :
    PlainCalls (call :: cs) ↔ call.command.Plain ∧ PlainCalls cs := List.forall_mem_cons

@[simp] theorem plainCalls_append {cs more : List Call} :
    PlainCalls (cs ++ more) ↔ PlainCalls cs ∧ PlainCalls more := List.forall_mem_append

@[simp] theorem plainCalls_emits {is : List Instr} : PlainCalls (emits is) ↔ PlainCode is :=
  List.forall_mem_map

@[simp] theorem labelCall_plain (L : Layout) : L.labelCall.command.Plain := trivial

/-- The slots of the generated code have no names. -/
@[simp] theorem temporaryCall_plain (L : Layout) (type : ValueType) :
    (L.temporaryCall type).command.Plain := List.forall_mem_nil _

theorem reserveCall_plain (hnames : c.defs.Worded) (L : Layout) (id : DefId) :
    (L.reserveCall c id).command.Plain := by
  unfold Layout.reserveCall
  dsimp only
  split <;> exact hnames.nameOf id

theorem variablesCalls_plain (hnames : c.defs.Worded) {init : DefId → List Instr}
    (hinit : ∀ id, PlainCode (init id)) (ids : List DefId) (L : Layout) :
    PlainCalls (variablesCalls c init L ids) := by
  induction ids generalizing L with
  | nil => exact plainCalls_nil
  | cons id ids ih => simp [variablesCalls, Instr.Plain, reserveCall_plain hnames L id, hinit id, ih]

theorem declarationCalls_plain (hnames : c.defs.Worded) {type : ValueType} {size : Option TypedExpr}
    (h : PlainValues (type.written (size.map (TypedExpr.erase ds))).literals) (ids : List DefId)
    (L : Layout) : PlainCalls (declarationCalls c L ids type size) := by
  unfold declarationCalls ValueType.written at *
  split
  · next harray =>
    rw [if_pos harray] at h
    cases size with
    | none => exact plainCalls_nil
    | some e =>
      have hinit : ∀ _ : DefId, PlainCode [.load (.slot L.slots), .newArray type.basic] :=
        fun _ => by simp [Instr.Plain]
      have hvariables := variablesCalls_plain hnames hinit ids L.takeSlot
      simp [sizeCalls, Instr.Plain, TypedExpr.code_plain e h, hvariables]
  · exact variablesCalls_plain hnames (fun _ => zeroCode_plain type) ids L

namespace TypedStmt

theorem callCalls_plain {args : List TypedExpr}
    (h : PlainValues (Expr.literalsAll (TypedExpr.eraseAll ds args))) (callee : DefId) (L : Layout) :
    PlainCalls (callCalls c L callee args) := by
  unfold callCalls
  split
  · simp [printCalls, TypedExpr.lineCode, Instr.Plain, TypedExpr.partsCode_plain h]
  · exact plainCalls_emits.mpr (TypedExpr.readsCode_plain h)
  · simp [Instr.Plain, TypedExpr.argsCode_plain _ args h]

mutual

/-- The commands of a statement use words for names, and push its literals. -/
theorem calls_plain (hnames : c.defs.Worded) (f : DefId) : ∀ (s : TypedStmt) (L : Layout),
    PlainValues (s.erase ds).literals → PlainCalls (s.calls c f L)
  | .declare ids _ _ _, L, h => declarationCalls_plain hnames h ids L
  | .callable _ _, _, _ => plainCalls_nil
  | .assign target value _, L, h => by
    obtain ⟨htarget, hvalue⟩ := plainValues_append.mp h
    exact plainCalls_emits.mpr (assignCode_plain htarget hvalue)
  | .ifThen cond yes _, L, h => by
    obtain ⟨hcond, hyes⟩ := plainValues_append.mp h
    have hyes := calls_plain hnames f yes L.takeLabel.takeLabel hyes
    simp [calls, Instr.Plain, TypedExpr.code_plain cond hcond, hyes]
  | .ifElse cond yes no _, L, h => by
    obtain ⟨hfront, hno⟩ := plainValues_append.mp h
    obtain ⟨hcond, hyes⟩ := plainValues_append.mp hfront
    have hyes := calls_plain hnames f yes L.takeLabel.takeLabel hyes
    have hno := calls_plain hnames f no (yes.layout c L.takeLabel.takeLabel) hno
    simp [calls, Instr.Plain, TypedExpr.code_plain cond hcond, hyes, hno]
  | .whileDo cond body _, L, h => by
    obtain ⟨hcond, hbody⟩ := plainValues_append.mp h
    have hbody := calls_plain hnames f body L.takeLabel.takeLabel hbody
    simp [calls, Instr.Plain, TypedExpr.code_plain cond hcond, hbody]
  | .call callee _ _, L, h => callCalls_plain h callee L
  | .ret none _, _, _ => by simp [calls, Instr.Plain]
  | .ret (some value) _, L, h => by
    have hvalue : PlainCode (value.codeAs c L.storage (c.defs.typeOf f)) :=
      TypedExpr.codeAs_plain h _
    simp [calls, Instr.Plain, hvalue]
  | .assert cond pos, L, h => by simp [calls, Instr.Plain, TypedExpr.code_plain cond h]
  | .block body, L, h => by
    simp [calls, callsIn_plain hnames f body L.beginScope h]

theorem callsIn_plain (hnames : c.defs.Worded) (f : DefId) : ∀ (ss : List TypedStmt) (L : Layout),
    PlainValues (Stmt.literalsAll (eraseIn ds ss)) → PlainCalls (callsIn c f L ss)
  | [], _, _ => plainCalls_nil
  | s :: ss, L, h => by
    obtain ⟨hs, hss⟩ := plainValues_append.mp h
    exact plainCalls_append.mpr ⟨calls_plain hnames f s L hs, callsIn_plain hnames f ss _ hss⟩

end

end TypedStmt

/-! ## Programs -/

theorem bodyCalls_plain (hnames : c.defs.Worded) {body : List TypedStmt}
    (h : PlainValues (Stmt.literalsAll (TypedStmt.eraseIn ds body))) (f : DefId) (L : Layout) :
    PlainCalls (bodyCalls c f L body) := by
  have hbody := TypedStmt.calls_plain hnames f (.block body) L h
  simp [bodyCalls, Instr.Plain, hbody]

theorem headingCall_plain (hnames : ds.Worded) (e : DefId × RoutineId) :
    (headingCall ds e).command.Plain :=
  ⟨hnames.nameOf e.1, List.forall_mem_map.mpr fun v _ => hnames.nameOf v⟩

/-- A program with plain literals is compiled to a plain module. -/
theorem Emitted.plain {p : TypedProgram} {g : Generated} {heads : List Call} {entry : RoutineId}
    {L : Layout} {rest : List (Layout × DefId × List TypedStmt)}
    (h : Emitted p g c heads entry L rest) (hnames : c.defs.Worded)
    (hvalues : PlainValues (Stmt.literalsAll (TypedStmt.eraseIn ds p.body))) : g.result.Plain := by
  have hheads : PlainCalls heads := by
    rw [h.headed.calls]
    exact List.forall_mem_map.mpr fun e _ => headingCall_plain hnames e
  have hconstants : ∀ id, PlainCode (constantCode c id) := fun id => by
    simp [constantCode, Instr.Plain]
  have hentry : PlainCalls (entryCalls c p L) :=
    plainCalls_append.mpr ⟨variablesCalls_plain hnames hconstants _ L,
      bodyCalls_plain hnames hvalues _ _⟩
  have hroutine : ∀ q ∈ rest, PlainCalls (routineCalls c q) := by
    intro q hq
    have hbody := plainValues_routinesIn p.body hvalues q.2 (h.queued q hq).1
    simp [routineCalls, bodyCalls_plain hnames hbody]
  have hrest : PlainCalls (rest.flatMap (routineCalls c)) := List.forall_mem_flatMap.mpr hroutine
  have hcalls : PlainCalls g.calls := by
    rw [h.calls]
    simp [hheads, hentry, hrest]
  obtain ⟨b, hanswers, hresult⟩ := h.answers
  have hbuilt : (Builder.empty.run (g.calls.map Call.command)).2 = b := congrArg Prod.snd hanswers
  rw [hresult, ← hbuilt]
  exact plain_run (List.forall_mem_map.mpr hcalls) ⟨List.forall_mem_nil _, List.forall_mem_nil _⟩

end Calls

end StackPascal
