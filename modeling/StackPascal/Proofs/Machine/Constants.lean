import StackPascal.Proofs.Machine.Assembly
import StackPascal.Proofs.Written

/-!
What the code of a program writes to the statics of the predefined constants.

* `changed`: the places that instructions store to, or whose addresses they
  push;
* `changed_code`: an expression changes the variables that it lends;
* `Layout.Marks`: the constants have the first statics, and nothing else has;
* `changes_calls`: so a statement changes the constants that it writes;
* `Emitted.routine_changes`: and a routine those that its body writes;
* `compile_constants`: a compiled module changes the constants that the program
  writes.
-/

namespace StackPascal

open Gen TypedExpr

/-! ## What instructions change -/

/-- The place that an instruction stores to, or whose address it pushes. -/
def Instr.changes? : Instr → Option Storage
  | store s | loadAddr s => some s
  | _ => none

def changed (is : List Instr) : List Storage := is.filterMap Instr.changes?

/-- Which of the first `k` statics it is, if it is one. -/
def Storage.among? (k : Nat) : Storage → Option Nat
  | static n => if n < k then some n else none
  | _ => none

/-- Which of the first `k` statics the instructions change, in order. -/
def changedStatics (k : Nat) (is : List Instr) : List Nat := (changed is).filterMap (Storage.among? k)

@[simp] theorem changed_nil : changed [] = [] := rfl

@[simp] theorem changed_append (is js : List Instr) : changed (is ++ js) = changed is ++ changed js :=
  List.filterMap_append

theorem changed_cons {i : Instr} (h : i.changes? = none) (is : List Instr) :
    changed (i :: is) = changed is :=
  List.filterMap_cons_none h

theorem changed_optional {i : Instr} (h : i.changes? = none) (needed : Bool) :
    changed (optional needed i) = [] := by
  cases needed with
  | false => rfl
  | true => exact changed_cons h []

theorem changedStatics_append (k : Nat) (is js : List Instr) :
    changedStatics k (is ++ js) = changedStatics k is ++ changedStatics k js := by
  unfold changedStatics
  rw [changed_append, List.filterMap_append]

/-! ## Expressions -/

section Expressions

variable (c : GenContext) (σ : Places)

@[simp] theorem changed_sign (info : ExprInfo) : changed (signCode info) = [] :=
  changed_optional rfl _

@[simp] theorem changed_widen (needed : Bool) : changed (optional needed .widen) = [] :=
  changed_optional rfl _

@[simp] theorem changed_variable (id : DefId) : changed (variableCode c σ id) = [] :=
  (changed_cons rfl _).trans (changed_optional rfl _)

theorem changed_literal (value : Literal) (is : List Instr) :
    changed (pushLiteral value :: is) = changed is := by
  cases value <;> rfl

theorem changed_addressOf (id : DefId) : changed [addressOf c σ id] = (c.defs.direct id).map σ.of := by
  unfold addressOf Defs.direct
  split <;> rfl

theorem changed_zero (type : ValueType) : changed (zeroCode type) = [] := by
  obtain ⟨basic, isArray⟩ := type
  cases isArray <;> cases basic <;> rfl

mutual

/-- An expression changes the variables that it lends. -/
theorem changed_code : ∀ e : TypedExpr, changed (e.code c σ) = (e.lent c.defs).map σ.of
  | .literal value info => by
    rw [code, lent, changed_literal, changed_sign]
    rfl
  | .binary op operand left right info => by
    simp only [code, lent, changed_append, changed_widen, List.nil_append, List.map_append,
      changed_code left, changed_code right]
    rw [changed_cons rfl, changed_sign, List.append_nil]
  | .not operand info => by
    rw [code, lent, changed_append, changed_cons rfl, changed_sign, List.append_nil,
      changed_code operand]
  | .call callee args info => by
    rw [code, lent, changed_append, changed_cons rfl, changed_sign, List.append_nil,
      changed_args _ args]
  | .size array info => by
    rw [code, lent, changed_append, changed_cons rfl, changed_sign, List.append_nil,
      changed_code array]
  | .name id info => by
    rw [code, lent, changed_append, changed_variable, changed_sign]
    rfl
  | .element id index info => by
    rw [code, lent, changed_append, changed_variable, changed_append, changed_cons rfl, changed_sign,
      List.append_nil, List.nil_append, changed_code index]
  | .bad _ => by
    rw [code, lent]
    rfl

theorem changed_address : ∀ e : TypedExpr,
    changed (e.addressCode c σ) = (e.lentAddress c.defs).map σ.of
  | .name id _ => by
    rw [addressCode, lentAddress, changed_addressOf]
  | .element id index _ => by
    rw [addressCode, lentAddress, changed_append, changed_variable, changed_append, changed_cons rfl,
      changed_nil, List.append_nil, List.nil_append, changed_code index]
  | .literal _ _ => rfl
  | .binary _ _ _ _ _ => rfl
  | .not _ _ => rfl
  | .call _ _ _ => rfl
  | .size _ _ => rfl
  | .bad _ => rfl

theorem changed_args : ∀ (params : List DefId) (args : List TypedExpr),
    changed (argsCode c σ params args) = (lentArgs c.defs params args).map σ.of
  | [], [] => by rw [argsCode.eq_def, lentArgs.eq_def]; rfl
  | [], _ :: _ => by rw [argsCode.eq_def, lentArgs.eq_def]; rfl
  | _ :: _, [] => by rw [argsCode.eq_def, lentArgs.eq_def]; rfl
  | param :: params, arg :: args => by
    rw [argsCode, lentArgs, changed_append, List.map_append, changed_args params args]
    split
    · rw [changed_address arg]
    · rw [changed_append, changed_widen, List.append_nil, changed_code arg]

end

theorem changed_codeAs (e : TypedExpr) (target : ValueType) :
    changed (e.codeAs c σ target) = (e.lent c.defs).map σ.of := by
  rw [codeAs, changed_append, changed_widen, List.append_nil, changed_code]

theorem changed_parts (array : Storage) : ∀ (args : List TypedExpr) (i : Nat),
    changed (partsCode c σ array i args) = (args.flatMap (lent c.defs)).map σ.of
  | [], _ => rfl
  | arg :: args, i => by
    rw [partsCode, changed_cons rfl, changed_cons rfl, changed_append, changed_cons rfl,
      changed_cons rfl, changed_code, changed_parts array args, List.flatMap_cons, List.map_append]

theorem changed_line (array : Storage) (args : List TypedExpr) :
    changed (lineCode c σ array args) = (args.flatMap (lent c.defs)).map σ.of := by
  rw [lineCode, changed_append, changed_parts]
  exact List.append_nil _

theorem changed_reads (args : List TypedExpr) :
    changed (readsCode c σ args) = (args.flatMap (lentAddress c.defs)).map σ.of := by
  induction args with
  | nil => rfl
  | cons arg args ih =>
    rw [readsCode, changed_append, changed_cons rfl, changed_append, changed_optional rfl,
      changed_cons rfl, ih, changed_address, List.flatMap_cons, List.map_append, List.nil_append]

theorem changed_assign (target : Place) (value : TypedExpr) :
    changed (target.assignCode c σ value) = (target.written c.defs value).map σ.of := by
  cases target with
  | name id =>
    rw [Place.assignCode, Place.written, Defs.direct]
    split
    · rw [changed_cons rfl, changed_append, changed_codeAs, List.append_nil]
      exact List.append_nil _
    · rw [changed_append, changed_codeAs, List.map_append]
      rfl
  | element id index =>
    rw [Place.assignCode, Place.written, changed_append, changed_variable, changed_append,
      changed_code, changed_append, changed_codeAs, List.nil_append, List.map_append]
    exact congrArg _ (List.append_nil _)

end Expressions

/-! ## The statics of the constants -/

/-- The first statics are those of the constants, and no other variable is in
one of them. -/
structure Layout.Marks (c : GenContext) (L : Layout) : Prop where
  statics : c.defs.constants.length ≤ L.statics
  place : ∀ id, (L.storage.of id).among? c.defs.constants.length = c.defs.constantIndex id

/-- Which constants the commands change, in order. -/
def constantsChanged (c : GenContext) (cs : List Call) : List Nat :=
  changedStatics c.defs.constants.length (instrs cs)

theorem constantsChanged_append (c : GenContext) (cs ds : List Call) :
    constantsChanged c (cs ++ ds) = constantsChanged c cs ++ constantsChanged c ds := by
  unfold constantsChanged
  rw [instrs_append, changedStatics_append]

/-- Storing to a place of no constant changes none. -/
theorem constantsChanged_store {c : GenContext} {is : List Instr} {s : Storage}
    (hi : changed is = []) (hs : s.among? c.defs.constants.length = none) :
    constantsChanged c (emits (is ++ [.store s])) = [] := by
  unfold constantsChanged changedStatics
  rw [instrs_emits, changed_append, hi]
  exact List.filterMap_cons_none hs

namespace Layout.Marks

variable {c : GenContext} {f : DefId} {L : Layout}

theorem congr (h : L.Marks c) {L' : Layout} (hstorage : L'.storage = L.storage)
    (hstatics : L.statics ≤ L'.statics) : L'.Marks c where
  statics := Nat.le_trans h.statics hstatics
  place id := hstorage ▸ h.place id

theorem bind (h : L.Marks c) {id : DefId} {s : Storage} (hid : id ∉ c.defs.constants)
    (hs : s.among? c.defs.constants.length = none) : (L.bind id s).Marks c where
  statics := h.statics
  place v := by
    unfold Layout.bind Places.of
    by_cases hv : v = id
    · rw [hv, List.lookup_cons, beq_self_eq_true, Defs.constantIndex_of_not_mem hid]
      exact hs
    · rw [lookup_cons_other hv]
      exact h.place v

/-- A new place is none of a constant. -/
theorem newPlace (h : L.Marks c) (id : DefId) :
    (L.newPlace c id).among? c.defs.constants.length = none := by
  unfold Layout.newPlace
  split
  · exact if_neg (Nat.not_lt.mpr h.statics)
  · rfl

theorem takeStatic (h : L.Marks c) : L.takeStatic.Marks c := h.congr rfl (Nat.le_succ _)

theorem takeSlot (h : L.Marks c) : L.takeSlot.Marks c := h.congr rfl (Nat.le_refl _)

theorem reserve (h : L.Marks c) {id : DefId} (hid : id ∉ c.defs.constants) :
    (L.reserve c id).Marks c := by
  have hplace := h.newPlace id
  unfold Layout.reserve
  split
  · exact h.takeStatic.bind hid hplace
  · exact h.takeSlot.bind hid hplace

theorem reserveAll : ∀ {ids : List DefId} {L : Layout}, L.Marks c →
    (∀ id ∈ ids, id ∉ c.defs.constants) → (L.reserveAll c ids).Marks c
  | [], _, h, _ => h
  | id :: _, _, h, hids =>
    (h.reserve (hids id (List.mem_cons_self ..))).reserveAll fun v hv =>
      hids v (List.mem_cons_of_mem _ hv)

theorem takeLabels (h : L.Marks c) : L.takeLabel.takeLabel.Marks c := h.congr rfl (Nat.le_refl _)

theorem beginScope (h : L.Marks c) : L.beginScope.Marks c := h.congr rfl (Nat.le_refl _)

theorem endScope (h : L.Marks c) : L.endScope.Marks c := by
  unfold Layout.endScope
  split
  · exact h
  · exact h.congr rfl (Nat.le_refl _)

theorem bindParams : ∀ {params : List DefId} {L : Layout} (i : Nat), L.Marks c →
    (∀ v ∈ params, v ∉ c.defs.constants) → (L.bindParams i params).Marks c
  | [], _, _, h, _ => h
  | param :: _, _, i, h, hparams =>
    (h.bind (s := .arg i) (hparams param (List.mem_cons_self ..)) rfl).bindParams (i + 1) fun v hv =>
      hparams v (List.mem_cons_of_mem _ hv)

mutual

/-- A statement declares no constants. -/
theorem layout {Δ : List DefId} : ∀ (s : TypedStmt) {L : Layout},
    s.Obeys (c.defs.closedRules f) Δ → L.Marks c → (s.layout c L).Marks c
  | .declare ids type _ _, L, hs, h => by
    have hbase : (if type.isArray then L.takeSlot else L).Marks c := by
      split
      · exact h.takeSlot
      · exact h
    exact hbase.reserveAll fun id hid => (hs.2 id hid).2.not_constant
  | .callable _ _, _, _, h => h.congr rfl (Nat.le_refl _)
  | .ifThen _ yes _, _, hs, h => layout yes hs.2 h.takeLabels
  | .ifElse _ yes no _, _, hs, h => layout no hs.2.2 (layout yes hs.2.1 h.takeLabels)
  | .whileDo _ body _, _, hs, h => layout body hs.2 h.takeLabels
  | .block body, _, hs, h => by
    rw [TypedStmt.layout]
    exact (layoutIn body hs h.beginScope).endScope
  | .assign _ _ _, _, _, h => h
  | .call _ _ _, _, _, h => h
  | .ret _ _, _, _, h => h
  | .assert _ _, _, _, h => h

theorem layoutIn {Δ : List DefId} : ∀ (ss : List TypedStmt) {L : Layout},
    TypedStmt.ObeyIn (c.defs.closedRules f) Δ ss → L.Marks c → (TypedStmt.layoutIn c L ss).Marks c
  | [], _, _, h => h
  | s :: ss, _, hs, h => layoutIn ss hs.2 (layout s hs.1 h)

end

/-! ## Statements -/

/-- Changes of variables are changes of the constants among them. -/
theorem changes (h : L.Marks c) {is : List Instr} {ids : List DefId}
    (hi : changed is = ids.map L.storage.of) :
    constantsChanged c (emits is) = c.defs.constantsAmong ids := by
  unfold constantsChanged changedStatics Defs.constantsAmong
  rw [instrs_emits, hi, List.filterMap_map]
  exact List.filterMap_congr fun id _ => h.place id

/-- The same with an instruction after them that changes nothing. -/
theorem changes_last (h : L.Marks c) {is : List Instr} {ids : List DefId} {i : Instr}
    (hi : changed is = ids.map L.storage.of) (hlast : i.changes? = none) :
    constantsChanged c (emits (is ++ [i])) = c.defs.constantsAmong ids :=
  h.changes (by rw [changed_append, hi, changed_cons hlast, changed_nil, List.append_nil])

theorem changes_variables {init : DefId → List Instr} (hi : ∀ id, changed (init id) = []) :
    ∀ {ids : List DefId} {L : Layout}, L.Marks c → (∀ id ∈ ids, id ∉ c.defs.constants) →
    constantsChanged c (variablesCalls c init L ids) = []
  | [], _, _, _ => rfl
  | id :: ids, L, h, hids => by
    have hrest := changes_variables hi (h.reserve (hids id (List.mem_cons_self ..)))
      fun v hv => hids v (List.mem_cons_of_mem _ hv)
    have hset := constantsChanged_store (hi id) (h.newPlace id)
    have hcall : constantsChanged c [L.reserveCall c id] = [] := by
      unfold Layout.reserveCall
      split <;> rfl
    rw [variablesCalls, ← List.singleton_append, constantsChanged_append, constantsChanged_append,
      hcall, hset, hrest]
    rfl

theorem changes_declaration (h : L.Marks c) {ids : List DefId} {type : ValueType}
    {size : Option TypedExpr} {pos : Position} (hids : ∀ id ∈ ids, id ∉ c.defs.constants) :
    constantsChanged c (declarationCalls c L ids type size) =
      c.defs.constantsAmong ((TypedStmt.declare ids type size pos).written c.defs) := by
  unfold declarationCalls
  rw [TypedStmt.written]
  split
  · cases size with
    | none => rfl
    | some e =>
      have hsize : constantsChanged c (sizeCalls c L e) = c.defs.constantsAmong (e.lent c.defs) := by
        have hcode := h.changes (changed_code c L.storage e)
        rw [sizeCalls, constantsChanged_append, hcode]
        exact List.append_nil _
      have hvars : constantsChanged c (variablesCalls c (fun _ => [.load (.slot L.slots),
          .newArray type.basic]) L.takeSlot ids) = [] :=
        changes_variables (fun _ => rfl) h.takeSlot hids
      dsimp only
      rw [constantsChanged_append, hsize, hvars, List.append_nil, Option.toList_some,
        List.flatMap_singleton]
  · exact changes_variables (fun _ => changed_zero type) h hids

theorem changes_print (h : L.Marks c) (args : List TypedExpr) :
    constantsChanged c (TypedStmt.printCalls c L args) =
      c.defs.constantsAmong (args.flatMap (TypedExpr.lent c.defs)) := by
  have hline := h.changes (changed_line c L.storage (.slot L.slots) args)
  show constantsChanged c (emits ([.pushInt args.length, .newArray .string] ++
    [.store (.slot L.slots)]) ++ (emits (lineCode c L.storage (.slot L.slots) args) ++ _)) = _
  rw [constantsChanged_append, constantsChanged_append, hline, constantsChanged_store rfl rfl]
  exact List.append_nil _

theorem changes_call (h : L.Marks c) (callee : DefId) (args : List TypedExpr) :
    constantsChanged c (TypedStmt.callCalls c L callee args) =
      c.defs.constantsAmong (TypedStmt.writtenByCall c.defs callee args) := by
  unfold TypedStmt.callCalls TypedStmt.writtenByCall
  cases (c.defs.callable? callee).bind CallableInfo.intrinsic with
  | none => exact h.changes_last (changed_args c L.storage _ args) rfl
  | some i =>
    cases i with
    | print => exact h.changes_print args
    | read => exact h.changes (changed_reads c L.storage args)

mutual

/-- A statement changes the constants that it writes, and no others. -/
theorem changes_calls {Δ : List DefId} : ∀ (s : TypedStmt) {L : Layout},
    s.Obeys (c.defs.closedRules f) Δ → L.Marks c →
    constantsChanged c (s.calls c f L) = c.defs.constantsAmong (s.written c.defs)
  | .declare _ _ _ _, _, hs, h =>
    h.changes_declaration fun id hid => (hs.2 id hid).2.not_constant
  | .callable _ _, _, _, _ => by
    rw [TypedStmt.calls, TypedStmt.written]
    rfl
  | .assign target value _, L, _, h => by
    rw [TypedStmt.calls, TypedStmt.written]
    exact h.changes (changed_assign c L.storage target value)
  | .ifThen cond yes _, L, hs, h => by
    have hcond := h.changes_last (i := .jumpIfFalse ⟨L.labels⟩) (changed_code c L.storage cond) rfl
    have hyes := changes_calls yes hs.2 h.takeLabels
    rw [TypedStmt.calls, TypedStmt.written]
    show constantsChanged c (emits _ ++ (_ ++ emits _)) = _
    rw [constantsChanged_append, constantsChanged_append, hcond, hyes, Defs.constantsAmong_append]
    exact congrArg _ (List.append_nil _)
  | .ifElse cond yes no _, L, hs, h => by
    have hcond := h.changes_last (i := .jumpIfFalse ⟨L.labels⟩) (changed_code c L.storage cond) rfl
    have hyes := changes_calls yes hs.2.1 h.takeLabels
    have hno := changes_calls no hs.2.2 (layout yes hs.2.1 h.takeLabels)
    rw [TypedStmt.calls, TypedStmt.written]
    show constantsChanged c (emits _ ++ (_ ++ (emits _ ++ (_ ++ emits _)))) = _
    simp only [constantsChanged_append, Defs.constantsAmong_append]
    rw [hcond, hyes, hno]
    exact congrArg _ (congrArg _ (List.append_nil _))
  | .whileDo cond body _, L, hs, h => by
    have hbody := changes_calls body hs.2 h.takeLabels
    have hcond := (layout body hs.2 h.takeLabels).changes_last (i := .jumpIfTrue ⟨L.labels⟩)
      (changed_code c _ cond) rfl
    rw [TypedStmt.calls, TypedStmt.written]
    show constantsChanged c (emits _ ++ (_ ++ emits ([.label _] ++ (_ ++ [_])))) = _
    rw [emits_append]
    simp only [constantsChanged_append, Defs.constantsAmong_append]
    rw [hbody, hcond]
    rfl
  | .call callee args _, _, _, h => by
    rw [TypedStmt.calls, TypedStmt.written]
    exact h.changes_call callee args
  | .ret none _, _, _, _ => by
    rw [TypedStmt.calls, TypedStmt.written]
    rfl
  | .ret (some value) _, L, _, h => by
    rw [TypedStmt.calls, TypedStmt.written, Option.toList_some, List.flatMap_singleton]
    exact h.changes_last (changed_codeAs c L.storage value _) rfl
  | .assert cond _, L, _, h => by
    rw [TypedStmt.calls, TypedStmt.written]
    exact h.changes_last (changed_code c L.storage cond) rfl
  | .block body, _, hs, h => by
    have hbody := changes_callsIn body hs h.beginScope
    rw [TypedStmt.calls, TypedStmt.written, ← hbody]
    show constantsChanged c (_ ++ [⟨.endScope, .done⟩]) = _
    rw [constantsChanged_append]
    exact List.append_nil _

theorem changes_callsIn {Δ : List DefId} : ∀ (ss : List TypedStmt) {L : Layout},
    TypedStmt.ObeyIn (c.defs.closedRules f) Δ ss → L.Marks c →
    constantsChanged c (TypedStmt.callsIn c f L ss) =
      c.defs.constantsAmong (TypedStmt.writtenIn c.defs ss)
  | [], _, _, _ => by
    rw [TypedStmt.callsIn, TypedStmt.writtenIn]
    rfl
  | s :: ss, _, hs, h => by
    rw [TypedStmt.callsIn, TypedStmt.writtenIn, constantsChanged_append, Defs.constantsAmong_append,
      changes_calls s hs.1 h, changes_callsIn ss hs.2 (layout s hs.1 h)]

end

end Layout.Marks

/-! ## Routines -/

/-- The entry stores the constants in their statics. -/
def constantsSetUp : List Instr :=
  [.pushBool true, .store (.static 0), .pushBool false, .store (.static 1)]

section Routines

variable {c : GenContext} {L : Layout}

theorem Layout.Marks.changes_body (h : L.Marks c) {r : DefId × List TypedStmt}
    (hs : TypedStmt.ObeyIn (c.defs.closedRules r.1) (c.defs.atHand r.1) r.2) :
    constantsChanged c (bodyCalls c r.1 L r.2) =
      c.defs.constantsAmong (TypedStmt.writtenIn c.defs r.2) := by
  have hblock := h.changes_calls (f := r.1) (.block r.2) hs
  rw [TypedStmt.written] at hblock
  have hend : constantsChanged c (emits (zeroCode (c.defs.typeOf r.1) ++ [.ret])) = [] := by
    unfold constantsChanged changedStatics
    rw [instrs_emits, changed_append, changed_zero]
    rfl
  rw [bodyCalls, constantsChanged_append, hblock, hend, List.append_nil]

/-- Bodies that have been put off find the constants where they were. -/
theorem marks_queue {p : TypedProgram} (hp : Prepared c.defs p) : ∀ (n : Nat) {L : Layout},
    L.Marks c → (∀ q ∈ queue c n L, q.2 ∈ p.routines) → ∀ q ∈ queue c n L, q.1.Marks c
  | 0, _, _, _ => nofun
  | n + 1, L, h, hin => by
    unfold queue at hin ⊢
    split at hin
    · exact nofun
    · next f body rest _ =>
      obtain ⟨hfirst, hrest⟩ := List.forall_mem_cons.mp hin
      have hstart : ({ L with pending := rest }.enter c f).Marks c := by
        have hbase : Layout.Marks c { L with pending := rest } := h.congr rfl (Nat.le_refl _)
        exact (hbase.bindParams 0 (hp.params _ hfirst)).congr rfl (Nat.le_refl _)
      have hbody := hstart.layout (.block body) (hp.closed _ hfirst)
      exact List.forall_mem_cons.mpr ⟨hstart, marks_queue hp n hbody hrest⟩

variable {t f : DefId} (hc : c.defs.constants = [t, f])
include hc

/-- The two constants get the first two statics. -/
theorem constants_setUp (hnames : c.defs.constants.map c.defs.nameOf = ["true", "false"])
    (hstatics : L.statics = 0) :
    instrs (variablesCalls c (constantCode c) L c.defs.constants) = constantsSetUp := by
  have hglobal : ∀ id ∈ c.defs.constants, c.defs.isGlobal id = true := fun id hid =>
    (Defs.global_of_constant hid).1
  rw [hc] at hglobal hnames ⊢
  obtain ⟨ht, hf⟩ : c.defs.isGlobal t = true ∧ c.defs.isGlobal f = true := by simpa using hglobal
  obtain ⟨htrue, hfalse⟩ : c.defs.nameOf t = "true" ∧ c.defs.nameOf f = "false" := by
    simpa using hnames
  simp [variablesCalls, constantCode, Layout.reserveCall, Layout.newPlace, Layout.reserve,
    Layout.takeStatic, Layout.bind, instrs, constantsSetUp, ht, hf, htrue, hfalse, hstatics]

/-- From then on the first two statics are theirs. -/
theorem marks_setUp (hne : t ≠ f) (hfresh : L.storage = [] ∧ L.statics = 0) :
    (L.reserveAll c c.defs.constants).Marks c := by
  have hglobal : ∀ id ∈ c.defs.constants, c.defs.isGlobal id = true := fun id hid =>
    (Defs.global_of_constant hid).1
  rw [hc] at hglobal
  obtain ⟨ht, hf⟩ : c.defs.isGlobal t = true ∧ c.defs.isGlobal f = true := by simpa using hglobal
  have hlayout : L.reserveAll c [t, f] =
      (L.takeStatic.bind t (.static 0)).takeStatic.bind f (.static 1) := by
    simp [Layout.reserveAll, Layout.reserve, Layout.newPlace, ht, hf, hfresh.2, Layout.takeStatic,
      Layout.bind]
  constructor
  · rw [hc, hlayout]
    exact Nat.le_add_left 2 L.statics
  · intro id
    have hplaces : ((L.takeStatic.bind t (.static 0)).takeStatic.bind f (.static 1)).storage =
        [(f, .static 1), (t, .static 0)] := by
      simp only [Layout.bind, Layout.takeStatic, hfresh.1]
    rw [hc, hlayout, hplaces]
    unfold Defs.constantIndex Places.of
    rw [hc]
    by_cases hid : id = f
    · subst hid
      simp [List.idxOf?_cons, hne, Storage.among?]
    · by_cases hid' : id = t
      · subst hid'
        simp [List.lookup_cons, List.idxOf?_cons, beq_false_of_ne hid, Storage.among?]
      · simp [List.lookup_cons, List.idxOf?_cons, beq_false_of_ne hid, beq_false_of_ne hid',
          Ne.symm hid, Ne.symm hid', Storage.among?]

end Routines

/-- The routine of a callable: the entry sets up the constants, and the rest of
the code changes the constants that the body writes, in the same order. -/
def Routine.ChangesConstantsOf (m : CodeModule) (ds : Defs) (r : DefId × List TypedStmt)
    (routine : Routine) : Prop :=
  routine.name = ds.nameOf r.1 ∧ ∃ rest,
    routine.code = (if m.entry = some routine.id then constantsSetUp else []) ++ rest ∧
      changedStatics 2 rest = ds.constantsAmong (TypedStmt.writtenIn ds r.2)

namespace Emitted

variable {p : TypedProgram} {g : Generated} {c : GenContext} {heads : List Call} {entry : RoutineId}
  {L : Layout} {rest : List (Layout × DefId × List TypedStmt)} {t f : DefId}

/-- A routine changes the constants that the body of its callable writes. -/
theorem routine_changes (h : Emitted p g c heads entry L rest) (hp : Prepared c.defs p)
    (hc : c.defs.constants = [t, f]) (hne : t ≠ f)
    (hnames : c.defs.constants.map c.defs.nameOf = ["true", "false"]) {i : Nat}
    {r : DefId × List TypedStmt} (hr : p.routines[i]? = some r) :
    ∃ routine, g.result.routines[i]? = some routine ∧
      routine.ChangesConstantsOf g.result c.defs r := by
  have hmarks := marks_setUp hc hne h.fresh
  have hlength : c.defs.constants.length = 2 := congrArg List.length hc
  have hclosed := hp.closed r (List.mem_of_getElem? hr)
  cases i with
  | zero =>
    cases Option.some.inj hr
    have hb : (c.routine p.main, entryCalls c p L) ∈ bodies g.calls := by
      rw [h.bodies_eq, GenContext.routine, h.main, Option.getD_some]
      exact List.mem_cons_self ..
    obtain ⟨routine, hroutine, hid, hname, hcode⟩ := h.code_of hp hr hb
    refine ⟨routine, hroutine, hname,
      instrs (bodyCalls c p.main (L.reserveAll c c.defs.constants) p.body), ?_, ?_⟩
    · rw [hcode, hid, h.entry_eq, h.entry_first hp, if_pos rfl, entryCalls, instrs_append,
        constants_setUp hc hnames h.fresh.2]
    · rw [← hlength]
      exact hmarks.changes_body hclosed
  | succ i =>
    have hmem : r ∈ TypedStmt.routinesIn p.body := List.mem_of_getElem? hr
    obtain ⟨q, hq, rfl⟩ := List.mem_map.mp (h.reached.mem_iff.mpr hmem)
    have hb : (c.routine q.2.1, bodyCalls c q.2.1 q.1 q.2.2) ∈ bodies g.calls := by
      rw [h.bodies_eq]
      exact List.mem_cons_of_mem _ (List.mem_map.mpr ⟨q, hq, rfl⟩)
    obtain ⟨routine, hroutine, hid, hname, hcode⟩ := h.code_of hp hr hb
    have hbody := hmarks.layout (.block p.body) (hp.closed (p.main, p.body) (List.mem_cons_self ..))
    have hstart : q.1.Marks c := by
      refine marks_queue hp _ hbody (fun q hq => ?_) q (h.queue_eq ▸ hq)
      exact List.mem_cons_of_mem _ (h.queued q (h.queue_eq ▸ hq)).1
    refine ⟨routine, hroutine, hname, routine.code, ?_, ?_⟩
    · rw [hid, h.entry_eq, h.entry_first hp, if_neg (by simp), List.nil_append]
    · rw [← hlength, hcode]
      exact hstart.changes_body hclosed

end Emitted

/-- What the lifted program makes of a callable is the same in the program as it
was written. -/
theorem Routine.ChangesConstantsOf.unlift {outer : DefId → List DefId} {a : Analysis} {m : CodeModule}
    {routine : Routine} (h : a.Sound outer) (ht : a.Typed) {r : DefId × List TypedStmt}
    (hr : r ∈ a.program.routines)
    (hchanges : routine.ChangesConstantsOf m a.lift.defs (r.1, a.context.liftStmts r.1 r.2)) :
    routine.ChangesConstantsOf m a.defs r := by
  obtain ⟨info, hi, _⟩ := h.routine r hr
  obtain ⟨hname, rest, hcode, hstatics⟩ := hchanges
  refine ⟨hname.trans (h.extended.nameOf (Defs.lt_size_of_callable? (by rw [hi]; rfl))), rest, hcode, ?_⟩
  rw [hstatics, h.constantsAmong_lift, h.written_lift ht.bodies hr]

/-- The constants of a compiled program are `true` and `false`. Its module sets
them up first, and after that changes those, and only those, that the program
assigns to, reads into, or passes to reference parameters. -/
theorem compile_constants {text : String} {m : CodeModule} (h : compile text = .ok m) :
    ∃ a, analysisOf text = some a ∧ a.defs.constants.map a.defs.nameOf = ["true", "false"] ∧
      m.routines.length = a.program.routines.length ∧
      ∀ (i : Nat) (r : DefId × List TypedStmt), a.program.routines[i]? = some r →
        ∃ routine, m.routines[i]? = some routine ∧ routine.ChangesConstantsOf m a.defs r := by
  obtain ⟨q, c, heads, entry, L, rest, ha, hdefs, hp, hemitted, rfl⟩ := compiled_spec h
  obtain ⟨a, outer, ha', hsound, htyped⟩ := compiled_typed h
  cases Option.some.inj (ha.symm.trans ha')
  have hpair : c.defs.constants = [trueId, falseId] := by
    rw [hdefs, hsound.constants_lift, hsound.constants_eq_pair]
  have hnames : c.defs.constants.map c.defs.nameOf = ["true", "false"] := by
    rw [hdefs, hsound.names_lift]
  refine ⟨q.analyze, ha, hsound.names_constants, ?_, fun i r hr => ?_⟩
  · have hids := congrArg List.length hemitted.ids_eq
    have hkeys := congrArg List.length (hemitted.keys_eq hp)
    rw [List.length_map, List.length_map] at hids hkeys
    rw [hids, hkeys, Analysis.lift_routines, List.length_map]
  · have hlifted : q.analyze.lift.program.routines[i]? =
        some (r.1, q.analyze.context.liftStmts r.1 r.2) := by
      rw [Analysis.lift_routines, List.getElem?_map, hr]
      rfl
    obtain ⟨routine, hroutine, hchanges⟩ :=
      hemitted.routine_changes hp hpair (by decide) hnames hlifted
    rw [hdefs] at hchanges
    exact ⟨routine, hroutine, hchanges.unlift hsound htyped (List.mem_of_getElem? hr)⟩

/-- A constant that is passed to a reference parameter, and read into. -/
theorem compile_constants_lent :
    let text := "program p; begin procedure q(var b : bool) begin b := not b end; q(true); read(false) end."
    ∃ m, compile text = .ok m ∧
      ∃ a, analysisOf text = some a ∧ a.defs.constants.map a.defs.nameOf = ["true", "false"] ∧
        m.routines.length = a.program.routines.length ∧
        ∀ (i : Nat) (r : DefId × List TypedStmt), a.program.routines[i]? = some r →
          ∃ routine, m.routines[i]? = some routine ∧ routine.ChangesConstantsOf m a.defs r := by
  intro text
  have hok : (compile text).isOk = true := by decide +kernel
  obtain ⟨m, hm⟩ := compiled_of_isOk hok
  exact ⟨m, hm, compile_constants hm⟩

/-- The constants are not protected: `true` is set to `false` like any other
variable. -/
theorem compile_constant_assigned :
    let text := "program p; begin true := false end."
    ∃ m ∈ (compile text).toOption, ∃ r ∈ m.routines, m.entry = some r.id ∧
      r.code = constantsSetUp ++ [.load (.static 1), .store (.static 0), .ret] := by
  decide +kernel

end StackPascal
