import StackPascal.Proofs.Code.Listing
import StackPascal.Proofs.Typing

/-!
Generation gives the code that is written down for a tree.

It fails on none of the trees that are well typed and name only what has
storage or a routine.

* `Serves`: what a tree names is there;
* `runs_genExpr`: the code of an expression;
* `runs_genStmt`: the commands of a statement.
-/

namespace StackPascal

open Gen TypedExpr

/-- The variable has a place, the callable a routine unless it is predefined. -/
def Serves (c : GenContext) (σ : Places) : Use → Prop
  | .place id => (σ.lookup id).isSome
  | .callee g => ∀ info, c.defs.callable? g = some info → info.intrinsic = none →
      (c.routines.lookup g).isSome

/-! ## Expressions -/

namespace Gen

variable {c : GenContext} {L : Layout}

theorem runs_emitIf (needed : Bool) (i : Instr) :
    Runs (emitIf needed i) L () (emits (optional needed i)) L := by
  cases needed with
  | false => exact .pure
  | true => exact runs_emit i

theorem runs_genSign (info : ExprInfo) : Runs (genSign info) L () (emits (signCode info)) L :=
  runs_emitIf _ _

theorem runs_loadVariable {id : DefId} (h : (L.storage.lookup id).isSome) :
    Runs (loadVariable c id) L () (emits (variableCode c L.storage id)) L :=
  ((runs_storageOf h).bind ((runs_emit _).bind (runs_emitIf _ _))).cast rfl rfl

theorem runs_loadAddress {id : DefId} (h : (L.storage.lookup id).isSome) :
    Runs (loadAddress c id) L () (emits [addressOf c L.storage id]) L :=
  (runs_storageOf h).bind (runs_emit _)

theorem runs_genZero (type : ValueType) : Runs (genZero type) L () (emits (zeroCode type)) L := by
  obtain ⟨basic, isArray⟩ := type
  cases isArray with
  | true => exact (runs_emit _).bind (runs_emit _)
  | false =>
    cases basic with
    | void => exact .pure
    | _ => exact runs_emit _

theorem runs_planCall {g : DefId} {info : CallableInfo} {given : Nat}
    (hg : c.defs.callable? g = some info) (hn : info.intrinsic = none)
    (hs : Serves c L.storage (.callee g)) (hlen : info.params.length = given) :
    Runs (planCall c g given) L (.routine (c.routine g) (c.defs.paramsOf g)) [] L := by
  obtain ⟨f, hf⟩ := Option.isSome_iff_exists.mp (hs info hg hn)
  unfold planCall
  simp only [hg, hn, hlen, if_true]
  rw [Defs.paramsOf_eq hg]
  unfold GenContext.routine
  rw [hf]
  exact (runs_routineOf hf).bind .pure

mutual

/-- The code of an expression, and nothing else, is emitted. -/
theorem runs_genExpr (c : GenContext) (L : Layout) : ∀ e : TypedExpr,
    (∀ u ∈ e.uses, Serves c L.storage u) → e.WellTyped c.defs →
    Runs (genExpr c e) L () (emits (e.code c L.storage)) L
  | .literal value info, _, _ => by
    unfold genExpr
    exact ((runs_emit _).bind (runs_genSign info)).cast rfl rfl
  | .binary op operand left right info, hu, ⟨hl, hr, _⟩ => by
    have left_runs := runs_genExpr c L left (fun u hm => hu u (List.mem_append_left _ hm)) hl
    have right_runs := runs_genExpr c L right (fun u hm => hu u (List.mem_append_right _ hm)) hr
    unfold genExpr
    refine (left_runs.bind ((runs_emitIf _ _).bind (right_runs.bind ((runs_emitIf _ _).bind
      ((runs_emit _).bind (runs_genSign info)))))).cast ?_ rfl
    simp [code]
  | .not operand info, hu, ⟨he, _⟩ => by
    unfold genExpr
    refine ((runs_genExpr c L operand hu he).bind ((runs_emit _).bind (runs_genSign info))).cast ?_ rfl
    simp [code]
  | .call callee args info, hu, ⟨i, hg, hn, ha, _⟩ => by
    have hplan := runs_planCall hg hn (hu (.callee callee) (List.mem_cons_self ..))
      ha.length_eq
    have hargs := runs_genArgs c L (c.defs.paramsOf callee) args
      (fun u hm => hu u (List.mem_cons_of_mem _ hm)) (by rw [Defs.paramsOf_eq hg]; exact ha)
    unfold genExpr
    refine (hplan.bind (Runs.bind (k := fun _ => genSign info) (hargs.bind (runs_emit _))
      (runs_genSign info))).cast ?_ rfl
    simp [code]
  | .size array info, hu, ⟨he, _⟩ => by
    unfold genExpr
    refine ((runs_genExpr c L array hu he).bind ((runs_emit _).bind (runs_genSign info))).cast ?_ rfl
    simp [code]
  | .name id info, hu, _ => by
    unfold genExpr
    refine ((runs_loadVariable (hu (.place id) (List.mem_cons_self ..))).bind
      (runs_genSign info)).cast ?_ rfl
    simp [code]
  | .element id index info, hu, ⟨_, he, _⟩ => by
    have hindex := runs_genExpr c L index (fun u hm => hu u (List.mem_cons_of_mem _ hm)) he
    unfold genExpr
    refine ((runs_loadVariable (hu (.place id) (List.mem_cons_self ..))).bind (hindex.bind
      ((runs_emit _).bind (runs_genSign info)))).cast ?_ rfl
    simp [code]
  | .bad _, _, h => h.elim

theorem runs_genAddress (c : GenContext) (L : Layout) : ∀ e : TypedExpr,
    (∀ u ∈ e.uses, Serves c L.storage u) → e.WellTyped c.defs → e.isVariable = true →
    Runs (genAddress c e) L () (emits (e.addressCode c L.storage)) L
  | .name id _, hu, _, _ => by
    unfold genAddress
    exact runs_loadAddress (hu (.place id) (List.mem_cons_self ..))
  | .element id index _, hu, ⟨_, he, _⟩, _ => by
    have hindex := runs_genExpr c L index (fun u hm => hu u (List.mem_cons_of_mem _ hm)) he
    unfold genAddress
    refine ((runs_loadVariable (hu (.place id) (List.mem_cons_self ..))).bind
      (hindex.bind (runs_emit _))).cast ?_ rfl
    simp [addressCode]
  | .literal _ _, _, _, hv => by simp [isVariable, isPlace] at hv
  | .binary _ _ _ _ _, _, _, hv => by simp [isVariable, isPlace] at hv
  | .not _ _, _, _, hv => by simp [isVariable, isPlace] at hv
  | .call _ _ _, _, _, hv => by simp [isVariable, isPlace] at hv
  | .size _ _, _, _, hv => by simp [isVariable, isPlace] at hv
  | .bad _, _, _, hv => by simp [isVariable, isPlace] at hv

theorem runs_genArgs (c : GenContext) (L : Layout) : ∀ (params : List DefId) (args : List TypedExpr),
    (∀ u ∈ usesAll args, Serves c L.storage u) → WellTypedArgs c.defs params args →
    Runs (genArgs c params args) L () (emits (argsCode c L.storage params args)) L
  | [], [], _, _ => by
    unfold genArgs argsCode
    exact .pure
  | [], _ :: _, _, h => h.elim
  | _ :: _, [], _, h => h.elim
  | param :: params, arg :: args, hu, ⟨he, ht, hs⟩ => by
    have hrest := runs_genArgs c L params args (fun u hm => hu u (List.mem_append_right _ hm)) hs
    have harg : Runs (if c.defs.isByRef param then genAddress c arg
        else do
          genExpr c arg
          widenIf (needsWidening arg.type (c.defs.typeOf param))) L ()
        (emits (if c.defs.isByRef param then addressCode c L.storage arg
          else code c L.storage arg ++ optional (needsWidening arg.type (c.defs.typeOf param)) .widen))
        L := by
      unfold Defs.Takes at ht
      split
      · next hr =>
        rw [if_pos hr] at ht
        exact runs_genAddress c L arg (fun u hm => hu u (List.mem_append_left _ hm)) he ht.1
      · refine ((runs_genExpr c L arg (fun u hm => hu u (List.mem_append_left _ hm)) he).bind
          (runs_emitIf _ _)).cast ?_ rfl
        simp
    unfold genArgs
    refine (harg.bind hrest).cast ?_ rfl
    rw [argsCode, emits_append]

end

theorem runs_genExprAs {e : TypedExpr} (target : ValueType)
    (hu : ∀ u ∈ e.uses, Serves c L.storage u) (he : e.WellTyped c.defs) :
    Runs (genExprAs c e target) L () (emits (e.codeAs c L.storage target)) L :=
  ((runs_genExpr c L e hu he).bind (runs_emitIf _ _)).cast (emits_append ..).symm rfl

/-! ## Predefined procedures -/

theorem runs_genParts (array : Storage) : ∀ (args : List TypedExpr) (i : Nat),
    (∀ u ∈ usesAll args, Serves c L.storage u) → (∀ e ∈ args, e.WellTyped c.defs) →
    Runs (genParts c array i args) L () (emits (partsCode c L.storage array i args)) L
  | [], i, _, _ => by
    unfold genParts partsCode
    exact .pure
  | arg :: args, i, hu, ht => by
    have harg := runs_genExpr c L arg (fun u hm => hu u (List.mem_append_left _ hm))
      (ht arg (List.mem_cons_self ..))
    have hrest := runs_genParts array args (i + 1) (fun u hm => hu u (List.mem_append_right _ hm))
      fun e he => ht e (List.mem_cons_of_mem _ he)
    unfold genParts
    refine ((runs_emit _).bind ((runs_emit _).bind (harg.bind ((runs_emit _).bind
      ((runs_emit _).bind hrest))))).cast ?_ rfl
    simp [partsCode]

theorem runs_genReads : ∀ args : List TypedExpr,
    (∀ u ∈ usesAll args, Serves c L.storage u) →
    (∀ e ∈ args, e.WellTyped c.defs ∧ e.isVariable = true) →
    Runs (genReads c args) L () (emits (readsCode c L.storage args)) L
  | [], _, _ => by
    unfold genReads readsCode
    exact .pure
  | arg :: args, hu, ht => by
    obtain ⟨he, hv⟩ := ht arg (List.mem_cons_self ..)
    have harg := runs_genAddress c L arg (fun u hm => hu u (List.mem_append_left _ hm)) he hv
    have hrest := runs_genReads args (fun u hm => hu u (List.mem_append_right _ hm))
      fun e he => ht e (List.mem_cons_of_mem _ he)
    unfold genReads
    refine (harg.bind ((runs_emit _).bind ((runs_emitIf _ _).bind ((runs_emit _).bind
      hrest)))).cast ?_ rfl
    simp [readsCode]

theorem runs_genPrint {args : List TypedExpr} (hu : ∀ u ∈ usesAll args, Serves c L.storage u)
    (ht : ∀ e ∈ args, e.WellTyped c.defs) :
    Runs (genPrint args.length fun array => genParts c array 0 args) L ()
      (TypedStmt.printCalls c L args) L := by
  have hparts := runs_genParts (c := c) (L := L.beginScope.takeSlot) (.slot L.slots) args 0 hu ht
  unfold genPrint
  refine (runs_beginScope.bind ((runs_declareLocal _ _).bind ((runs_emit _).bind ((runs_emit _).bind
    ((runs_emit _).bind (hparts.bind ((runs_emit _).bind ((runs_emit _).bind ((runs_emit _).bind
    ((runs_emit _).bind runs_endScope)))))))))).cast ?_ rfl
  simp [TypedStmt.printCalls, lineCode, Layout.temporaryCall, Layout.beginScope, Layout.takeSlot]

/-- A call that stands as a statement leaves nothing on the stack. -/
theorem runs_genCall {g : DefId} {info : CallableInfo} {args : List TypedExpr} (pos : Position)
    (hg : c.defs.callable? g = some info) (ha : info.Accepts c.defs args)
    (hs : Serves c L.storage (.callee g)) (hu : ∀ u ∈ usesAll args, Serves c L.storage u) :
    Runs (genExpr c (.call g args ⟨.void, .plus, pos⟩)) L () (TypedStmt.callCalls c L g args) L := by
  unfold genExpr CallableInfo.Accepts at *
  unfold TypedStmt.callCalls
  cases hi : info.intrinsic with
  | none =>
    rw [hi] at ha
    have hplan := runs_planCall hg hi hs ha.length_eq
    have hargs := runs_genArgs c L (c.defs.paramsOf g) args hu
      (by rw [Defs.paramsOf_eq hg]; exact ha)
    refine (hplan.bind (Runs.bind (k := fun _ => genSign _) (hargs.bind (runs_emit _))
      (runs_genSign _))).cast ?_ rfl
    simp [hg, hi, signCode, optional]
  | some i =>
    rw [hi] at ha
    cases i with
    | print =>
      have hplan : Runs (planCall c g args.length) L .print [] L := by
        unfold planCall
        simp only [hg, hi]
        exact .pure
      refine (hplan.bind (Runs.bind (k := fun _ => genSign _)
        (runs_genPrint hu fun e he => (ha e he).1) (runs_genSign _))).cast ?_ rfl
      simp [hg, hi, signCode, optional]
    | read =>
      have hplan : Runs (planCall c g args.length) L .read [] L := by
        unfold planCall
        simp only [hg, hi]
        exact .pure
      refine (hplan.bind (Runs.bind (k := fun _ => genSign _)
        (runs_genReads args hu fun e he => ⟨(ha e he).1, (ha e he).2.2 rfl⟩)
        (runs_genSign _))).cast ?_ rfl
      simp [hg, hi, signCode, optional]

/-! ## Declarations and assignments -/

theorem runs_declareVariable (id : DefId) :
    Runs (declareVariable c id) L (L.newPlace c id) [L.reserveCall c id] (L.reserve c id) := by
  have hnew : Runs (newStorage c id) L (L.newPlace c id) [L.reserveCall c id]
      (if c.defs.isGlobal id then L.takeStatic else L.takeSlot) := by
    unfold newStorage Layout.reserveCall Layout.newPlace
    cases c.defs.isGlobal id with
    | true => exact runs_declareStatic _ _
    | false => exact runs_declareLocal _ _
  exact hnew.bind (Runs.bind (k := fun _ => pure _) (runs_setStorage _ _) .pure)

theorem runs_genScalars (type : ValueType) : ∀ (ids : List DefId) (L : Layout),
    Runs (genScalars c type ids) L () (variablesCalls c (fun _ => zeroCode type) L ids) (L.reserveAll c ids)
  | [], _ => by
    unfold genScalars variablesCalls
    exact .pure
  | id :: ids, L => by
    have hrest := runs_genScalars type ids (L.reserve c id)
    unfold genScalars
    refine ((runs_declareVariable id).bind ((runs_genZero type).bind ((runs_emit _).bind
      hrest))).cast ?_ rfl
    simp [variablesCalls]

theorem runs_genArrays (element : BasicType) (size : Storage) : ∀ (ids : List DefId) (L : Layout),
    Runs (genArrays c element size ids) L ()
      (variablesCalls c (fun _ => [.load size, .newArray element]) L ids) (L.reserveAll c ids)
  | [], _ => by
    unfold genArrays variablesCalls
    exact .pure
  | id :: ids, L => by
    have hrest := runs_genArrays element size ids (L.reserve c id)
    unfold genArrays
    refine ((runs_declareVariable id).bind ((runs_emit _).bind ((runs_emit _).bind ((runs_emit _).bind
      hrest)))).cast ?_ rfl
    simp [variablesCalls]

theorem runs_genDeclaration {ids : List DefId} {type : ValueType} {size : Option TypedExpr}
    (hu : ∀ u ∈ usesOption size, Serves c L.storage u)
    (ht : type.isArray = true → ∃ e, size = some e ∧ e.WellTyped c.defs ∧ e.type = .int) :
    Runs (genDeclaration c ids type size) L () (declarationCalls c L ids type size)
      ((if type.isArray then L.takeSlot else L).reserveAll c ids) := by
  unfold genDeclaration declarationCalls
  split
  · next ha =>
    obtain ⟨e, rfl, he, _⟩ := ht ha
    have harrays := runs_genArrays (c := c) type.basic (.slot L.slots) ids L.takeSlot
    refine ((runs_genExpr c L e hu he).bind ((runs_declareLocal _ _).bind ((runs_emit _).bind
      harrays))).cast ?_ rfl
    simp [sizeCalls, Layout.temporaryCall]
  · exact runs_genScalars type ids L

theorem runs_genAssign {target : Place} {value : TypedExpr}
    (hp : ∀ u ∈ target.uses, Serves c L.storage u) (hu : ∀ u ∈ value.uses, Serves c L.storage u)
    (ht : target.WellTyped c.defs) (hv : value.WellTyped c.defs) :
    Runs (genAssign c target value) L () (emits (target.assignCode c L.storage value)) L := by
  cases target with
  | name id =>
    unfold genAssign Place.assignCode
    refine ((runs_storageOf (hp (.place id) (List.mem_cons_self ..))).bind ?_).cast
      (List.nil_append _) rfl
    cases href : c.defs.isByRef id with
    | true =>
      refine ((runs_emit _).bind ((runs_genExprAs _ hu hv).bind (runs_emit _))).cast ?_ rfl
      simp [href]
    | false =>
      refine ((runs_genExprAs _ hu hv).bind (runs_emit _)).cast ?_ rfl
      simp [href]
  | element id index =>
    have hindex := runs_genExpr c L index (fun u hm => hp u (List.mem_cons_of_mem _ hm)) ht.2.2.1
    refine ((runs_loadVariable (hp (.place id) (List.mem_cons_self ..))).bind (hindex.bind
      ((runs_genExprAs _ hu hv).bind (runs_emit _)))).cast ?_ rfl
    simp [Place.assignCode]

end Gen

/-! ## Places of the visible variables -/

/-- Every visible variable has a place. -/
def Provided (c : GenContext) (Δ : List DefId) (σ : Places) : Prop :=
  ∀ v ∈ Δ, c.defs.isVariable v = true → (σ.lookup v).isSome

@[simp] theorem Layout.storage_endScope (L : Layout) : L.endScope.storage = L.storage := by
  unfold endScope
  split <;> rfl

section Places

variable {c : GenContext} {f : DefId}

theorem Layout.storage_reserve (L : Layout) (id : DefId) :
    (L.reserve c id).storage = (id, L.newPlace c id) :: L.storage := by
  unfold reserve
  split <;> rfl

theorem lookup_cons_other {β : Type} {σ : List (DefId × β)} {v id : DefId} {b : β} (h : v ≠ id) :
    ((id, b) :: σ).lookup v = σ.lookup v := by
  rw [List.lookup_cons, beq_false_of_ne h]

theorem Provided.reserveAll : ∀ {ids Δ : List DefId} {L : Layout}, Provided c Δ L.storage →
    Provided c (ids.reverse ++ Δ) (L.reserveAll c ids).storage
  | [], _, _, h => h
  | id :: ids, Δ, L, h => by
    have hone : Provided c (id :: Δ) (L.reserve c id).storage := by
      intro v hv hvar
      rw [Layout.storage_reserve]
      by_cases he : v = id
      · rw [he, List.lookup_cons, beq_self_eq_true]
        rfl
      · rw [lookup_cons_other he]
        exact h v ((List.mem_cons.mp hv).resolve_left he) hvar
    rw [List.reverse_cons, List.append_assoc]
    exact Provided.reserveAll hone

mutual

theorem Provided.layout {Δ : List DefId} : ∀ {s : TypedStmt} {L : Layout},
    s.Obeys (c.defs.closedRules f) Δ → Provided c Δ L.storage →
    Provided c (s.bound ++ Δ) (s.layout c L).storage
  | .declare _ type _ _, L, _, h => by
    have h' : Provided c Δ (if type.isArray then L.takeSlot else L).storage := by
      split <;> exact h
    exact h'.reserveAll
  | .callable id _, _, hs, h => by
    intro v hv hvar
    rcases List.mem_append.mp hv with hv | hv
    · cases List.mem_singleton.mp hv
      exact absurd ((Defs.isVariable_of_callable? hs).symm.trans hvar) (by decide)
    · exact h v hv hvar
  | .ifThen _ yes _, L, hs, h => Provided.layout (s := yes) (L := L.takeLabel.takeLabel) hs.2 h
  | .ifElse _ yes no _, L, hs, h => by
    have hno := Provided.layout hs.2.2 (Provided.layout (L := L.takeLabel.takeLabel) hs.2.1 h)
    rw [TypedStmt.bound, List.append_assoc]
    exact hno
  | .whileDo _ body _, L, hs, h => Provided.layout (s := body) (L := L.takeLabel.takeLabel) hs.2 h
  | .block body, L, hs, h => by
    have hbody := Provided.layoutIn (L := L.beginScope) hs h
    intro v hv hvar
    rw [TypedStmt.layout, Layout.storage_endScope]
    exact hbody v (List.mem_append_right _ hv) hvar
  | .assign _ _ _, _, _, h => h
  | .call _ _ _, _, _, h => h
  | .ret _ _, _, _, h => h
  | .assert _ _, _, _, h => h

theorem Provided.layoutIn {Δ : List DefId} : ∀ {ss : List TypedStmt} {L : Layout},
    TypedStmt.ObeyIn (c.defs.closedRules f) Δ ss → Provided c Δ L.storage →
    Provided c (TypedStmt.boundIn ss ++ Δ) (TypedStmt.layoutIn c L ss).storage
  | [], _, _, h => h
  | s :: ss, L, hs, h => by
    have hrest := Provided.layoutIn hs.2 (Provided.layout hs.1 h)
    rw [TypedStmt.boundIn, List.append_assoc]
    exact hrest

end

theorem lookup_reserveAll {v : DefId} : ∀ {ids : List DefId} (L : Layout), v ∉ ids →
    (L.reserveAll c ids).storage.lookup v = L.storage.lookup v
  | [], _, _ => rfl
  | id :: ids, L, h => by
    have hrest := lookup_reserveAll (L.reserve c id) (List.not_mem_of_not_mem_cons h)
    rw [Layout.storage_reserve, lookup_cons_other (List.ne_of_not_mem_cons h)] at hrest
    exact hrest

mutual

/-- A statement leaves the visible variables where they are. -/
theorem lookup_layout {Δ : List DefId} : ∀ (s : TypedStmt) {L : Layout},
    s.Obeys (c.defs.closedRules f) Δ → ∀ v ∈ Δ,
    (s.layout c L).storage.lookup v = L.storage.lookup v
  | .declare ids type _ _, L, hs, v, hv => by
    have hnot : v ∉ ids := fun hm => (hs.2 v hm).1 hv
    refine (lookup_reserveAll _ hnot).trans ?_
    split <;> rfl
  | .ifThen _ yes _, L, hs, v, hv => lookup_layout yes (L := L.takeLabel.takeLabel) hs.2 v hv
  | .ifElse _ yes no _, L, hs, v, hv =>
    (lookup_layout no hs.2.2 v (List.mem_append_right _ hv)).trans
      (lookup_layout yes (L := L.takeLabel.takeLabel) hs.2.1 v hv)
  | .whileDo _ body _, L, hs, v, hv => lookup_layout body (L := L.takeLabel.takeLabel) hs.2 v hv
  | .block body, L, hs, v, hv => by
    rw [TypedStmt.layout, Layout.storage_endScope]
    exact lookup_layoutIn body (L := L.beginScope) hs v hv
  | .callable _ _, _, _, _, _ => rfl
  | .assign _ _ _, _, _, _, _ => rfl
  | .call _ _ _, _, _, _, _ => rfl
  | .ret _ _, _, _, _, _ => rfl
  | .assert _ _, _, _, _, _ => rfl

theorem lookup_layoutIn {Δ : List DefId} : ∀ (ss : List TypedStmt) {L : Layout},
    TypedStmt.ObeyIn (c.defs.closedRules f) Δ ss → ∀ v ∈ Δ,
    (TypedStmt.layoutIn c L ss).storage.lookup v = L.storage.lookup v
  | [], _, _, _, _ => rfl
  | s :: ss, _, hs, v, hv =>
    (lookup_layoutIn ss hs.2 v (List.mem_append_right _ hv)).trans (lookup_layout s hs.1 v hv)

end

end Places

/-! ## Statements -/

/-- Every callable that is not predefined has a routine. -/
def GenContext.Complete (c : GenContext) : Prop :=
  ∀ g info, c.defs.callable? g = some info → info.intrinsic = none → (c.routines.lookup g).isSome

theorem Provided.serves {c : GenContext} {f : DefId} {Δ : List DefId} {σ : Places} (hc : c.Complete)
    (h : Provided c Δ σ) {us : List Use} (hu : ∀ u ∈ us, (c.defs.closedRules f).use Δ u) :
    ∀ u ∈ us, Serves c σ u := by
  intro u hm
  have hu := hu u hm
  cases u with
  | place id => exact h id hu.1 hu.2
  | callee g => exact hc g

namespace Gen

variable {c : GenContext} {f : DefId}

mutual

/-- The commands of a statement that keeps to the rules of closed bodies and is
well typed. -/
theorem runs_genStmt (hc : c.Complete) {Δ : List DefId} : ∀ (s : TypedStmt) {L : Layout},
    s.Obeys (c.defs.closedRules f) Δ → s.WellTyped c.defs f → Provided c Δ L.storage →
    Runs (genStmt c f s) L () (s.calls c f L) (s.layout c L)
  | .declare _ _ _ _, L, hs, ht, h => by
    unfold genStmt
    exact runs_genDeclaration (h.serves hc hs.1) ht.2
  | .callable id body, L, hs, ht, h => by
    unfold genStmt
    exact runs_defer id body
  | .assign target value _, L, hs, ht, h => by
    unfold genStmt
    exact runs_genAssign (h.serves hc hs.1) (h.serves hc hs.2) ht.1 ht.2.1
  | .ifThen cond yes _, L, hs, ht, h => by
    have hcond := runs_genExpr c L.takeLabel.takeLabel cond (h.serves hc hs.1) ht.1
    have hyes := runs_genStmt hc yes (L := L.takeLabel.takeLabel) hs.2 ht.2.2 h
    unfold genStmt
    refine (runs_newLabel.bind (runs_newLabel.bind (hcond.bind ((runs_emit _).bind (hyes.bind
      ((runs_emit _).bind ((runs_emit _).bind (runs_emit _)))))))).cast ?_ rfl
    simp [TypedStmt.calls, Layout.labelCall, Layout.takeLabel]
  | .ifElse cond yes no _, L, hs, ht, h => by
    have hcond := runs_genExpr c L.takeLabel.takeLabel cond (h.serves hc hs.1) ht.1
    have hyes := runs_genStmt hc yes (L := L.takeLabel.takeLabel) hs.2.1 ht.2.2.1 h
    have hno := runs_genStmt hc no hs.2.2 ht.2.2.2
      (Provided.layout (L := L.takeLabel.takeLabel) hs.2.1 h)
    unfold genStmt
    refine (runs_newLabel.bind (runs_newLabel.bind (hcond.bind ((runs_emit _).bind (hyes.bind
      ((runs_emit _).bind ((runs_emit _).bind (hno.bind (runs_emit _))))))))).cast ?_ rfl
    simp [TypedStmt.calls, Layout.labelCall, Layout.takeLabel]
  | .whileDo cond body _, L, hs, ht, h => by
    have hbody := runs_genStmt hc body (L := L.takeLabel.takeLabel) hs.2 ht.2.2 h
    have hafter := Provided.layout (L := L.takeLabel.takeLabel) hs.2 h
    have hcond := runs_genExpr c (body.layout c L.takeLabel.takeLabel) cond
      (Provided.serves hc (fun v hv => hafter v (List.mem_append_right _ hv)) hs.1) ht.1
    unfold genStmt
    refine (runs_newLabel.bind (runs_newLabel.bind ((runs_emit _).bind ((runs_emit _).bind (hbody.bind
      ((runs_emit _).bind (hcond.bind (runs_emit _)))))))).cast ?_ rfl
    simp [TypedStmt.calls, Layout.labelCall, Layout.takeLabel]
  | .call callee args pos, L, hs, ht, h => by
    obtain ⟨info, hg, hv, ha⟩ := ht
    have hcall := runs_genCall pos hg ha (hc callee) (h.serves hc hs.2)
    unfold genStmt
    refine (hcall.bind (runs_emitIf _ _)).cast ?_ rfl
    simp [TypedStmt.calls, hv, optional]
  | .ret none _, L, hs, ht, h => by
    unfold genStmt
    exact runs_emit _
  | .ret (some value) _, L, hs, ht, h => by
    unfold genStmt
    refine ((runs_genExprAs _ (h.serves hc hs) ht.2.1).bind (runs_emit _)).cast ?_ rfl
    simp [TypedStmt.calls]
  | .assert cond pos, L, hs, ht, h => by
    unfold genStmt
    refine ((runs_genExpr c L cond (h.serves hc hs) ht.1).bind (runs_emit _)).cast ?_ rfl
    simp [TypedStmt.calls]
  | .block body, L, hs, ht, h => by
    have hbody := runs_genStmts hc body (L := L.beginScope) hs ht h
    unfold genStmt
    refine (runs_beginScope.bind (hbody.bind runs_endScope)).cast ?_ rfl
    simp [TypedStmt.calls]

theorem runs_genStmts (hc : c.Complete) {Δ : List DefId} : ∀ (ss : List TypedStmt) {L : Layout},
    TypedStmt.ObeyIn (c.defs.closedRules f) Δ ss → TypedStmt.WellTypedIn c.defs f ss →
    Provided c Δ L.storage →
    Runs (genStmts c f ss) L () (TypedStmt.callsIn c f L ss) (TypedStmt.layoutIn c L ss)
  | [], _, _, _, _ => by
    unfold genStmts
    exact .pure
  | s :: ss, L, hs, ht, h => by
    unfold genStmts
    exact (runs_genStmt hc s hs.1 ht.1 h).bind (runs_genStmts hc ss hs.2 ht.2 (Provided.layout hs.1 h))

end

end Gen

end StackPascal
