import StackPascal.Proofs.Machine.Agreement

/-!
The operands along the code of statements.

* `Chain.flow`, `Flow.last`: straight code within a routine;
* `chain_parts`, `chain_reads`: the work of the predefined procedures;
* `flow_variables`: what a declaration emits;
* `flow_calls`: a statement finds the stack empty and leaves it empty.
-/

namespace StackPascal

open Gen TypedExpr

/-! ## Straight code -/

section Straight

variable {own : Bool} {m : CodeModule} {r : Routine} {fr : Frame}

theorem Instr.Clears.plain {i : Instr} (h : i.plain = true) (σ τ : List Operand) :
    i.Clears σ τ where
  label l he := by rw [he] at h; cases h
  target l ht := by cases i <;> first | (cases ht; done) | cases h
  ends he := by cases i <;> first | (cases he; done) | cases h

theorem Chain.flow {holds : Storage → Option Operand} {is : List Instr} {σ τ : List Operand}
    (h : Chain m r.result holds is σ τ) : ∀ {fr : Frame}, is.all Instr.plain = true →
    fr.held? own m r = holds → Flow own m r fr σ (emits is) τ := by
  induction h with
  | nil σ => exact fun _ _ => .nil _ σ
  | @cons i is taken given τ he below _ ih =>
    intro fr hp hh
    rw [List.all_cons, Bool.and_eq_true] at hp
    rw [← hh] at he
    rw [emits_cons]
    refine .emit he (.plain hp.1 _ _) (ih hp.2 ?_)
    rw [Frame.execute_plain hp.1]
    exact hh

/-- Straight code, and at its end an instruction of any kind. -/
theorem Flow.last {is : List Instr} {i : Instr} {σ taken given : List Operand} (below : List Operand)
    (h : Chain m r.result (fr.held? own m r) is σ (taken ++ below)) (hp : is.all Instr.plain = true)
    (he : Effect m r.result (fr.held? own m r) i taken given)
    (hc : i.Clears (taken ++ below) (given ++ below)) :
    Flow own m r fr σ (emits (is ++ [i])) (given ++ below) := by
  rw [emits_append]
  refine (h.flow hp rfl).append ?_
  rw [Frame.run_plain hp]
  exact .emit he hc (.nil _ _)

theorem Instr.Clears.empty (i : Instr) : i.Clears [] [] := ⟨fun _ _ => rfl, fun _ _ => rfl, fun _ => rfl⟩

/-- An instruction that ends a statement takes all there is. -/
theorem Instr.Clears.last {i : Instr} {σ : List Operand} (h : ∀ l, i ≠ .label l) : i.Clears σ [] :=
  ⟨fun l he => absurd he (h l), fun _ _ => rfl, fun _ => rfl⟩

/-- Labels and jumps between statements. -/
theorem flow_marks : ∀ {is : List Instr} {fr : Frame},
    (∀ i ∈ is, ∃ l, i = .jump l ∨ i = .label l) → Flow own m r fr [] (emits is) []
  | [], fr, _ => .nil fr []
  | i :: is, fr, h => by
    have hrest : Flow own m r (fr.execute i) [] (emits is) [] :=
      flow_marks fun j hj => h j (List.mem_cons_of_mem _ hj)
    obtain ⟨l, rfl | rfl⟩ := h i (List.mem_cons_self ..)
    · exact .emit  (.jump l) (.empty _) hrest
    · exact .emit  (.label l) (.empty _) hrest

theorem flow_scope {cs : List Call} (h : Flow own m r fr.beginScope [] cs []) :
    Flow own m r fr [] (⟨.beginScope, .done⟩ :: (cs ++ [⟨.endScope, .done⟩])) [] :=
  .other (fun _ => nofun) (h.append (.other (fun _ => nofun) (.nil _ [])))

end Straight

/-! ## Pieces of statements -/

section Pieces

variable {m : CodeModule} {result : ValueType} {holds : Storage → Option Operand} {c : GenContext}
  {σ : Places}

theorem chain_codeAs {e : TypedExpr} {target : ValueType} (hu : ∀ u ∈ e.uses, Known m holds c σ u)
    (ht : e.WellTyped c.defs) (h : assignable target e.type = true) (st : List Operand) :
    Chain m result holds (e.codeAs c σ target) st (.value target :: st) :=
  (chain_code e hu ht st).append (chain_assignable h st)

/-- The zero value of a type, and nothing if it has no values. -/
theorem chain_zero {type : ValueType} (h : type.isVoid = true → type = .void) :
    Chain m result holds (zeroCode type) [] (resultOperands type) := by
  obtain ⟨basic, isArray⟩ := type
  cases isArray with
  | true =>
    cases basic with
    | void => cases h rfl
    | _ => exact .cons (.pushInt 0) [] (.one (.newArray _) [])
  | false =>
    cases basic with
    | int => exact .one (.pushInt 0) []
    | real => exact .one (.pushReal .zero) []
    | string => exact .one (.pushStr "") []
    | bool => exact .one (.pushBool false) []
    | void => exact .nil []

theorem resultOperands_value {type : ValueType} (h : type.isVoid = false) :
    resultOperands type = [.value type] := by
  rw [resultOperands, if_neg (by rw [h]; exact Bool.false_ne_true)]

theorem resultOperands_void {type : ValueType} (h : type.isVoid = true) :
    resultOperands type = [] := by
  rw [resultOperands, if_pos h]

/-- Each argument is turned into a text and put into the array. -/
theorem chain_parts {array : Storage} (ha : holds array = some (.value (.array .string)))
    (st : List Operand) : ∀ (args : List TypedExpr) (i : Nat),
    (∀ u ∈ usesAll args, Known m holds c σ u) →
    (∀ e ∈ args, e.WellTyped c.defs ∧ e.type.isArray = false) →
    Chain m result holds (partsCode c σ array i args) st st
  | [], _, _, _ => .nil st
  | arg :: args, i, hu, ht => by
    obtain ⟨harg, hscalar⟩ := ht arg (List.mem_cons_self ..)
    have hrest := chain_parts ha st args (i + 1) (fun u hm => hu u (List.mem_append_right _ hm))
      fun e he => ht e (List.mem_cons_of_mem _ he)
    have hcode : Chain m result holds _ _ (.value arg.type :: .value .int :: .value (.array .string) ::
      st) := chain_code arg (fun u hm => hu u (List.mem_append_left _ hm)) harg _
    have hstr : Effect m result holds (.toStr arg.type) [.value arg.type] [.value .string] := by
      rw [ValueType.eq_scalar hscalar]
      exact .toStr _
    exact .cons (.load ha) st (.cons (.pushInt i) _ (hcode.append
      (.cons hstr _ (.cons (.storeElem .string) st hrest))))

/-- The texts are joined and written. -/
theorem chain_line {array : Storage} (ha : holds array = some (.value (.array .string)))
    {args : List TypedExpr} (hu : ∀ u ∈ usesAll args, Known m holds c σ u)
    (ht : ∀ e ∈ args, e.WellTyped c.defs ∧ e.type.isArray = false) :
    Chain m result holds (lineCode c σ array args) [] [] :=
  (chain_parts ha [] args 0 hu ht).append
    (.cons (.pushStr " ") [] (.cons (.load ha) [.value .string] (.cons .join []
      (.cons .writeLine [] (.nil [])))))

/-- A line is read, parsed and stored at the address of each argument. -/
theorem chain_reads : ∀ (args : List TypedExpr), (∀ u ∈ usesAll args, Known m holds c σ u) →
    (∀ e ∈ args, e.WellTyped c.defs ∧ e.type.isArray = false ∧ e.isVariable = true) →
    Chain m result holds (readsCode c σ args) [] []
  | [], _, _ => .nil []
  | arg :: args, hu, ht => by
    obtain ⟨harg, hscalar, hvar⟩ := ht arg (List.mem_cons_self ..)
    have hrest := chain_reads args (fun u hm => hu u (List.mem_append_right _ hm))
      fun e he => ht e (List.mem_cons_of_mem _ he)
    have haddr : Chain m result holds _ [] [.address arg.type] :=
      chain_address arg (fun u hm => hu u (List.mem_append_left _ hm)) harg hvar []
    have hparse : Chain m result holds
        (optional (arg.type.basic ≠ .string) (.parse arg.type.basic))
        [.value .string, .address arg.type] [.value arg.type, .address arg.type] := by
      rw [ValueType.eq_scalar hscalar]
      by_cases hs : arg.type.basic = .string
      · rw [hs]
        exact .nil _
      · simp only [ValueType.scalar, optional, hs, ne_eq, not_false_eq_true, decide_true, if_true]
        exact .one (.parse _) _
    rw [readsCode]
    exact haddr.append (.cons .readLine _ (hparse.append (.cons (.storeRef _) [] hrest)))

end Pieces

/-! ## Declarations -/

section Declarations

variable {own : Bool} {m : CodeModule} {r : Routine} {c : GenContext}

theorem Frame.Grows.declare (fr : Frame) (s : Storage) (type : ValueType) :
    fr.Grows (fr.declare s type) where
  vars := List.suffix_cons _ _
  scopes := rfl

/-- Every variable is declared and set up. What `init` pushes may depend on the
variables that were there before the declaration. -/
theorem flow_variables {init : DefId → List Instr} {base : Frame}
    (hi : ∀ id, (init id).all Instr.plain = true) : ∀ (ids : List DefId) {fr : Frame} {L : Layout},
    fr.Fits L → base.Grows fr → (∀ id ∈ ids, c.defs.isByRef id = false) →
    (∀ id ∈ ids, ∀ fr' : Frame, base.Grows fr' → (fr'.vars.map Variable.storage).Nodup →
      Chain m r.result (fr'.held? own m r) (init id) [] [.value (c.defs.typeOf id)]) →
    DeclaredIn m (variablesCalls c init L ids) → Flow own m r fr [] (variablesCalls c init L ids) []
  | [], fr, _, _, _, _, _, _ => .nil fr []
  | id :: ids, fr, L, hf, hg, hr, hinit, hd => by
    have hreach := Frame.reaches_reserve (c := c) hf id (hi id)
    have hrest := flow_variables hi ids hreach.fits (hg.trans hreach.grows)
      (fun v hv => hr v (List.mem_cons_of_mem _ hv))
      (fun v hv => hinit v (List.mem_cons_of_mem _ hv))
      (hd.mono fun d hm => List.mem_cons_of_mem _ (List.mem_append_right _ hm))
    have hchain := hinit id (List.mem_cons_self ..) (fr.declare (L.newPlace c id) (c.defs.typeOf id))
      (hg.trans (.declare fr _ _)) (hf.declare_distinct (L.not_taken_newPlace id) _)
    have hstore : (fr.declare (L.newPlace c id) (c.defs.typeOf id)).held? own m r (L.newPlace c id) =
        some (.value (c.defs.typeOf id)) := by
      refine held?_new rfl rfl rfl (hd.mono fun d hm => ?_)
      cases List.mem_singleton.mp hm
      exact List.mem_cons_self ..
    have hset := Flow.last [] hchain (hi id) (.store hstore) (.last fun _ => nofun)
    have hone : Flow own m r fr [] (L.reserveCall c id :: emits (init id ++ [.store (L.newPlace c id)])) [] := by
      refine .other (Frame.command_reserve L id).2 ?_
      rw [Frame.step_reserve]
      exact hset
    rw [variablesCalls, ← List.cons_append]
    exact hone.append hrest

theorem Frame.held?_declare (fr : Frame) (n : Nat) (type : ValueType) :
    (fr.declare (.slot n) type).held? own m r (.slot n) = some (.value type) := by
  have hvars : (fr.declare (.slot n) type).vars = ⟨.slot n, type, none⟩ :: fr.vars := rfl
  exact held?_head hvars rfl

/-- A slot without a name, with a value of its type. -/
theorem flow_temporary {fr : Frame} {L : Layout} {type : ValueType} {is : List Instr}
    (hp : is.all Instr.plain = true)
    (h : Chain m r.result ((fr.declare (.slot L.slots) type).held? own m r) is [] [.value type]) :
    Flow own m r fr [] (L.temporaryCall type :: emits (is ++ [.store (.slot L.slots)])) [] := by
  exact .other (fun _ => nofun)
    (Flow.last [] h hp (.store (Frame.held?_declare ..)) (.last fun _ => nofun))

/-- After the size of an array has been stored, its slot holds an integer. -/
theorem held?_size (fr : Frame) (L : Layout) (e : TypedExpr) :
    (fr.run (sizeCalls c L e)).held? own m r (.slot L.slots) = some (.value .int) := by
  have hvars : ∃ i, (fr.run (sizeCalls c L e)).vars = ⟨.slot L.slots, .int, some i⟩ :: fr.vars := by
    rw [sizeCalls, Frame.run_append, Frame.run_plain (plain_code e)]
    exact ⟨_, congrArg Frame.vars (Frame.run_declare (show [].all Instr.plain = true from rfl))⟩
  obtain ⟨i, hvars⟩ := hvars
  exact Frame.held?_head hvars rfl

theorem flow_size {fr : Frame} {L : Layout} {e : TypedExpr}
    (hu : ∀ u ∈ e.uses, Known m (fr.held? own m r) c L.storage u) (ht : e.WellTyped c.defs)
    (hi : e.type = .int) : Flow own m r fr [] (sizeCalls c L e) [] := by
  have hcode : Chain m r.result (fr.held? own m r) _ [] _ := chain_code e hu ht []
  rw [hi] at hcode
  refine (hcode.flow (plain_code e) rfl).append (.other (fun _ => nofun) ?_)
  exact .emit (.store (Frame.held?_declare ..)) (.last fun _ => nofun) (.nil _ [])

theorem flow_declaration {fr : Frame} {L : Layout} {ids : List DefId} {type : ValueType}
    {size : Option TypedExpr} (hf : fr.Fits L) (hr : ∀ id ∈ ids, c.defs.isByRef id = false)
    (ht : TypedStmt.DeclarationTyped c.defs ids type size)
    (hu : ∀ u ∈ usesOption size, Known m (fr.held? own m r) c L.storage u)
    (hd : DeclaredIn m (declarationCalls c L ids type size)) :
    Flow own m r fr [] (declarationCalls c L ids type size) [] := by
  unfold declarationCalls at *
  split
  · next ha =>
    obtain ⟨e, rfl, he, hi⟩ := ht.2 ha
    rw [if_pos ha] at hd
    have hsize := Frame.reaches_size hf c e
    refine (flow_size hu he hi).append (flow_variables (fun _ => rfl) ids hsize.fits (.refl _) hr ?_
      (hd.mono (List.subset_append_right _ _)))
    intro id hid fr' hg hdistinct
    have hheld : fr'.held? own m r (.slot L.slots) = some (.value .int) :=
      Frame.held?_grows hg.vars hdistinct (held?_size fr L e)
    have htype : c.defs.typeOf id = .array type.basic := by
      rw [(ht.1 id hid).1]
      obtain ⟨basic, isArray⟩ := type
      cases (ha : isArray = true)
      rfl
    rw [htype]
    exact .cons (.load hheld) [] (.one (.newArray _) [])
  · next ha =>
    rw [if_neg ha] at hd
    refine flow_variables (fun _ => plain_zero type) ids hf (.refl _) hr ?_ hd
    intro id hid fr' _ _
    obtain ⟨htype, hvoid⟩ := ht.1 id hid
    rw [htype, ← resultOperands_value hvoid]
    exact chain_zero fun h => absurd (hvoid.symm.trans h) Bool.false_ne_true

end Declarations

/-! ## Statements -/

section Statements

variable {own : Bool} {m : CodeModule} {r : Routine} {c : GenContext} {f : DefId} {Δ : List DefId}
  {fr : Frame} {L : Layout}

theorem flow_assign (hm : c.HeadedIn m) {target : Place} {value : TypedExpr} {pos : Position}
    (hs : (TypedStmt.assign target value pos).Obeys (c.defs.closedRules f) Δ)
    (ht : (TypedStmt.assign target value pos).WellTyped c.defs f)
    (h : Agrees own m r c.defs Δ L.storage fr) :
    Flow own m r fr [] (emits (target.assignCode c L.storage value)) [] := by
  have hplace : ∀ u ∈ target.uses, Known m (fr.held? own m r) c L.storage u := h.known hm hs.1
  have hvalue : ∀ u ∈ value.uses, Known m (fr.held? own m r) c L.storage u := h.known hm hs.2
  obtain ⟨htarget, hwell, hscalar, hassign⟩ := ht
  cases target with
  | name id =>
    have hcode : ∀ st, Chain m r.result (fr.held? own m r) (value.codeAs c L.storage (c.defs.typeOf id))
        st (.value (c.defs.typeOf id) :: st) := chain_codeAs hvalue hwell hassign
    have hheld : fr.held? own m r (L.storage.of id) = some (c.defs.operandOf id) :=
      hplace (.place id) (List.mem_singleton_self _)
    unfold Defs.operandOf at hheld
    rw [Place.assignCode]
    split
    · next hr =>
      rw [if_pos hr] at hheld
      have hall : Chain m r.result (fr.held? own m r) _ [] [] :=
        .cons (.load hheld) [] ((hcode _).append (.one (.storeRef _) []))
      refine hall.flow ?_ rfl
      rw [List.all_cons, List.all_append, plain_codeAs]
      rfl
    · next hr =>
      rw [if_neg hr] at hheld
      exact .last [] (hcode []) (plain_codeAs _ _) (.store hheld) (.last fun _ he => by cases he)
  | element id index =>
    obtain ⟨ha, _, hi, htype⟩ := htarget
    have hload : Chain m r.result (fr.held? own m r) _ [] _ :=
      chain_variable (hplace (.place id) (List.mem_cons_self ..)) []
    have hindex : Chain m r.result (fr.held? own m r) _ _ _ := chain_code index
      (fun u hm => hplace u (List.mem_cons_of_mem _ hm)) hi [.value (c.defs.typeOf id)]
    rw [htype] at hindex
    have hcode : Chain m r.result (fr.held? own m r) _ _ _ :=
      chain_codeAs hvalue hwell hassign [.value .int, .value (c.defs.typeOf id)]
    have hall := hload.append (hindex.append (hcode.append (.one (effect_storeElem ha) [])))
    refine hall.flow ?_ rfl
    simp [List.all_append, plain_variable, plain_code, plain_codeAs, Instr.plain, -List.all_eq_true]

theorem flow_print (hm : c.HeadedIn m) {args : List TypedExpr} (hf : fr.Fits L)
    (hu : ∀ u ∈ usesAll args, (c.defs.closedRules f).use Δ u)
    (ht : ∀ e ∈ args, e.WellTyped c.defs ∧ e.type.isArray = false)
    (h : Agrees own m r c.defs Δ L.storage fr) :
    Flow own m r fr [] (TypedStmt.printCalls c L args) [] := by
  have hinit : [Instr.pushInt args.length, .newArray .string].all Instr.plain = true := rfl
  have hhead := Frame.reaches_temporary hf.beginScope (.array .string) hinit
  have hfirst : Flow own m r fr.beginScope [] (L.beginScope.temporaryCall (.array .string) ::
      emits ([.pushInt args.length, .newArray .string] ++ [.store (.slot L.slots)])) [] :=
    flow_temporary hinit (.cons (.pushInt _) [] (.one (.newArray .string) []))
  let fr' := fr.beginScope.run (L.beginScope.temporaryCall (.array .string) ::
      emits ([.pushInt args.length, .newArray .string] ++ [.store (.slot L.slots)]))
  have hvars : fr'.vars = ⟨.slot L.slots, .array .string, some (fr.pc + 2)⟩ :: fr.vars :=
    congrArg Frame.vars (Frame.run_declare hinit)
  have hopen : Agrees own m r c.defs Δ L.storage fr.beginScope := h.congr rfl
  have hknown : ∀ u ∈ usesAll args, Known m (fr'.held? own m r) c L.storage u :=
    (hopen.later hhead).known hm hu
  have hline : Chain m r.result (fr'.held? own m r) _ [] [] :=
    chain_line (Frame.held?_head hvars rfl) hknown ht
  have hboth := hfirst.append (hline.flow (plain_line c L.storage _ args) rfl)
  exact flow_scope hboth

theorem flow_call (hm : c.HeadedIn m) {callee : DefId} {args : List TypedExpr} {pos : Position}
    (hf : fr.Fits L) (hs : (TypedStmt.call callee args pos).Obeys (c.defs.closedRules f) Δ)
    (ht : (TypedStmt.call callee args pos).WellTyped c.defs f)
    (h : Agrees own m r c.defs Δ L.storage fr) :
    Flow own m r fr [] (TypedStmt.callCalls c L callee args) [] := by
  obtain ⟨info, hi, hvoid, haccepts⟩ := ht
  have hknown : ∀ u ∈ usesAll args, Known m (fr.held? own m r) c L.storage u := h.known hm hs.2
  unfold CallableInfo.Accepts at haccepts
  unfold TypedStmt.callCalls
  rw [hi, Option.bind_some]
  cases hn : info.intrinsic with
  | none =>
    rw [hn] at haccepts
    obtain ⟨g, hg, hparams, hresult⟩ := hm callee info hi hn
    have hargs : Chain m r.result (fr.held? own m r) _ [] _ :=
      chain_args info.params args hknown haccepts []
    have hcall : Effect m r.result (fr.held? own m r) (.call (c.routine callee)) _ _ := .call hg
    rw [hparams, hresult, List.map_map, resultOperands_void hvoid] at hcall
    rw [Defs.paramsOf_eq hi]
    refine (hargs.append (.one hcall [])).flow ?_ rfl
    rw [List.all_append, plain_args]
    rfl
  | some i =>
    rw [hn] at haccepts
    cases i with
    | print => exact flow_print hm hf hs.2 (fun e he => ⟨(haccepts e he).1, (haccepts e he).2.1⟩) h
    | read =>
      have hreads : Chain m r.result (fr.held? own m r) _ [] [] := chain_reads args hknown
        fun e he => ⟨(haccepts e he).1, (haccepts e he).2.1, (haccepts e he).2.2 rfl⟩
      exact hreads.flow (plain_reads args) rfl

/-- The zero value of the result is returned. -/
theorem flow_return (h : r.result.isVoid = true → r.result = .void) :
    Flow own m r fr [] (emits (zeroCode r.result ++ [.ret])) [] := by
  have hzero : Chain m r.result (fr.held? own m r) _ [] (resultOperands r.result) := chain_zero h
  rw [← List.append_nil (resultOperands r.result)] at hzero
  exact .last [] hzero (plain_zero _) .ret (.last fun _ he => by cases he)

/-- A condition is evaluated, and an instruction takes it. -/
theorem flow_test (hm : c.HeadedIn m) {cond : TypedExpr} (hu : ∀ u ∈ cond.uses, (c.defs.closedRules f).use Δ u)
    (ht : cond.WellTyped c.defs) (hb : cond.type = .bool) (h : Agrees own m r c.defs Δ L.storage fr)
    {i : Instr} (hi : Effect m r.result (fr.held? own m r) i [.value .bool] []) (hl : ∀ l, i ≠ .label l) :
    Flow own m r fr [] (emits (cond.code c L.storage ++ [i])) [] := by
  have hcond : Chain m r.result (fr.held? own m r) _ [] _ := chain_code cond (h.known hm hu) ht []
  rw [hb] at hcond
  exact .last [] hcond (plain_code cond) hi (.last hl)

mutual

/-- A statement finds the stack empty and leaves it empty. -/
theorem flow_calls (hm : c.HeadedIn m) (hr : r.result = c.defs.typeOf f) : ∀ (s : TypedStmt)
    {Δ : List DefId} {fr : Frame} {L : Layout}, s.Obeys (c.defs.closedRules f) Δ →
    s.WellTyped c.defs f → fr.Fits L → DeclaredIn m (s.calls c f L) →
    Agrees own m r c.defs Δ L.storage fr → Flow own m r fr [] (s.calls c f L) []
  | .declare _ _ _ _, _, _, _, hs, ht, hf, hd, h =>
    flow_declaration hf (fun id hid => (hs.2 id hid).2.isByRef) ht (h.known hm hs.1) hd
  | .callable _ _, _, fr, _, _, _, _, _, _ => .nil fr []
  | .assign _ _ _, _, _, _, hs, ht, _, _, h => flow_assign hm hs ht h
  | .ifThen cond yes _, _, fr, L, hs, ht, hf, hd, h => by
    have htest := hf.reaches_branch (cond.code c L.storage ++ [.jumpIfFalse ⟨L.labels⟩])
    have hcond := flow_test hm hs.1 ht.1 ht.2.1 h (.jumpIfFalse ⟨L.labels⟩) fun _ => nofun
    have hyes := flow_calls hm hr yes hs.2 ht.2.2 htest.fits
      (hd.mono fun _ hm => by simp [TypedStmt.calls, hm]) (h.later htest)
    refine .other (fun _ => nofun) (.other (fun _ => nofun) (hcond.append (hyes.append ?_)))
    exact flow_marks fun i hi => by simp at hi; grind
  | .ifElse cond yes no _, _, fr, L, hs, ht, hf, hd, h => by
    have htest := hf.reaches_branch (cond.code c L.storage ++ [.jumpIfFalse ⟨L.labels⟩])
    have hcond := flow_test hm hs.1 ht.1 ht.2.1 h (.jumpIfFalse ⟨L.labels⟩) fun _ => nofun
    have hdyes : DeclaredIn m (yes.calls c f L.takeLabel.takeLabel) :=
      hd.mono fun _ hm => by simp [TypedStmt.calls, hm]
    have hyes := flow_calls hm hr yes hs.2.1 ht.2.2.1 htest.fits hdyes (h.later htest)
    have hagrees := agrees_calls yes hs.2.1 ht.2.2.1 htest.fits hdyes (h.later htest)
    have hmarks := (Frame.reaches_calls yes ht.2.2.1 htest.fits).fits.reaches_emits
      [.jump ⟨L.labels + 1⟩, .label ⟨L.labels⟩]
    have hno := flow_calls hm hr no hs.2.2 ht.2.2.2 hmarks.fits
      (hd.mono fun _ hm => by simp [TypedStmt.calls, hm]) (hagrees.later hmarks)
    refine .other (fun _ => nofun) (.other (fun _ => nofun) (hcond.append (hyes.append
      (Flow.append ?_ (hno.append ?_)))))
    all_goals exact flow_marks fun i hi => by simp at hi; grind
  | .whileDo cond body _, _, fr, L, hs, ht, hf, hd, h => by
    have hmarks := hf.reaches_branch [.jump ⟨L.labels + 1⟩, .label ⟨L.labels⟩]
    have hdbody : DeclaredIn m (body.calls c f L.takeLabel.takeLabel) :=
      hd.mono fun _ hm => by simp [TypedStmt.calls, hm]
    have hbody := flow_calls hm hr body hs.2 ht.2.2 hmarks.fits hdbody (h.later hmarks)
    have hagrees := agrees_calls body hs.2 ht.2.2 hmarks.fits hdbody (h.later hmarks)
    refine .other (fun _ => nofun) (.other (fun _ => nofun) (Flow.append ?_ (hbody.append ?_)))
    · exact flow_marks fun i hi => by simp at hi; grind
    · have hafter : Agrees own m r c.defs _ (body.layout c L.takeLabel.takeLabel).storage _ :=
        hagrees.mono (List.subset_append_right _ _)
      refine .emit (.label _) (.empty _) (flow_test hm hs.1 ht.1 ht.2.1
        (?_ : Agrees own m r c.defs _ _ _) (.jumpIfTrue _) fun _ => nofun)
      exact hafter.congr rfl
  | .block body, _, fr, L, hs, ht, hf, hd, h => by
    refine flow_scope (flow_callsIn hm hr body hs ht hf.beginScope (hd.mono fun _ hm => ?_) (h.congr rfl))
    simp [TypedStmt.calls, hm]
  | .call _ _ _, _, _, _, hs, ht, hf, _, h => flow_call hm hf hs ht h
  | .ret none _, _, fr, _, _, ht, _, _, _ => by
    have hret : Effect m r.result (fr.held? own m r) .ret _ _ := .ret
    rw [show resultOperands r.result = [] by rw [hr, resultOperands_void ht]] at hret
    exact .emit hret (.empty _) (.nil _ [])
  | .ret (some value) _, _, fr, _, hs, ht, _, _, h => by
    have hret : Effect m r.result (fr.held? own m r) .ret _ _ := .ret
    rw [show resultOperands r.result = [.value (c.defs.typeOf f)] by
      rw [hr, resultOperands_value ht.1]] at hret
    exact .last [] (chain_codeAs (h.known hm hs) ht.2.1 ht.2.2 []) (plain_codeAs _ _) hret
      (.last fun _ => nofun)
  | .assert cond pos, _, _, _, hs, ht, _, _, h =>
    flow_test hm hs ht.1 ht.2 h (.assert pos) fun _ => nofun

theorem flow_callsIn (hm : c.HeadedIn m) (hr : r.result = c.defs.typeOf f) : ∀ (ss : List TypedStmt)
    {Δ : List DefId} {fr : Frame} {L : Layout}, TypedStmt.ObeyIn (c.defs.closedRules f) Δ ss →
    TypedStmt.WellTypedIn c.defs f ss → fr.Fits L → DeclaredIn m (TypedStmt.callsIn c f L ss) →
    Agrees own m r c.defs Δ L.storage fr → Flow own m r fr [] (TypedStmt.callsIn c f L ss) []
  | [], _, fr, _, _, _, _, _, _ => .nil fr []
  | s :: ss, _, _, _, hs, ht, hf, hd, h => by
    have hds := hd.mono (List.subset_append_left _ _)
    have hone := flow_calls hm hr s hs.1 ht.1 hf hds h
    have hagrees := agrees_calls s hs.1 ht.1 hf hds h
    exact hone.append (flow_callsIn hm hr ss hs.2 ht.2 (Frame.reaches_calls s ht.1 hf).fits
      (hd.mono (List.subset_append_right _ _)) hagrees)

end

end Statements

end StackPascal
