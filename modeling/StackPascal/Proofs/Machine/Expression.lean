import StackPascal.Proofs.Code.Listing
import StackPascal.Proofs.Machine.Operands
import StackPascal.Proofs.Typing

/-!
The operands along the code of expressions.

* `binaryResult_operand`, `assignable_cases`: what the type rules say of the
  operands of an instruction;
* `Known`: what an expression names is held as it was declared;
* `chain_code`: the code of an expression leaves its value, and nothing else.
-/

namespace StackPascal

open TypedExpr Gen

/-! ## Types of operands -/

/-- The type can be widened to the given scalar type, or is that type. -/
def ValueType.MeetsAt (t : ValueType) (b : BasicType) : Prop :=
  t = .scalar b ∨ t = .int ∧ b = .real

theorem commonType_cases {l r : ValueType} {b : BasicType} (h : commonType l r = some b) :
    l.MeetsAt b ∧ r.MeetsAt b ∧ commonType (.scalar b) (.scalar b) = some b := by
  obtain ⟨lb, la⟩ := l
  obtain ⟨rb, ra⟩ := r
  cases la <;> cases ra <;> cases lb <;> cases rb <;>
    simp [commonType, ValueType.MeetsAt, ValueType.scalar, ValueType.int] at h ⊢ <;> subst h <;>
    simp

theorem operandType_cases {op : BinOp} {b t : BasicType} (h : operandType op b = some t) :
    (t = b ∨ b = .int ∧ t = .real) ∧ operandType op t = some t := by
  cases op <;> cases b <;> simp [operandType] at h ⊢ <;> subst h <;> simp

/-- Both sides are widened to the type in which the operator works. -/
theorem binaryResult_operand {op : BinOp} {l r t : ValueType} {b : BasicType}
    (h : binaryResult op l r = some (b, t)) :
    l.MeetsAt b ∧ r.MeetsAt b ∧ binaryResult op (.scalar b) (.scalar b) = some (b, t) := by
  unfold binaryResult at h
  cases hc : commonType l r with
  | none => simp [hc] at h
  | some common =>
    obtain ⟨hl, hr, hsame⟩ := commonType_cases hc
    simp only [hc] at h
    split at h
    · next hop =>
      cases h
      refine ⟨hl, hr, ?_⟩
      simp only [binaryResult, hsame, hop, if_true]
    · next hop =>
      obtain ⟨u, hu, he⟩ := Option.map_eq_some_iff.mp h
      cases he
      obtain ⟨hub, hut⟩ := operandType_cases hu
      have hwide : ∀ v : ValueType, v.MeetsAt common → v.MeetsAt b := by
        intro v hv
        rcases hub with rfl | ⟨rfl, rfl⟩
        · exact hv
        · rcases hv with rfl | ⟨_, he⟩
          · exact .inr ⟨rfl, rfl⟩
          · cases he
      refine ⟨hwide l hl, hwide r hr, ?_⟩
      have hself : commonType (.scalar b) (.scalar b) = some b := by
        rcases hub with rfl | ⟨rfl, rfl⟩
        · exact hsame
        · rfl
      simp only [binaryResult, hself, hop, hut, Option.map_some]
      rfl

/-- A value that may be assigned has the type of the target or is widened. -/
theorem assignable_cases {target value : ValueType} (h : assignable target value = true) :
    value = target ∨ value = .int ∧ target = .real := by
  unfold assignable at h
  split at h
  · exact .inl (of_decide_eq_true h).symm
  · next ha =>
    obtain ⟨tb, ta⟩ := target
    obtain ⟨ht, hv, _⟩ := commonType_cases (of_decide_eq_true h)
    cases ta with
    | true => simp at ha
    | false =>
      rcases hv with rfl | ⟨rfl, hb⟩
      · exact .inl rfl
      · cases hb
        exact .inr ⟨rfl, rfl⟩

/-! ## What is held -/

namespace Defs

/-- What the storage of a variable holds. -/
def operandOf (ds : Defs) (id : DefId) : Operand :=
  if ds.isByRef id then .address (ds.typeOf id) else .value (ds.typeOf id)

end Defs

/-- The storage of a variable holds what the definitions say, and the routine of
a callable is declared as they say. -/
def Known (m : CodeModule) (holds : Storage → Option Operand) (c : GenContext) (σ : Places) :
    Use → Prop
  | .place id => holds (σ.of id) = some (c.defs.operandOf id)
  | .callee g => ∀ info, c.defs.callable? g = some info → info.intrinsic = none →
      ∃ r, m.routine? (c.routine g) = some r ∧ r.params = info.params.map (paramDecl c.defs) ∧
        r.result = c.defs.typeOf g

/-! ## Expressions -/

section Chains

variable {m : CodeModule} {result : ValueType} {holds : Storage → Option Operand} {c : GenContext}
  {σ : Places}

section Arrays

variable {t : ValueType} (h : t.isArray = true)
include h

theorem effect_loadElem :
    Effect m result holds (.loadElem t.basic) [.value .int, .value t] [.value t.element] := by
  obtain ⟨basic, isArray⟩ := t
  cases (h : isArray = true)
  exact .loadElem basic

theorem effect_elemAddr :
    Effect m result holds (.elemAddr t.basic) [.value .int, .value t] [.address t.element] := by
  obtain ⟨basic, isArray⟩ := t
  cases (h : isArray = true)
  exact .elemAddr basic

theorem effect_storeElem :
    Effect m result holds (.storeElem t.basic) [.value t.element, .value .int, .value t] [] := by
  obtain ⟨basic, isArray⟩ := t
  cases (h : isArray = true)
  exact .storeElem basic

theorem effect_arrayLen : Effect m result holds .arrayLen [.value t] [.value .int] := by
  obtain ⟨basic, isArray⟩ := t
  cases (h : isArray = true)
  exact .arrayLen basic

end Arrays

theorem Chain.one {i : Instr} {taken given : List Operand} (h : Effect m result holds i taken given)
    (below : List Operand) : Chain m result holds [i] (taken ++ below) (given ++ below) :=
  .cons h below (.nil _)

theorem chain_variable {id : DefId} (h : Known m holds c σ (.place id)) (st : List Operand) :
    Chain m result holds (variableCode c σ id) st (.value (c.defs.typeOf id) :: st) := by
  have h : holds (σ.of id) = some (c.defs.operandOf id) := h
  unfold Defs.operandOf at h
  unfold variableCode
  cases hr : c.defs.isByRef id with
  | true =>
    rw [hr, if_pos rfl] at h
    exact .cons (.load h) st (.cons (.loadRef _) st (.nil _))
  | false =>
    rw [hr, if_neg Bool.false_ne_true] at h
    exact .one (.load h) st

theorem chain_addressOf {id : DefId} (h : Known m holds c σ (.place id)) (st : List Operand) :
    Chain m result holds [addressOf c σ id] st (.address (c.defs.typeOf id) :: st) := by
  have h : holds (σ.of id) = some (c.defs.operandOf id) := h
  unfold Defs.operandOf at h
  unfold addressOf
  cases hr : c.defs.isByRef id with
  | true =>
    rw [hr, if_pos rfl] at h
    exact .one (.load h) st
  | false =>
    rw [hr, if_neg Bool.false_ne_true] at h
    exact .one (.loadAddr h) st

theorem chain_sign {info : ExprInfo} (h : info.SignFits) (st : List Operand) :
    Chain m result holds (signCode info) (.value info.type :: st) (.value info.type :: st) := by
  obtain ⟨type, sign, pos⟩ := info
  cases sign with
  | plus => exact .nil _
  | minus =>
    have hn : type.isNumeric = true := h rfl
    obtain ⟨basic, isArray⟩ := type
    cases isArray with
    | true => cases hn
    | false => exact .one (.neg hn) st

/-- An operand is widened to the type of the operation if it is of another one. -/
theorem chain_meet {t : ValueType} {b : BasicType} (h : t.MeetsAt b) (st : List Operand) :
    Chain m result holds (optional (t.basic ≠ b) .widen) (.value t :: st) (.value (.scalar b) :: st) := by
  rcases h with rfl | ⟨rfl, rfl⟩
  · simp only [ValueType.scalar, optional, ne_eq, not_true_eq_false, decide_false]
    exact .nil _
  · exact .one .widen st

theorem chain_assignable {target value : ValueType} (h : assignable target value = true)
    (st : List Operand) :
    Chain m result holds (optional (needsWidening value target) .widen) (.value value :: st)
      (.value target :: st) := by
  rcases assignable_cases h with rfl | ⟨rfl, rfl⟩
  · have hn : needsWidening value value = false := by
      unfold needsWidening
      cases hv : decide (value = .int) with
      | false => rfl
      | true => rw [of_decide_eq_true hv]; rfl
    rw [hn]
    exact .nil _
  · exact .one .widen st

mutual

/-- The code of an expression leaves its value on the stack. -/
theorem chain_code : ∀ (e : TypedExpr), (∀ u ∈ e.uses, Known m holds c σ u) →
    e.WellTyped c.defs → ∀ st, Chain m result holds (e.code c σ) st (.value e.type :: st)
  | .literal value info, _, ⟨ht, hs⟩, st => by
    have hpush : Effect m result holds (pushLiteral value) [] [.value info.type] := by
      rw [ht]
      cases value with
      | int n => exact .pushInt n
      | real x => exact .pushReal x
      | string s => exact .pushStr s
    exact .cons hpush st (chain_sign hs st)
  | .binary op operand left right info, hu, ⟨hl, hr, hb, hs⟩, st => by
    obtain ⟨hml, hmr, hop⟩ := binaryResult_operand hb
    have left_chain := chain_code left (fun u hm => hu u (List.mem_append_left _ hm)) hl st
    have right_chain := chain_code right (fun u hm => hu u (List.mem_append_right _ hm)) hr
      (.value (.scalar operand) :: st)
    have hend : Chain m result holds (.binary op operand :: signCode info)
        (.value (.scalar operand) :: .value (.scalar operand) :: st) (.value info.type :: st) :=
      .cons (.binary hop) st (chain_sign hs st)
    exact left_chain.append ((chain_meet hml st).append (right_chain.append
      ((chain_meet hmr _).append hend)))
  | .not operand info, hu, ⟨he, hb, hs⟩, st => by
    obtain ⟨hop, hres⟩ := notResult_eq hb
    have hcode := chain_code operand hu he st
    rw [hop] at hcode
    have hend : Chain m result holds (.not :: signCode info) (.value .bool :: st)
        (.value info.type :: st) := by
      refine .cons .not st ?_
      rw [← hres]
      exact chain_sign hs st
    exact hcode.append hend
  | .call callee args info, hu, ⟨i, hg, hn, ha, ht, hv, hs⟩, st => by
    obtain ⟨r, hr, hparams, hresult⟩ := hu (.callee callee) (List.mem_cons_self ..) i hg hn
    have hargs := chain_args i.params args (fun u hm => hu u (List.mem_cons_of_mem _ hm)) ha st
    have hgiven : resultOperands r.result = [.value info.type] := by
      unfold resultOperands
      rw [hresult, ← ht, hv, if_neg Bool.false_ne_true]
    have hcall : Effect m result holds (.call (c.routine callee)) _ _ := .call hr
    rw [hparams, List.map_map, hgiven] at hcall
    rw [code, Defs.paramsOf_eq hg]
    exact hargs.append (.cons hcall st (chain_sign hs st))
  | .size array info, hu, ⟨he, ha, hi, hs⟩, st => by
    have hcode := chain_code array hu he st
    have hend : Chain m result holds (.arrayLen :: signCode info) (.value array.type :: st)
        (.value info.type :: st) := by
      refine .cons (effect_arrayLen ha) st ?_
      rw [← hi]
      exact chain_sign hs st
    exact hcode.append hend
  | .name id info, hu, ⟨ht, _, hs⟩, st => by
    have hload : Chain m result holds _ st _ :=
      chain_variable (hu (.place id) (List.mem_cons_self ..)) st
    rw [← ht] at hload
    exact hload.append (chain_sign hs st)
  | .element id index info, hu, ⟨ha, he, hi, ht, _, hs⟩, st => by
    have hload : Chain m result holds _ st _ :=
      chain_variable (hu (.place id) (List.mem_cons_self ..)) st
    have hindex := chain_code index (fun u hm => hu u (List.mem_cons_of_mem _ hm)) he
      (.value (c.defs.typeOf id) :: st)
    rw [hi] at hindex
    have hend : Chain m result holds (.loadElem (c.defs.typeOf id).basic :: signCode info)
        (.value .int :: .value (c.defs.typeOf id) :: st) (.value info.type :: st) := by
      refine .cons (effect_loadElem ha) st ?_
      rw [← ht]
      exact chain_sign hs st
    exact hload.append (hindex.append hend)
  | .bad _, _, h, _ => h.elim

/-- The address of a place is left on the stack. -/
theorem chain_address : ∀ (e : TypedExpr), (∀ u ∈ e.uses, Known m holds c σ u) →
    e.WellTyped c.defs → e.isVariable = true →
    ∀ st, Chain m result holds (e.addressCode c σ) st (.address e.type :: st)
  | .name id info, hu, ⟨ht, _⟩, _, st => by
    have haddr : Chain m result holds _ st _ :=
      chain_addressOf (hu (.place id) (List.mem_cons_self ..)) st
    rw [← ht] at haddr
    exact haddr
  | .element id index info, hu, ⟨ha, he, hi, ht, _⟩, _, st => by
    have hload : Chain m result holds _ st _ :=
      chain_variable (hu (.place id) (List.mem_cons_self ..)) st
    have hindex := chain_code index (fun u hm => hu u (List.mem_cons_of_mem _ hm)) he
      (.value (c.defs.typeOf id) :: st)
    rw [hi] at hindex
    have hend : Chain m result holds [.elemAddr (c.defs.typeOf id).basic]
        (.value .int :: .value (c.defs.typeOf id) :: st) (.address info.type :: st) := by
      rw [ht]
      exact .one (effect_elemAddr ha) st
    exact hload.append (hindex.append hend)
  | .literal _ _, _, _, hv, _ => by simp [isVariable, isPlace] at hv
  | .binary _ _ _ _ _, _, _, hv, _ => by simp [isVariable, isPlace] at hv
  | .not _ _, _, _, hv, _ => by simp [isVariable, isPlace] at hv
  | .call _ _ _, _, _, hv, _ => by simp [isVariable, isPlace] at hv
  | .size _ _, _, _, hv, _ => by simp [isVariable, isPlace] at hv
  | .bad _, _, _, hv, _ => by simp [isVariable, isPlace] at hv

/-- Every argument is left as its parameter is declared. -/
theorem chain_args : ∀ (params : List DefId) (args : List TypedExpr),
    (∀ u ∈ usesAll args, Known m holds c σ u) → WellTypedArgs c.defs params args → ∀ st,
    Chain m result holds (argsCode c σ params args) st
      ((params.map (ParamDecl.operand ∘ paramDecl c.defs)).reverse ++ st)
  | [], [], _, _, st => by
    rw [argsCode]
    exact .nil st
    all_goals exact nofun
  | [], _ :: _, _, h, _ => h.elim
  | _ :: _, [], _, h, _ => h.elim
  | param :: params, arg :: args, hu, ⟨he, ht, hs⟩, st => by
    have hrest := chain_args params args (fun u hm => hu u (List.mem_append_right _ hm)) hs
      (c.defs.operandOf param :: st)
    have hone : Chain m result holds (if c.defs.isByRef param then addressCode c σ arg
        else code c σ arg ++ optional (needsWidening arg.type (c.defs.typeOf param)) .widen) st
        (c.defs.operandOf param :: st) := by
      unfold Defs.Takes at ht
      unfold Defs.operandOf
      split
      · next hr =>
        rw [if_pos hr] at ht
        have haddr := chain_address arg (fun u hm => hu u (List.mem_append_left _ hm)) he ht.1 st
        rw [ht.2] at haddr
        exact haddr
      · next hr =>
        rw [if_neg hr] at ht
        exact (chain_code arg (fun u hm => hu u (List.mem_append_left _ hm)) he st).append
          (chain_assignable ht st)
    rw [argsCode, List.map_cons, List.reverse_cons, List.append_assoc]
    exact hone.append hrest

end

end Chains

end StackPascal
