import StackPascal.Proofs.Execution.Correspondence

/-!
The code of an expression pushes its value.

* `Pushes`, `Turns`: what straight code does to the operand stack;
* `pushes_variable`, `pushes_code`, `pushes_codeAs`: the value of a variable, of an
  expression, and of an expression for a place of a given type.
-/

namespace StackPascal

open Gen TypedExpr

section Straight

variable (P : Primitives) (m : Memory)

/-- The code pushes `w` and leaves the memory as it is. -/
def Pushes (is : List Instr) (w : Word) : Prop :=
  ∀ ws, execute P is ⟨ws, m⟩ = some ⟨w :: ws, m⟩

/-- The code turns `w` on top of the stack into `w'`. -/
def Turns (is : List Instr) (w w' : Word) : Prop :=
  ∀ ws, execute P is ⟨w :: ws, m⟩ = some ⟨w' :: ws, m⟩

variable {P m}

theorem Pushes.turned {is js : List Instr} {w w' : Word} (h : Pushes P m is w)
    (ht : Turns P m js w w') : Pushes P m (is ++ js) w' := by
  intro ws
  rw [execute_append, h ws]
  exact ht ws

theorem turns_none (w : Word) : Turns P m [] w w := fun _ => rfl

end Straight

/-! ## Scalars -/

theorem Value.scalar_word? (arrays : List Nat) (x : Scalar) :
    (Value.scalar x).word? arrays = some (.scalar x) := rfl

theorem Value.word?_scalar {arrays : List Nat} {v : Value} {x : Scalar} {w : Word}
    (hx : v.scalar? = some x) (hw : v.word? arrays = some w) : w = .scalar x := by
  cases v with
  | scalar y =>
    obtain rfl := Option.some.inj hx
    exact (Option.some.inj hw).symm
  | array r => cases hx

theorem Value.word?_array {arrays : List Nat} {v : Value} {r : Nat} {w : Word}
    (hr : v.array? = some r) (hw : v.word? arrays = some w) :
    ∃ r', arrays[r]? = some r' ∧ w = .array r' := by
  cases v with
  | scalar x => cases hr
  | array q =>
    obtain rfl := Option.some.inj hr
    obtain ⟨r', hr', rfl⟩ := Option.map_eq_some_iff.mp hw
    exact ⟨r', hr', rfl⟩

/-- An index or a length is a scalar. -/
theorem Value.word?_nat {arrays : List Nat} {v : Value} {n : Nat} {w : Word} (hn : v.nat? = some n)
    (hw : v.word? arrays = some w) : ∃ x : Scalar, x.nat? = some n ∧ w = .scalar x := by
  obtain ⟨x, hx, hn⟩ := Option.bind_eq_some_iff.mp hn
  exact ⟨x, hn, word?_scalar hx hw⟩

theorem Value.eq_bool {v : Value} {b : Bool} (h : v.bool? = some b) : v = .scalar (.bool b) := by
  rcases v with (_ | _ | _ | b') | _ <;> cases h
  rfl

section Turned

variable {P : Primitives} {m : Memory} {arrays : List Nat} {v v' : Value} {w : Word}

theorem turns_sign {info : ExprInfo} (h : P.signed info v = some v') (hw : v.word? arrays = some w) :
    ∃ w', v'.word? arrays = some w' ∧ Turns P m (signCode info) w w' := by
  unfold Primitives.signed at h
  unfold signCode
  split at h
  · next hs =>
    obtain ⟨x, hx, h⟩ := Option.bind_eq_some_iff.mp h
    obtain ⟨y, hy, h⟩ := Option.bind_eq_some_iff.mp h
    obtain rfl := Option.some.inj h
    obtain rfl := Value.word?_scalar hx hw
    refine ⟨.scalar y, rfl, fun ws => ?_⟩
    simp only [hs, optional, decide_true, if_true, execute, Instr.act, hy, Option.map_some,
      Option.bind_some]
  · next hs =>
    obtain rfl := Option.some.inj h
    refine ⟨w, hw, ?_⟩
    rw [decide_eq_false hs]
    exact turns_none w

theorem turns_widen {needed : Bool} (h : P.widened needed v = some v') (hw : v.word? arrays = some w) :
    ∃ w', v'.word? arrays = some w' ∧ Turns P m (optional needed .widen) w w' := by
  unfold Primitives.widened at h
  split at h
  · next hn =>
    obtain ⟨x, hx, h⟩ := Option.bind_eq_some_iff.mp h
    obtain ⟨y, hy, h⟩ := Option.bind_eq_some_iff.mp h
    obtain rfl := Option.some.inj h
    obtain rfl := Value.word?_scalar hx hw
    refine ⟨.scalar y, rfl, fun ws => ?_⟩
    simp only [hn, optional, if_true, execute, Instr.act, hy, Option.map_some, Option.bind_some]
  · next hn =>
    obtain rfl := Option.some.inj h
    refine ⟨w, hw, ?_⟩
    rw [Bool.eq_false_of_not_eq_true hn]
    exact turns_none w

end Turned

/-! ## Variables -/

section Expressions

variable {P : Primitives} {c : GenContext} {f : DefId} {refs : DefId → Option Location}
  {cell : Nat → Cell} {arrays : List Nat} {L : Layout} {Γ : List DefId} {st : Store} {m : Memory}
  (h : Corresponds c refs cell arrays L Γ st m) (hl : Linked (c.activation refs) cell L Γ)

include hl in
/-- What a variable stands for is visible. -/
theorem seen_locate {id : DefId} (hid : id ∈ Γ) (hvar : c.defs.isVariable id = true) {l : Location}
    (h : (c.activation refs).locate id = some l) : l.Seen c.defs Γ := by
  unfold Activation.locate at h
  split at h
  · next href =>
    cases l with
    | named u =>
      obtain ⟨hu, _, hvar, href⟩ := hl.refs id hid hvar href u h
      exact ⟨hu, hvar, href⟩
    | outside n => trivial
    | element r i => trivial
  · next href =>
    obtain rfl := Option.some.inj h
    exact ⟨hid, hvar, Bool.eq_false_of_not_eq_true href⟩

include h hl

theorem pushes_variable {id : DefId} (hid : id ∈ Γ) (hvar : c.defs.isVariable id = true) {v : Value}
    (hv : (c.activation refs).get st id = some v) :
    ∃ w, v.word? arrays = some w ∧ Pushes P m (variableCode c L.storage id) w := by
  obtain ⟨l, hloc, hread⟩ := Option.bind_eq_some_iff.mp hv
  have hseen := seen_locate hl hid hvar hloc
  unfold Activation.locate at hloc
  unfold variableCode
  cases href : c.defs.isByRef id with
  | true =>
    rw [if_pos href] at hloc
    obtain ⟨ad, had, hcell⟩ := h.refs id hid hvar href l hloc
    obtain ⟨w, hw, hmem⟩ := h.read hseen had hread
    refine ⟨w, hw, fun ws => ?_⟩
    simp only [optional, if_true, execute, Instr.act, hcell, hmem, Option.map_some, Option.bind_some]
  | false =>
    rw [if_neg (by simp [href])] at hloc
    obtain rfl := Option.some.inj hloc
    obtain ⟨w, hw, hcell⟩ := h.vars id hid hvar href v hread
    refine ⟨w, hw, fun ws => ?_⟩
    simp only [optional, Bool.false_eq_true, if_false, execute, Instr.act, hcell, Option.map_some,
      Option.bind_some]

/-! ## Expressions -/

theorem pushes_code : ∀ (e : TypedExpr) {v : Value}, (∀ u ∈ e.uses, (c.defs.closedRules f).use Γ u) →
    e.eval P (c.activation refs) st = some v →
    ∃ w, v.word? arrays = some w ∧ Pushes P m (e.code c L.storage) w
  | .literal value info, v, _, hv => by
    obtain ⟨w, hw, ht⟩ := turns_sign (m := m) hv (Value.scalar_word? arrays _)
    have hpush : Pushes P m [pushLiteral value] (.scalar value.scalar) := fun ws => by
      cases value <;> rfl
    exact ⟨w, hw, hpush.turned ht⟩
  | .binary op operand left right info, v, hu, hv => by
    simp only [eval, Option.bind_eq_bind, Option.bind_eq_some_iff] at hv
    obtain ⟨v₁, h₁, v₁', hw₁, v₂, h₂, v₂', hw₂, x, hx, y, hy, z, hz, hv⟩ := hv
    obtain ⟨w₁, he₁, hl₁⟩ := pushes_code left (fun u hm => hu u (List.mem_append_left _ hm)) h₁
    obtain ⟨w₁', he₁', ht₁⟩ := turns_widen (m := m) hw₁ he₁
    obtain ⟨w₂, he₂, hl₂⟩ := pushes_code right (fun u hm => hu u (List.mem_append_right _ hm)) h₂
    obtain ⟨w₂', he₂', ht₂⟩ := turns_widen (m := m) hw₂ he₂
    obtain rfl := Value.word?_scalar hx he₁'
    obtain rfl := Value.word?_scalar hy he₂'
    obtain ⟨w, hw, ht⟩ := turns_sign (m := m) hv (Value.scalar_word? arrays _)
    refine ⟨w, hw, fun ws => ?_⟩
    have hleft := hl₁.turned ht₁ ws
    have hright := hl₂.turned ht₂ (.scalar x :: ws)
    rw [code, ← List.append_assoc, ← List.append_assoc (right.code _ _), execute_append, hleft,
      Option.bind_some, execute_append, hright, Option.bind_some, execute, Instr.act, hz]
    exact ht ws
  | .not operand info, v, hu, hv => by
    simp only [eval, Option.bind_eq_bind, Option.bind_eq_some_iff] at hv
    obtain ⟨v₁, h₁, x, hx, y, hy, hv⟩ := hv
    obtain ⟨w₁, he₁, hl₁⟩ := pushes_code operand hu h₁
    obtain rfl := Value.word?_scalar hx he₁
    obtain ⟨w, hw, ht⟩ := turns_sign (m := m) hv (Value.scalar_word? arrays _)
    refine ⟨w, hw, fun ws => ?_⟩
    rw [code, execute_append, hl₁ ws, Option.bind_some, execute, Instr.act, hy]
    exact ht ws
  | .size array info, v, hu, hv => by
    simp only [eval, Option.bind_eq_bind, Option.bind_eq_some_iff] at hv
    obtain ⟨v₁, h₁, r, hr, n, hn, hv⟩ := hv
    obtain ⟨w₁, he₁, hl₁⟩ := pushes_code array hu h₁
    obtain ⟨r', hr', rfl⟩ := Value.word?_array hr he₁
    obtain ⟨w, hw, ht⟩ := turns_sign (m := m) hv (Value.scalar_word? arrays _)
    refine ⟨w, hw, fun ws => ?_⟩
    rw [code, execute_append, hl₁ ws, Option.bind_some, execute, Instr.act, h.heap.size hr', hn]
    exact ht ws
  | .name id info, v, hu, hv => by
    simp only [eval, Option.bind_eq_bind, Option.bind_eq_some_iff] at hv
    obtain ⟨v₁, h₁, hv⟩ := hv
    obtain ⟨hid, hvar⟩ := hu (.place id) (List.mem_cons_self ..)
    obtain ⟨w₁, he₁, hl₁⟩ := pushes_variable h hl hid hvar h₁
    obtain ⟨w, hw, ht⟩ := turns_sign (m := m) hv he₁
    exact ⟨w, hw, hl₁.turned ht⟩
  | .element id index info, v, hu, hv => by
    simp only [eval, Option.bind_eq_bind, Option.bind_eq_some_iff] at hv
    obtain ⟨v₁, h₁, r, hr, v₂, h₂, i, hi, x, hx, hv⟩ := hv
    obtain ⟨hid, hvar⟩ := hu (.place id) (List.mem_cons_self ..)
    obtain ⟨w₁, he₁, hl₁⟩ := pushes_variable h hl hid hvar h₁
    obtain ⟨r', hr', rfl⟩ := Value.word?_array hr he₁
    obtain ⟨w₂, he₂, hl₂⟩ := pushes_code index (fun u hm => hu u (List.mem_cons_of_mem _ hm)) h₂
    obtain ⟨y, hy, rfl⟩ := Value.word?_nat hi he₂
    have hread : m.heap.read r' i = some x := (h.heap.read hr').trans hx
    have hload (ws : List Word) : (Instr.loadElem (c.defs.typeOf id).basic).act P
        ⟨.scalar y :: .array r' :: ws, m⟩ = some ⟨.scalar x :: ws, m⟩ := by
      rw [Instr.act, hy, Option.bind_eq_bind, Option.bind_some, hread]
      rfl
    obtain ⟨w, hw, ht⟩ := turns_sign (m := m) hv (Value.scalar_word? arrays _)
    refine ⟨w, hw, fun ws => ?_⟩
    rw [code, execute_append, hl₁ ws, Option.bind_some, execute_append, hl₂ (.array r' :: ws),
      Option.bind_some, execute, hload]
    exact ht ws
  | .call _ _ _, v, _, hv => by cases hv
  | .bad _, v, _, hv => by cases hv

theorem pushes_codeAs {e : TypedExpr} {target : ValueType} {v : Value}
    (hu : ∀ u ∈ e.uses, (c.defs.closedRules f).use Γ u)
    (hv : e.evalAs P (c.activation refs) st target = some v) :
    ∃ w, v.word? arrays = some w ∧ Pushes P m (e.codeAs c L.storage target) w := by
  obtain ⟨v₁, h₁, hv⟩ := Option.bind_eq_some_iff.mp hv
  obtain ⟨w₁, he₁, hl₁⟩ := pushes_code h hl e hu h₁
  obtain ⟨w, hw, ht⟩ := turns_widen (m := m) hv he₁
  exact ⟨w, hw, hl₁.turned ht⟩

/-- A condition is pushed as a truth value. -/
theorem pushes_holds {e : TypedExpr} {b : Bool} (hu : ∀ u ∈ e.uses, (c.defs.closedRules f).use Γ u)
    (hb : e.holds P (c.activation refs) st = some b) :
    Pushes P m (e.code c L.storage) (.scalar (.bool b)) := by
  obtain ⟨v, hv, hb⟩ := Option.bind_eq_some_iff.mp hb
  obtain ⟨w, hw, hp⟩ := pushes_code h hl e hu hv
  obtain rfl := Value.eq_bool hb
  obtain rfl := Option.some.inj hw
  exact hp

end Expressions

end StackPascal
