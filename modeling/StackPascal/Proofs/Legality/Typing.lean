import StackPascal.Proofs.Legality.Rules

/-!
What the rules of type amount to.

* `binaryResult_iff`, `assigns_iff`: the tables of the analysis are those of the
  rules;
* `HasType.unique`: the rules give an expression at most one type;
* `hasType_signed`: a sign is checked after everything else;
* `HasType.congr`: only what is called, and the variables, matter to them.
-/

namespace StackPascal

open Analyze

/-! ## Types -/

theorem Meet.unique {a b c d : BasicType} (h : Meet a b c) (k : Meet a b d) : c = d := by
  cases h <;> cases k <;> rfl

theorem meet_iff {a b c : BasicType} :
    Meet a b c ↔ commonType (.scalar a) (.scalar b) = some c := by
  constructor
  · intro h
    cases h with
    | same h => cases a <;> first | rfl | exact absurd rfl h
    | intReal => rfl
    | realInt => rfl
  · intro h
    cases a <;> cases b <;> cases h <;>
      first | exact .same (by decide) | exact .intReal | exact .realInt

theorem commonType_scalars {l r : ValueType} {c : BasicType} (h : commonType l r = some c) :
    ∃ a b, l = .scalar a ∧ r = .scalar b ∧ Meet a b c := by
  obtain ⟨a, la⟩ := l
  obtain ⟨b, ra⟩ := r
  have harrays : (la || ra) = false := by
    cases hs : la || ra with
    | false => rfl
    | true => simp [commonType, hs] at h
  obtain ⟨rfl, rfl⟩ := Bool.or_eq_false_iff.mp harrays
  exact ⟨a, b, rfl, rfl, meet_iff.mpr h⟩

theorem Meet.not_void {a b c : BasicType} (h : Meet a b c) : c ≠ .void := by
  cases h with
  | same h => exact h
  | intReal => decide
  | realInt => decide

theorem operates_iff {op : BinOp} {c t : BasicType} (hc : c ≠ .void) :
    Operates op c t ↔ if op.isComparison then t = .bool else operandType op c = some t := by
  constructor
  · intro h
    cases h with
    | int h => cases op <;> first | rfl | simp at h
    | quotient => rfl
    | real h => cases op <;> first | rfl | simp at h
    | string => rfl
    | bool h => cases op <;> first | rfl | simp at h
    | comparison h => cases op <;> first | rfl | simp at h
  · intro h
    cases hop : op.isComparison with
    | true =>
      rw [hop, if_pos rfl] at h
      subst h
      exact .comparison (by cases op <;> simp_all [BinOp.isComparison]) hc
    | false =>
      rw [hop, if_neg (by decide)] at h
      cases c <;> cases op <;> cases h <;>
        first
        | exact .int (by decide) | exact .quotient | exact .real (by decide) | exact .string
        | exact .bool (by decide)

theorem Operates.not_void {op : BinOp} {c t : BasicType} (h : Operates op c t) : c ≠ .void := by
  cases h with
  | comparison _ h => exact h
  | _ => decide

theorem Operates.unique {op : BinOp} {c t u : BasicType} (h : Operates op c t)
    (k : Operates op c u) : t = u := by
  have ht := (operates_iff h.not_void).mp h
  have hu := (operates_iff k.not_void).mp k
  split at ht
  · next hop =>
    rw [if_pos hop] at hu
    exact ht.trans hu.symm
  · next hop =>
    rw [if_neg hop] at hu
    exact Option.some.inj (ht.symm.trans hu)

/-- The table of the operators is that of the rules. -/
theorem binaryResult_iff {op : BinOp} {l r type : ValueType} :
    (∃ operand, binaryResult op l r = some (operand, type)) ↔
      ∃ a b c t, l = .scalar a ∧ r = .scalar b ∧ type = .scalar t ∧ Meet a b c ∧
        Operates op c t := by
  unfold binaryResult
  constructor
  · rintro ⟨operand, h⟩
    cases hc : commonType l r with
    | none => rw [hc] at h; cases h
    | some c =>
      obtain ⟨a, b, rfl, rfl, hm⟩ := commonType_scalars hc
      rw [hc] at h
      dsimp only at h
      split at h
      · next hop =>
        cases h
        refine ⟨a, b, _, .bool, rfl, rfl, rfl, hm, (operates_iff hm.not_void).mpr ?_⟩
        rw [if_pos hop]
      · next hop =>
        obtain ⟨t, ht, he⟩ := Option.map_eq_some_iff.mp h
        cases he
        refine ⟨a, b, c, operand, rfl, rfl, rfl, hm, (operates_iff hm.not_void).mpr ?_⟩
        rw [if_neg hop]
        exact ht
  · rintro ⟨a, b, c, t, rfl, rfl, rfl, hm, ho⟩
    rw [meet_iff.mp hm]
    have ho := (operates_iff hm.not_void).mp ho
    dsimp only
    split at ho
    · next hop =>
      subst ho
      exact ⟨c, if_pos hop⟩
    · next hop =>
      refine ⟨t, ?_⟩
      rw [if_neg hop, ho]
      rfl

theorem assigns_iff {t v : ValueType} (hv : v.isVoid = false) :
    assignable t v = true ↔ Assigns t v := by
  obtain ⟨a, ta⟩ := t
  obtain ⟨b, va⟩ := v
  constructor
  · intro h
    unfold assignable at h
    split at h
    · cases of_decide_eq_true h
      exact .same
    · next hs =>
      obtain ⟨rfl, rfl⟩ := Bool.or_eq_false_iff.mp (Bool.not_eq_true _ ▸ hs)
      obtain ⟨_, _, ha, hb, hm⟩ := commonType_scalars (of_decide_eq_true h)
      cases ha
      cases hb
      cases hm with
      | same => exact .same
      | realInt => exact .widened
  · intro h
    cases h with
    | same =>
      cases ta with
      | true => simp [assignable]
      | false => cases a <;> first | rfl | cases hv
    | widened => rfl

theorem isNumeric_iff {t : ValueType} : t.isNumeric = true ↔ t = .int ∨ t = .real := by
  obtain ⟨b, a⟩ := t
  cases b <;> cases a <;> decide

theorem Sign.Fits.plus (t : ValueType) : Sign.plus.Fits t := nofun

theorem literalType_eq (v : Literal) : literalType v = v.type := by cases v <;> rfl

/-! ## At most one type -/

theorem HasType.unique {Γ : Context} : ∀ {e : Expr} {t u : ValueType},
    HasType Γ e t → HasType Γ e u → t = u
  | .literal .., _, _, h, k => by cases h; cases k; rfl
  | .binary .., _, _, h, k => by
    cases h with
    | binary hl hr hm ho =>
    cases k with
    | binary kl kr km ko =>
    cases HasType.unique hl kl
    cases HasType.unique hr kr
    cases hm.unique km
    cases ho.unique ko
    rfl
  | .not .., _, _, h, k => by cases h; cases k; rfl
  | .call .., _, _, h, k => by
    cases h with
    | call hf =>
    cases k with
    | call kf => cases hf.symm.trans kf; rfl
  | .member .., _, _, h, k => by cases h; cases k; rfl
  | .name .., _, _, h, k => by
    cases h with
    | name hf =>
    cases k with
    | name kf => cases hf.symm.trans kf; rfl
  | .element .., _, _, h, k => by
    cases h with
    | element hf =>
    cases k with
    | element kf => cases hf.symm.trans kf; rfl

/-- The sign is checked last. -/
theorem hasType_signed {Γ : Context} {e : Expr} {sign : Sign} {t : ValueType}
    (hs : e.sign = .plus) :
    HasType Γ (e.signed sign) t ↔ HasType Γ e t ∧ sign.Fits t := by
  cases sign with
  | plus => exact ⟨fun h => ⟨h, .plus t⟩, fun h => h.1⟩
  | minus =>
    cases e <;> cases hs <;> constructor
    · intro h; cases h with | literal hf => exact ⟨.literal (.plus _), hf⟩
    · rintro ⟨h, hf⟩; cases h with | literal _ => exact .literal hf
    · intro h
      cases h with | binary hl hr hm ho hf => exact ⟨.binary hl hr hm ho (.plus _), hf⟩
    · rintro ⟨h, hf⟩; cases h with | binary hl hr hm ho _ => exact .binary hl hr hm ho hf
    · intro h; cases h with | not he hf => exact ⟨.not he (.plus _), hf⟩
    · rintro ⟨h, hf⟩; cases h with | not he _ => exact .not he hf
    · intro h; cases h with | call hc ha hf => exact ⟨.call hc ha (.plus _), hf⟩
    · rintro ⟨h, hf⟩; cases h with | call hc ha _ => exact .call hc ha hf
    · intro h; cases h with | size hb hm hf => exact ⟨.size hb hm (.plus _), hf⟩
    · rintro ⟨h, hf⟩; cases h with | size hb hm _ => exact .size hb hm hf
    · intro h; cases h with | name hn hf => exact ⟨.name hn (.plus _), hf⟩
    · rintro ⟨h, hf⟩; cases h with | name hn _ => exact .name hn hf
    · intro h; cases h with | element hn hi hf => exact ⟨.element hn hi (.plus _), hf⟩
    · rintro ⟨h, hf⟩; cases h with | element hn hi _ => exact .element hn hi hf

/-! ## What an expression depends on -/

/-- Whatever is a variable in the one context is the same variable in the other. -/
def Context.Within (Γ Δ : Context) : Prop :=
  ∀ name t, Γ.find? name = some (.variable t) → Δ.find? name = some (.variable t)

section Congruence

variable {Γ Δ : Context}

mutual

theorem HasType.congr (hv : Γ.Within Δ) : ∀ {e : Expr} {t : ValueType},
    (∀ name ∈ e.callees, Γ.find? name = Δ.find? name) → HasType Γ e t → HasType Δ e t
  | .literal .., _, _, h => by cases h with | literal hf => exact .literal hf
  | .binary _ l r _ _, _, hc, h => by
    cases h with
    | binary hl hr hm ho hf =>
    refine .binary (HasType.congr hv (fun n hn => hc n ?_) hl)
      (HasType.congr hv (fun n hn => hc n ?_) hr) hm ho hf
    · exact List.mem_append_left _ hn
    · exact List.mem_append_right _ hn
  | .not .., _, hc, h => by
    cases h with
    | not he hf => exact .not (HasType.congr hv hc he) hf
  | .call callee args _, _, hc, h => by
    cases h with
    | call hf ha hs =>
    obtain ⟨hname, hargs⟩ := List.forall_mem_cons.mp hc
    exact .call (hname ▸ hf) (passes_congr hv hargs ha) hs
  | .member .., _, hc, h => by
    cases h with
    | size hb hm hf => exact .size (HasType.congr hv hc hb) hm hf
  | .name .., _, _, h => by
    cases h with
    | name hn hf => exact .name (hv _ _ hn) hf
  | .element .., _, hc, h => by
    cases h with
    | element hn hi hf => exact .element (hv _ _ hn) (HasType.congr hv hc hi) hf

theorem passes_congr (hv : Γ.Within Δ) : ∀ {params : List Formal} {args : List Expr},
    (∀ name ∈ Expr.calleesAll args, Γ.find? name = Δ.find? name) →
    List.Forall₂ (Passes Γ) params args → List.Forall₂ (Passes Δ) params args
  | _, [], _, h => by
    cases h
    exact .nil
  | _, e :: args, hc, h => by
    cases h with
    | cons hp ha =>
    obtain ⟨he, hargs⟩ := List.forall_mem_append.mp hc
    refine .cons ?_ (passes_congr hv hargs ha)
    cases hp with
    | value ht hass => exact .value (HasType.congr hv he ht) hass
    | reference ht hvar => exact .reference (HasType.congr hv he ht) hvar

end

end Congruence

end StackPascal
