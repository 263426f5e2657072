import StackPascal.Instr
import StackPascal.Proofs.Listing.Reals

/-!
The texts that a listing is made of.

* `Lacks`: a text without a certain character, which may end it (`append_sep_inj`);
* `quoted_injective`: a quoted text can be read back, character by character;
* `Instr.render_injective`: an instruction is known from its text: the first word says
  which one it is, and the rest is what it is done with.
-/

namespace StackPascal

/-! ## Separators -/

/-- Lists are told apart part by part if only the first parts have the property. -/
theorem append_inj_of_head {α : Type} {p : α → Prop} {xs xs' ys ys' : List α}
    (hxs : ∀ a ∈ xs, p a) (hxs' : ∀ a ∈ xs', p a) (hys : ∀ a, ys.head? = some a → ¬ p a)
    (hys' : ∀ a, ys'.head? = some a → ¬ p a) (h : xs ++ ys = xs' ++ ys') : xs = xs' ∧ ys = ys' := by
  induction xs generalizing xs' with
  | nil =>
    cases xs' with
    | nil => exact ⟨rfl, h⟩
    | cons x' xs' => exact absurd (hxs' x' List.mem_cons_self) (hys x' (congrArg List.head? h))
  | cons x xs ih =>
    cases xs' with
    | nil => exact absurd (hxs x List.mem_cons_self) (hys' x (congrArg List.head? h.symm))
    | cons x' xs' =>
      obtain ⟨rfl, hrest⟩ := List.cons.inj h
      obtain ⟨rfl, hys⟩ := ih (fun a ha => hxs a (List.mem_cons_of_mem x ha))
        (fun a ha => hxs' a (List.mem_cons_of_mem x ha)) hrest
      exact ⟨rfl, hys⟩

def Lacks (c : Char) (s : String) : Prop := c ∉ s.toList

instance (c : Char) (s : String) : Decidable (Lacks c s) := inferInstanceAs (Decidable (¬ _))

@[simp] theorem lacks_append {c : Char} {s t : String} : Lacks c (s ++ t) ↔ Lacks c s ∧ Lacks c t := by
  unfold Lacks
  rw [String.toList_append, List.mem_append, not_or]

/-- A text without the separator ends where the first one stands. -/
theorem append_sep_inj (c : Char) {sep a a' b b' : String} (hsep : sep.toList.head? = some c)
    (ha : Lacks c a) (ha' : Lacks c a') (h : a ++ (sep ++ b) = a' ++ (sep ++ b')) :
    a = a' ∧ b = b' := by
  have hstop : ∀ (t : String) (d : Char), (sep ++ t).toList.head? = some d → ¬ d ≠ c := by
    intro t d hd
    rw [String.toList_append, List.head?_append_of_ne_nil _ (by rintro hnil; simp [hnil] at hsep),
      hsep] at hd
    exact not_not.mpr (Option.some.inj hd).symm
  have hlists : a.toList ++ (sep ++ b).toList = a'.toList ++ (sep ++ b').toList := by
    rw [← String.toList_append, h, String.toList_append]
  obtain ⟨hfront, hback⟩ := append_inj_of_head (fun d hd => ne_of_mem_of_not_mem hd ha)
    (fun d hd => ne_of_mem_of_not_mem hd ha') (hstop b) (hstop b') hlists
  exact ⟨String.toList_injective hfront,
    (String.append_right_inj sep).mp (String.toList_injective hback)⟩

/-! ## Numbers -/

theorem lacks_nat {c : Char} (hc : c.isDigit = false) (n : Nat) : Lacks c (toString n) := by
  intro h
  rw [Nat.toString_eq_ofList_toDigits, String.toList_ofList] at h
  rw [Nat.isDigit_of_mem_toDigits (by decide) (Nat.le_refl 10) h] at hc
  cases hc

theorem toString_nat_inj {m n : Nat} (h : toString m = toString n) : m = n := by
  rw [Nat.toString_eq_ofList_toDigits, Nat.toString_eq_ofList_toDigits, String.ofList_inj] at h
  rw [← Binary64.digitsValue_toDigits m, h, Binary64.digitsValue_toDigits]

/-- An integer is read back as the exponent that it would be. -/
theorem toString_int_inj {m n : Int} (h : toString m = toString n) : m = n := by
  have hread : ∀ k : Int, Binary64.readExponent ('e' :: (toString k).toList) = some k := by
    intro k
    rw [← Binary64.chars_exponentOf, Binary64.readExponent_chars, Binary64.value_exponentOf]
  have hm := hread m
  rw [h, hread n] at hm
  exact (Option.some.inj hm).symm

/-! ## Quoted texts -/

namespace Text

def hexDigits : List Char := "0123456789abcdef".toList

def hexValue (ds : List Char) : Nat := ds.foldl (fun n c => 16 * n + hexDigits.idxOf c) 0

theorem digitChar_hex {d : Nat} (h : d < 16) :
    d.digitChar ∈ hexDigits ∧ hexDigits.idxOf d.digitChar = d := by
  revert d
  decide

theorem hexValue_toDigits (n : Nat) :
    (∀ c ∈ Nat.toDigits 16 n, c ∈ hexDigits) ∧ hexValue (Nat.toDigits 16 n) = n := by
  induction n using Nat.strongRecOn with
  | ind n ih =>
    by_cases h : n < 16
    · rw [Nat.toDigits_of_lt_base h]
      exact ⟨List.forall_mem_singleton.mpr (digitChar_hex h).1, by simp [hexValue, (digitChar_hex h).2]⟩
    · obtain ⟨hmem, hvalue⟩ := ih (n / 16) (by omega)
      have hlast := digitChar_hex (Nat.mod_lt n (by decide : 16 > 0))
      rw [Nat.toDigits_of_base_le (by decide) (Nat.le_of_not_lt h)]
      refine ⟨List.forall_mem_append.mpr ⟨hmem, List.forall_mem_singleton.mpr hlast.1⟩, ?_⟩
      unfold hexValue at hvalue ⊢
      rw [List.foldl_append, hvalue]
      simp only [List.foldl_cons, List.foldl_nil, hlast.2]
      omega

/-- The character behind a backslash that is no code point. -/
def unescaped (c : Char) : Char :=
  match c with
  | '0' => '\x00'
  | 't' => '\t'
  | 'r' => '\r'
  | 'n' => '\n'
  | c => c

/-- What a backslash begins, and what follows it. -/
def readCode : List Char → Option (Char × List Char)
  | [] => none
  | 'u' :: _ :: cs =>
    some (Char.ofNat (hexValue (cs.takeWhile (· ≠ '\x7d'))), (cs.dropWhile (· ≠ '\x7d')).drop 1)
  | c :: cs => some (unescaped c, cs)

/-- The first character of an escaped text, and what follows it. -/
def readEscaped : List Char → Option (Char × List Char)
  | [] => none
  | c :: cs => if c = '\\' then readCode cs else some (c, cs)

theorem readCode_hex (c : Char) (rest : List Char) :
    readCode ('u' :: '\x7b' :: (Nat.toDigits 16 c.toNat ++ '\x7d' :: rest)) = some (c, rest) := by
  obtain ⟨hhex, hvalue⟩ := hexValue_toDigits c.toNat
  have hall : ∀ d ∈ Nat.toDigits 16 c.toNat, decide (d ≠ '\x7d') = true := by
    intro d hd
    exact decide_eq_true (ne_of_mem_of_not_mem (hhex d hd) (by decide))
  rw [readCode, List.takeWhile_append_of_pos hall, List.dropWhile_append_of_pos hall]
  simp [hvalue]

theorem readEscaped_escape (c : Char) (rest : List Char) :
    readEscaped (escape c ++ rest) = some (c, rest) := by
  unfold escape
  split
  · rfl
  · rfl
  · rfl
  · rfl
  · rfl
  · rfl
  · next hback =>
    split
    · exact if_neg hback
    · have hread := readCode_hex c rest
      simpa [readEscaped] using hread

theorem flatMap_escape_injective : ∀ {cs ds : List Char},
    cs.flatMap escape = ds.flatMap escape → cs = ds := by
  intro cs
  induction cs with
  | nil =>
    intro ds h
    cases ds with
    | nil => rfl
    | cons d ds =>
      have hread := readEscaped_escape d (ds.flatMap escape)
      rw [← List.flatMap_cons, ← h] at hread
      cases hread
  | cons c cs ih =>
    intro ds h
    have hc := readEscaped_escape c (cs.flatMap escape)
    rw [← List.flatMap_cons, h] at hc
    cases ds with
    | nil => cases hc
    | cons d ds =>
      have hd := readEscaped_escape d (ds.flatMap escape)
      rw [← List.flatMap_cons, hc] at hd
      obtain ⟨rfl, hrest⟩ := Prod.mk.inj (Option.some.inj hd)
      rw [ih hrest]

theorem quoted_injective {s t : String} (h : quoted s = quoted t) : s = t := by
  unfold quoted at h
  have hlists := (List.cons.inj (String.ofList_inj.mp h)).2
  exact String.toList_injective (flatMap_escape_injective (List.append_cancel_right hlists))

theorem newline_notMem_escape (c : Char) : '\n' ∉ escape c := by
  unfold escape
  split
  · decide
  · decide
  · decide
  · decide
  · decide
  · decide
  · next hnewline _ _ =>
    split
    · exact fun h => hnewline (List.mem_singleton.mp h).symm
    · intro h
      have hhex := (hexValue_toDigits c.toNat).1 '\n'
      simp at h
      exact absurd (hhex h) (by decide)

theorem lacks_quoted (s : String) : Lacks '\n' (quoted s) := by
  unfold Lacks quoted
  rw [String.toList_ofList]
  simp [newline_notMem_escape]

end Text

/-! ## Operands -/

theorem BasicType.render_injective {s t : BasicType} (h : s.render = t.render) : s = t := by
  cases s <;> cases t <;> first | rfl | exact absurd h (by decide)

theorem ValueType.render_injective {s t : ValueType} (h : s.render = t.render) : s = t := by
  obtain ⟨a, _ | _⟩ := s <;> obtain ⟨b, _ | _⟩ := t <;> cases a <;> cases b <;>
    first | rfl | exact absurd h (by decide)

/-- The characters that may stand after a type. -/
theorem forall_mem_stops {p : Char → Prop} (hcomma : p ',') (hclose : p ')') (hline : p '\n') :
    ∀ c ∈ [',', ')', '\n'], p c := by
  simp only [List.forall_mem_cons]
  exact ⟨hcomma, hclose, hline, List.forall_mem_nil _⟩

theorem ValueType.lacks_render (t : ValueType) : ∀ c ∈ [',', ')', '\n'], Lacks c t.render := by
  obtain ⟨a, _ | _⟩ := t <;> cases a <;> exact forall_mem_stops (by decide) (by decide) (by decide)

theorem Storage.render_injective {s t : Storage} (h : s.render = t.render) : s = t := by
  have hhead := congrArg (fun text => text.toList.head?) h
  cases s <;> cases t <;> simp [Storage.render] at hhead
  all_goals
    unfold Storage.render at h
    rw [String.append_left_inj, String.append_right_inj] at h
    rw [toString_nat_inj h]

theorem RoutineId.render_injective {f g : RoutineId} (h : f.render = g.render) : f = g :=
  congrArg RoutineId.mk (toString_nat_inj ((String.append_right_inj _).mp h))

theorem Label.render_injective {l k : Label} (h : l.render = k.render) : l = k :=
  congrArg Label.mk (toString_nat_inj ((String.append_right_inj _).mp h))

theorem Position.render_injective {p q : Position} (h : p.render = q.render) : p = q := by
  have hdigits : ∀ n : Nat, Lacks ',' (toString n) := lacks_nat rfl
  simp only [Position.render, String.append_assoc, String.append_right_inj] at h
  obtain ⟨hline, hrest⟩ := append_sep_inj ',' rfl (hdigits _) (hdigits _) h
  have hcolumn := toString_nat_inj ((String.append_left_inj _).mp hrest)
  exact congrArg₂ Position.mk (toString_nat_inj hline) hcolumn

theorem BinOp.mnemonic_injective {op op' : BinOp} (h : op.mnemonic = op'.mnemonic) : op = op' := by
  cases op <;> cases op' <;> first | rfl | exact absurd h (by decide)

theorem renderBool_injective {a b : Bool} (h : renderBool a = renderBool b) : a = b := by
  cases a <;> cases b <;> first | rfl | exact absurd h (by decide)

/-! ## Instructions -/

namespace Instr

/-- What it pushes is a number, if it is meant to be one. -/
def Plain : Instr → Prop
  | pushReal x => x.magnitude ≤ Binary64.infinity
  | _ => True

def IsLabel (i : Instr) : Prop := ∃ l, i = .label l

/-- An instruction that begins with the word; those of the operators have words of their own. -/
def named (word : String) : Instr :=
  match word with
  | "push.int" => .pushInt 0
  | "push.real" => .pushReal .zero
  | "push.str" => .pushStr ""
  | "push.bool" => .pushBool false
  | "load" => .load (.slot 0)
  | "store" => .store (.slot 0)
  | "addr" => .loadAddr (.slot 0)
  | "load.ref" => .loadRef .int
  | "store.ref" => .storeRef .int
  | "new.array" => .newArray .int
  | "load.elem" => .loadElem .int
  | "store.elem" => .storeElem .int
  | "addr.elem" => .elemAddr .int
  | "array.len" => .arrayLen
  | "not" => .not
  | "neg" => .neg .int
  | "widen" => .widen
  | "call" => .call ⟨0⟩
  | "ret" => .ret
  | "pop" => .pop
  | "jump" => .jump ⟨0⟩
  | "jump.false" => .jumpIfFalse ⟨0⟩
  | "jump.true" => .jumpIfTrue ⟨0⟩
  | "assert" => .assert .start
  | "to.str" => .toStr .int
  | "join" => .join
  | "write.line" => .writeLine
  | "read.line" => .readLine
  | "parse" => .parse .int
  | _ => .binary .add .int

def firstWord (s : String) : String := String.ofList (s.toList.takeWhile (· ≠ ' '))

/-- The first word tells which instruction it is. -/
theorem ctorIdx_named {i : Instr} (h : ¬ i.IsLabel) :
    (named (firstWord i.render)).ctorIdx = i.ctorIdx := by
  cases i with
  | label l => exact absurd ⟨l, rfl⟩ h
  | binary op t =>
    cases op
    all_goals
      simp [firstWord, render, BinOp.mnemonic]
      rfl
  | _ =>
    simp [firstWord, render]
    rfl

/-- The rest of the text tells what it is done with. -/
theorem eq_of_ctorIdx {i j : Instr} (hi : i.Plain) (hj : j.Plain) (hidx : j.ctorIdx = i.ctorIdx)
    (h : i.render = j.render) : i = j := by
  revert hj h
  cases i with
  | pushInt =>
    exact pushInt.elim j hidx fun _ _ h => congrArg _ (toString_int_inj ((String.append_right_inj _).mp h))
  | pushReal x =>
    exact pushReal.elim j hidx fun y hy h => congrArg _
      (Binary64.Layout.render_injective .listing hi hy ((String.append_right_inj _).mp h))
  | pushStr =>
    exact pushStr.elim j hidx fun _ _ h => congrArg _ (Text.quoted_injective ((String.append_right_inj _).mp h))
  | pushBool =>
    exact pushBool.elim j hidx fun _ _ h => congrArg _ (renderBool_injective ((String.append_right_inj _).mp h))
  | load =>
    exact load.elim j hidx fun _ _ h => congrArg _ (Storage.render_injective ((String.append_right_inj _).mp h))
  | store =>
    exact store.elim j hidx fun _ _ h => congrArg _ (Storage.render_injective ((String.append_right_inj _).mp h))
  | loadAddr =>
    exact loadAddr.elim j hidx fun _ _ h => congrArg _ (Storage.render_injective ((String.append_right_inj _).mp h))
  | loadRef =>
    exact loadRef.elim j hidx fun _ _ h => congrArg _ (ValueType.render_injective ((String.append_right_inj _).mp h))
  | storeRef =>
    exact storeRef.elim j hidx fun _ _ h => congrArg _ (ValueType.render_injective ((String.append_right_inj _).mp h))
  | newArray =>
    exact newArray.elim j hidx fun _ _ h => congrArg _ (BasicType.render_injective ((String.append_right_inj _).mp h))
  | loadElem =>
    exact loadElem.elim j hidx fun _ _ h => congrArg _ (BasicType.render_injective ((String.append_right_inj _).mp h))
  | storeElem =>
    exact storeElem.elim j hidx fun _ _ h => congrArg _ (BasicType.render_injective ((String.append_right_inj _).mp h))
  | elemAddr =>
    exact elemAddr.elim j hidx fun _ _ h => congrArg _ (BasicType.render_injective ((String.append_right_inj _).mp h))
  | arrayLen => exact arrayLen.elim j hidx fun _ _ => rfl
  | binary op s =>
    refine binary.elim j hidx fun op' t _ h => ?_
    have hword : ∀ op : BinOp, Lacks ' ' op.mnemonic := by
      intro op
      cases op <;> decide
    simp only [render, String.append_assoc] at h
    obtain ⟨hop, htype⟩ := append_sep_inj ' ' rfl (hword op) (hword op') h
    rw [BinOp.mnemonic_injective hop, BasicType.render_injective htype]
  | not => exact not.elim j hidx fun _ _ => rfl
  | neg =>
    exact neg.elim j hidx fun _ _ h => congrArg _ (BasicType.render_injective ((String.append_right_inj _).mp h))
  | widen => exact widen.elim j hidx fun _ _ => rfl
  | call =>
    exact call.elim j hidx fun _ _ h => congrArg _ (RoutineId.render_injective ((String.append_right_inj _).mp h))
  | ret => exact ret.elim j hidx fun _ _ => rfl
  | pop => exact pop.elim j hidx fun _ _ => rfl
  | jump =>
    exact jump.elim j hidx fun _ _ h => congrArg _ (Label.render_injective ((String.append_right_inj _).mp h))
  | jumpIfFalse =>
    exact jumpIfFalse.elim j hidx fun _ _ h => congrArg _ (Label.render_injective ((String.append_right_inj _).mp h))
  | jumpIfTrue =>
    exact jumpIfTrue.elim j hidx fun _ _ h => congrArg _ (Label.render_injective ((String.append_right_inj _).mp h))
  | label l =>
    exact label.elim j hidx fun k _ h => congrArg _
      (Label.render_injective ((String.append_left_inj _).mp h))
  | assert =>
    exact assert.elim j hidx fun _ _ h => congrArg _ (Position.render_injective ((String.append_right_inj _).mp h))
  | toStr =>
    exact toStr.elim j hidx fun _ _ h => congrArg _ (ValueType.render_injective ((String.append_right_inj _).mp h))
  | join => exact join.elim j hidx fun _ _ => rfl
  | writeLine => exact writeLine.elim j hidx fun _ _ => rfl
  | readLine => exact readLine.elim j hidx fun _ _ => rfl
  | parse =>
    exact parse.elim j hidx fun _ _ h => congrArg _ (BasicType.render_injective ((String.append_right_inj _).mp h))

theorem render_injective {i j : Instr} (hi : i.Plain) (hj : j.Plain) (hil : ¬ i.IsLabel)
    (hjl : ¬ j.IsLabel) (h : i.render = j.render) : i = j := by
  apply eq_of_ctorIdx hi hj _ h
  rw [← ctorIdx_named hil, h, ctorIdx_named hjl]

end Instr

/-! ## Texts of one line -/

theorem lacks_int (n : Int) : Lacks '\n' (toString n) := by
  rw [Int.toString_eq_repr, Int.repr_eq_if]
  split_ifs
  · exact lacks_nat rfl _
  · exact lacks_append.mpr ⟨by decide, lacks_nat rfl _⟩

namespace Binary64

theorem newline_notMem_plain {ds : List Char} (h : '\n' ∉ ds) (point : Int) :
    '\n' ∉ plain ds point := by
  unfold plain
  split_ifs
  · simp [h]
  · simp [h]
  · simp [mt List.mem_of_mem_take h, mt List.mem_of_mem_drop h]

theorem newline_notMem_scientific {ds : List Char} (h : '\n' ∉ ds) (point : Int) :
    '\n' ∉ scientific ds point := by
  have hexponent := lacks_int (point - 1)
  unfold Lacks at hexponent
  unfold scientific
  cases ds with
  | nil => simpa using hexponent
  | cons d ds => cases ds <;> simp_all

theorem newline_notMem_magnitude (l : Layout) (m : Nat) : '\n' ∉ l.magnitude m := by
  unfold Layout.magnitude
  split_ifs with hzero
  · decide
  · decide
  · obtain ⟨digits, point, hshortest, -⟩ := shortest_contains (Nat.pos_of_ne_zero hzero)
    have hdigits : '\n' ∉ digits.chars := fun h => absurd (digits.digits _ h) (by decide)
    rw [hshortest]
    dsimp only
    split_ifs
    · exact newline_notMem_plain hdigits point
    · exact newline_notMem_scientific hdigits point

theorem lacks_render (x : Binary64) : Lacks '\n' x.render := by
  have hmagnitude := newline_notMem_magnitude .listing x.magnitude
  unfold render Layout.render Lacks
  split_ifs
  · decide
  · simpa using hmagnitude
  · simpa using hmagnitude

end Binary64

theorem Instr.lacks_render (i : Instr) : Lacks '\n' i.render := by
  have hnat : ∀ n : Nat, Lacks '\n' n.repr := lacks_nat rfl
  have hint : ∀ n : Int, Lacks '\n' n.repr := lacks_int
  have hstorage : ∀ s : Storage, Lacks '\n' s.render := by
    intro s
    cases s <;> simp +decide [Storage.render, hnat]
  have hvalue : ∀ t : ValueType, Lacks '\n' t.render := fun t => t.lacks_render _ (by simp)
  have hbasic : ∀ t : BasicType, Lacks '\n' t.render := fun t => hvalue (.scalar t)
  have hbool : ∀ b, Lacks '\n' (renderBool b) := by decide
  have hop : ∀ op : BinOp, Lacks '\n' op.mnemonic := by
    intro op
    cases op <;> decide
  cases i <;> simp +decide [render, RoutineId.render, Label.render, Position.render, hnat, hstorage,
    hvalue, hbasic, hbool, hop, hint, Binary64.lacks_render, Text.lacks_quoted]

end StackPascal
