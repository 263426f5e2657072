import Mathlib.Data.List.Basic
import StackPascal.Interner

/-!
Interned texts and their numbers.

* `idxOf_eraseDups_lt_iff`: a list without its repetitions has the same order of
  first appearances;
* `Interner.Inverse.intern`: the numbers by text and the texts by number stay inverse;
* `Interner.Inverse.toList_texts_internAll`: the texts that are new are added once each,
  in order;
* `numbers_stand_for_texts`: the numbers that come back are equal as the texts are and
  ordered as the texts first appear, and each names its text for good.
-/

namespace StackPascal

/-! ## First appearances -/

section FirstAppearances

variable {α : Type} [DecidableEq α] {as : List α} {a b : α}

theorem idxOf_eraseDups_lt (h : as.idxOf a < as.idxOf b) :
    as.eraseDups.idxOf a < as.eraseDups.idxOf b := by
  -- What stands before the first `b` has `a` in it, and its elements keep their
  -- places when the rest is added.
  let before := as.take (as.idxOf b)
  have ha : a ∈ before := by
    have hmem : a ∈ as := List.idxOf_lt_length_iff.mp (Nat.lt_of_lt_of_le h List.idxOf_le_length)
    exact (List.mem_take_iff_idxOf_lt hmem).mpr h
  have hb : b ∉ before := fun hm =>
    Nat.lt_irrefl _ ((List.mem_take_iff_idxOf_lt (List.mem_of_mem_take hm)).mp hm)
  have hfirst : before.eraseDups <+: as.eraseDups := by
    conv_rhs => rw [← List.take_append_drop (as.idxOf b) as, List.eraseDups_append]
    exact List.prefix_append ..
  calc as.eraseDups.idxOf a
      < before.eraseDups.length :=
        (hfirst.mem_iff_idxOf_lt_length a).mp (List.mem_eraseDups.mpr ha)
    _ ≤ as.eraseDups.idxOf b :=
        Nat.le_of_not_lt fun hlt =>
          hb (List.mem_eraseDups.mp ((hfirst.mem_iff_idxOf_lt_length b).mpr hlt))

theorem idxOf_eraseDups_lt_iff (ha : a ∈ as) :
    as.eraseDups.idxOf a < as.eraseDups.idxOf b ↔ as.idxOf a < as.idxOf b := by
  refine ⟨fun h => ?_, idxOf_eraseDups_lt⟩
  rcases Nat.lt_trichotomy (as.idxOf a) (as.idxOf b) with hlt | heq | hgt
  · exact hlt
  · rw [(List.idxOf_inj ha).mp heq] at h
    exact absurd h (Nat.lt_irrefl _)
  · exact absurd h (Nat.lt_asymm (idxOf_eraseDups_lt hgt))

end FirstAppearances

namespace Interner

variable {i : Interner} {t u : String} {n m : Nat}

/-! ## One text -/

/-- The two tables are inverse to each other. -/
def Inverse (i : Interner) : Prop := ∀ t n, i.number[t]? = some n ↔ i.text? n = some t

theorem inverse_empty : empty.Inverse := by
  intro t n
  simp [empty, text?]

/-- A known text leaves the interner as it is, and a new one is added at the end. -/
theorem Inverse.cases (h : i.Inverse) (t : String) :
    (t ∈ i.texts ∧ ∃ n, i.text? n = some t ∧ i.intern t = (n, i)) ∨
    (t ∉ i.texts ∧
      i.intern t = (i.texts.size, ⟨i.number.insert t i.texts.size, i.texts.push t⟩)) := by
  unfold intern
  cases hn : i.number[t]? with
  | some n =>
    have ht : i.text? n = some t := (h t n).mp hn
    exact .inl ⟨Array.mem_of_getElem? ht, n, ht, rfl⟩
  | none =>
    refine .inr ⟨fun hm => ?_, rfl⟩
    obtain ⟨n, ht⟩ := Array.mem_iff_getElem?.mp hm
    rw [(h t n).mpr ht] at hn
    cases hn

theorem Inverse.intern (h : i.Inverse) (t : String) : (i.intern t).2.Inverse := by
  rcases h.cases t with ⟨-, n, -, heq⟩ | ⟨hnew, heq⟩
  · rw [heq]
    exact h
  · rw [heq]
    intro u n
    have hu : i.number[u]? = some n ↔ i.texts[n]? = some u := h u n
    show (i.number.insert t i.texts.size)[u]? = some n ↔ (i.texts.push t)[n]? = some u
    rw [Std.HashMap.getElem?_insert, Array.getElem?_push]
    grind

theorem Inverse.text?_intern (h : i.Inverse) (t : String) :
    (i.intern t).2.text? (i.intern t).1 = some t := by
  rcases h.cases t with ⟨-, n, ht, heq⟩ | ⟨-, heq⟩
  · rw [heq]
    exact ht
  · rw [heq]
    exact Array.getElem?_push_size

/-- A number once given goes on naming its text. -/
theorem text?_intern_of_text? (ht : i.text? n = some t) (u : String) :
    (i.intern u).2.text? n = some t := by
  unfold intern
  cases i.number[u]? with
  | some m => exact ht
  | none =>
    have hlt : n < i.texts.size := (Array.getElem?_eq_some_iff.mp ht).1
    show (i.texts.push u)[n]? = some t
    rw [Array.getElem?_push, if_neg (Nat.ne_of_lt hlt)]
    exact ht

theorem Inverse.number_eq_iff (h : i.Inverse) (ht : i.text? n = some t)
    (hu : i.text? m = some u) : n = m ↔ t = u := by
  constructor
  · rintro rfl
    exact Option.some.inj (ht.symm.trans hu)
  · rintro rfl
    exact Option.some.inj (((h t n).mpr ht).symm.trans ((h t m).mpr hu))

theorem Inverse.idxOf_texts (h : i.Inverse) (ht : i.text? n = some t) :
    i.texts.toList.idxOf t = n := by
  have hmem : t ∈ i.texts.toList := Array.mem_toList_iff.mpr (Array.mem_of_getElem? ht)
  have hidx : i.text? (i.texts.toList.idxOf t) = some t := by
    rw [text?, ← Array.getElem?_toList]
    exact List.getElem?_idxOf hmem
  exact (h.number_eq_iff hidx ht).mpr rfl

/-! ## Several texts -/

theorem length_internAll (ts : List String) (i : Interner) :
    (i.internAll ts).1.length = ts.length := by
  induction ts generalizing i with
  | nil => rfl
  | cons t ts ih => exact congrArg (· + 1) (ih _)

theorem Inverse.internAll (h : i.Inverse) (ts : List String) : (i.internAll ts).2.Inverse := by
  induction ts generalizing i with
  | nil => exact h
  | cons t ts ih => exact ih (h.intern t)

theorem text?_internAll_of_text? (ht : i.text? n = some t) (us : List String) :
    (i.internAll us).2.text? n = some t := by
  induction us generalizing i with
  | nil => exact ht
  | cons u us ih => exact ih (text?_intern_of_text? ht u)

/-- At the end each number names the text that it came back for. -/
theorem Inverse.text?_internAll (h : i.Inverse) {ts : List String}
    (hc : (t, n) ∈ ts.zip (i.internAll ts).1) : (i.internAll ts).2.text? n = some t := by
  induction ts generalizing i with
  | nil => cases hc
  | cons u ts ih =>
    rcases List.mem_cons.mp hc with heq | hc
    · obtain ⟨rfl, rfl⟩ := Prod.mk.inj heq
      exact text?_internAll_of_text? (h.text?_intern t) ts
    · exact ih (h.intern u) hc

theorem Inverse.mem_internAll (h : i.Inverse) {ts : List String} :
    n ∈ (i.internAll ts).1 ↔ ∃ t ∈ ts, (i.internAll ts).2.text? n = some t := by
  have hlength : (i.internAll ts).1.length = ts.length := length_internAll ts i
  constructor
  · intro hn
    rw [← List.map_snd_zip (Nat.le_of_eq hlength)] at hn
    obtain ⟨⟨t, n⟩, hc, rfl⟩ := List.mem_map.mp hn
    exact ⟨t, (List.of_mem_zip hc).1, h.text?_internAll hc⟩
  · rintro ⟨t, hmem, ht⟩
    rw [← List.map_fst_zip (Nat.le_of_eq hlength.symm)] at hmem
    obtain ⟨⟨t, m⟩, hc, rfl⟩ := List.mem_map.mp hmem
    rw [((h.internAll ts).number_eq_iff ht (h.text?_internAll hc)).mpr rfl]
    exact (List.of_mem_zip hc).2

theorem Inverse.toList_texts_internAll (h : i.Inverse) (ts : List String) :
    (i.internAll ts).2.texts.toList =
      i.texts.toList ++ (ts.removeAll i.texts.toList).eraseDups := by
  induction ts generalizing i with
  | nil => exact (List.append_nil _).symm
  | cons t ts ih =>
    show ((i.intern t).2.internAll ts).2.texts.toList = _
    rw [ih (h.intern t)]
    rcases h.cases t with ⟨hknown, n, -, heq⟩ | ⟨hnew, heq⟩
    · simp [heq, List.removeAll, hknown]
    · simp [heq, List.removeAll, hnew, List.eraseDups_cons, Bool.and_comm, beq_eq_decide]

theorem toList_texts_internAll_empty (ts : List String) :
    (empty.internAll ts).2.texts.toList = ts.eraseDups := by
  rw [inverse_empty.toList_texts_internAll]
  simp [empty, List.removeAll]

theorem text?_internAll_empty (ts : List String) (n : Nat) :
    (empty.internAll ts).2.text? n = ts.eraseDups[n]? := by
  rw [← toList_texts_internAll_empty]
  exact Array.getElem?_toList.symm

/-- The numbers have no gaps. -/
theorem mem_internAll_empty {ts : List String} :
    n ∈ (empty.internAll ts).1 ↔ n < ts.eraseDups.length := by
  rw [inverse_empty.mem_internAll]
  simp only [text?_internAll_empty]
  constructor
  · rintro ⟨t, -, ht⟩
    exact (List.getElem?_eq_some_iff.mp ht).1
  · intro hn
    exact ⟨_, List.mem_eraseDups.mp (List.getElem_mem hn), List.getElem?_eq_getElem hn⟩

end Interner

/-- Interning texts one after the other gives every text a number. The numbers are
those from 0 up to the count of different texts. Each names its text, whatever is
interned later; two are equal if and only if their texts are, and one is less than
another if and only if its text appears first. -/
theorem numbers_stand_for_texts (ts : List String) :
    ∃ ns i, Interner.empty.internAll ts = (ns, i) ∧
      ns.length = ts.length ∧
      (∀ n, n ∈ ns ↔ n < ts.eraseDups.length) ∧
      ∀ t n, (t, n) ∈ ts.zip ns →
        (∀ later, (i.internAll later).2.text? n = some t) ∧
        ∀ u m, (u, m) ∈ ts.zip ns →
          (n = m ↔ t = u) ∧ (n < m ↔ ts.idxOf t < ts.idxOf u) := by
  have hinverse := Interner.inverse_empty.internAll ts
  have hnamed {t n} (hc : (t, n) ∈ ts.zip (Interner.empty.internAll ts).1) :
      (Interner.empty.internAll ts).2.text? n = some t :=
    Interner.inverse_empty.text?_internAll hc
  have hplace {t n} (hc : (t, n) ∈ ts.zip (Interner.empty.internAll ts).1) :
      ts.eraseDups.idxOf t = n := by
    rw [← Interner.toList_texts_internAll_empty]
    exact hinverse.idxOf_texts (hnamed hc)
  refine ⟨_, _, rfl, Interner.length_internAll ts _, fun n => Interner.mem_internAll_empty, ?_⟩
  intro t n hc
  refine ⟨Interner.text?_internAll_of_text? (hnamed hc), fun u m hd => ⟨?_, ?_⟩⟩
  · exact hinverse.number_eq_iff (hnamed hc) (hnamed hd)
  · rw [← hplace hc, ← hplace hd]
    exact idxOf_eraseDups_lt_iff (List.of_mem_zip hc).1

theorem numbers_stand_for_texts_repeated :
    let ts := ["x", "", "x", "a"]
    ∃ i, Interner.empty.internAll ts = ([0, 1, 0, 2], i) ∧
      ("x", 0) ∈ ts.zip [0, 1, 0, 2] ∧ ("a", 2) ∈ ts.zip [0, 1, 0, 2] ∧
      (i.internAll ["b", "x"]).2.text? 0 = some "x" ∧
      (0 = 2 ↔ "x" = "a") ∧ (0 < 2 ↔ ts.idxOf "x" < ts.idxOf "a") := by
  intro ts
  obtain ⟨ns, i, hi, -, -, hnumbers⟩ := numbers_stand_for_texts ts
  have hns : (Interner.empty.internAll ts).1 = [0, 1, 0, 2] := by cbv
  rw [hi] at hns
  subst hns
  have hx : ("x", 0) ∈ ts.zip [0, 1, 0, 2] := by decide
  have ha : ("a", 2) ∈ ts.zip [0, 1, 0, 2] := by decide
  obtain ⟨hstays, horder⟩ := hnumbers "x" 0 hx
  exact ⟨i, hi, hx, ha, hstays ["b", "x"], horder "a" 2 ha⟩

end StackPascal
