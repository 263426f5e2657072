import Mathlib.Algebra.Order.Field.Power
import Mathlib.Tactic.Linarith
import Mathlib.Tactic.NormNum
import Mathlib.Tactic.Ring
import StackPascal.Binary64.Shortest
import StackPascal.Proofs.Lexing.Numbers

/-!
Real numbers with different values are written differently.

* `Interval.Contains`: the numbers that round to a magnitude. The intervals of two
  magnitudes have no number in common (`contains_unique`);
* `search_contains`: the digits that are found write a number of the interval, since one
  of the grids is finer than the interval is wide;
* `magnitude_reads`: that number is read from the text, whichever way it is set out;
* `render_injective`: so the text tells which number it was made from.
-/

namespace StackPascal.Binary64

/-! ## Magnitudes -/

theorem decode_small {m : Nat} (h : m < Nat.pow 2 52) : decode m = (m, 0) := if_pos h

theorem decode_large (s : Nat) {r : Nat} (h : r < Nat.pow 2 52) :
    decode (Nat.pow 2 52 * (s + 1) + r) = (Nat.pow 2 52 + r, s) := by
  have hpos : 0 < Nat.pow 2 52 := by decide
  unfold decode
  rw [if_neg (by rw [Nat.mul_succ]; omega), Nat.mul_add_mod, Nat.mod_eq_of_lt h,
    Nat.mul_add_div hpos, Nat.div_eq_of_lt h]
  simp

/-- A magnitude is small, or has a scale and a rest. -/
theorem magnitude_cases (m : Nat) :
    m < Nat.pow 2 52 ∨ ∃ s r, r < Nat.pow 2 52 ∧ m = Nat.pow 2 52 * (s + 1) + r := by
  have hpos : 0 < Nat.pow 2 52 := by decide
  by_cases h : m < Nat.pow 2 52
  · exact .inl h
  · have hdiv : 0 < m / Nat.pow 2 52 := Nat.div_pos (Nat.le_of_not_lt h) hpos
    refine .inr ⟨m / Nat.pow 2 52 - 1, m % Nat.pow 2 52, Nat.mod_lt _ hpos, ?_⟩
    rw [Nat.sub_add_cancel hdiv, Nat.div_add_mod]

namespace Interval

theorem around_decode {m n s : Nat} (h : decode m = (n, s)) :
    around m =
      ⟨(4 * n - if n = Nat.pow 2 52 ∧ 0 < s then 1 else 2) * Nat.pow 2 s, 4 * n * Nat.pow 2 s,
       (4 * n + 2) * Nat.pow 2 s, n % 2 = 0⟩ := by
  unfold around
  rw [h]

/-- An interval ends where the next one begins. -/
theorem high_around (m : Nat) : (around m).high = (around (m + 1)).low := by
  have hpos : 0 < Nat.pow 2 52 := by decide
  rcases magnitude_cases m with h | ⟨s, r, hr, rfl⟩
  · by_cases hnext : m + 1 < Nat.pow 2 52
    · rw [around_decode (decode_small h), around_decode (decode_small hnext)]
      simp
      omega
    · obtain rfl : m = Nat.pow 2 52 - 1 := by omega
      decide
  · rw [around_decode (decode_large s hr)]
    by_cases hnext : r + 1 < Nat.pow 2 52
    · have hne : ¬ (Nat.pow 2 52 + (r + 1) = Nat.pow 2 52 ∧ 0 < s) := by omega
      rw [Nat.add_assoc, around_decode (decode_large s hnext)]
      dsimp only
      rw [if_neg hne]
      congr 1
    · have hm : Nat.pow 2 52 * (s + 1) + r + 1 = Nat.pow 2 52 * (s + 1 + 1) + 0 := by
        rw [Nat.mul_succ _ (s + 1)]
        omega
      have hpow : Nat.pow 2 (s + 1) = 2 * Nat.pow 2 s := Nat.mul_comm _ _
      rw [hm, around_decode (decode_large (s + 1) hpos)]
      dsimp only
      rw [if_pos ⟨rfl, Nat.succ_pos s⟩, hpow, ← Nat.mul_assoc]
      congr 1
      omega

/-- The significand has at most 53 bits, and is the least with so many where the
neighbour below is closer. -/
theorem exists_around {m : Nat} (h : 0 < m) :
    ∃ n gap p, 0 < n ∧ n < Nat.pow 2 53 ∧ 0 < p ∧ (gap = 2 ∨ gap = 1 ∧ n = Nat.pow 2 52) ∧
      around m = ⟨(4 * n - gap) * p, 4 * n * p, (4 * n + 2) * p, m % 2 = 0⟩ := by
  have hdouble : Nat.pow 2 53 = 2 * Nat.pow 2 52 := by decide
  have heven : Nat.pow 2 52 % 2 = 0 := by decide
  have hpos : 0 < Nat.pow 2 52 := by decide
  rcases magnitude_cases m with hm | ⟨s, r, hr, rfl⟩
  · refine ⟨m, 2, 1, h, by omega, Nat.one_pos, .inl rfl, ?_⟩
    rw [around_decode (decode_small hm)]
    simp
  · refine ⟨Nat.pow 2 52 + r, if Nat.pow 2 52 + r = Nat.pow 2 52 ∧ 0 < s then 1 else 2, Nat.pow 2 s,
      by omega, by omega, Nat.pow_pos (by decide), ?_, ?_⟩
    · split_ifs with hgap
      · exact .inr ⟨rfl, hgap.1⟩
      · exact .inl rfl
    · have hparity : (Nat.pow 2 52 * (s + 1) + r) % 2 = (Nat.pow 2 52 + r) % 2 := by
        rw [Nat.add_mod, Nat.mul_mod, heven, Nat.add_mod (Nat.pow 2 52), heven, Nat.zero_mul]
      rw [around_decode (decode_large s hr), hparity]

variable {m n : Nat}

theorem low_pos (h : 0 < m) : 0 < (around m).low := by
  obtain ⟨n, gap, p, hn, -, hp, hgap, heq⟩ := exists_around h
  rw [heq]
  exact Nat.mul_pos (by omega) hp

theorem low_lt_value (h : 0 < m) : (around m).low < (around m).value := by
  obtain ⟨n, gap, p, hn, -, hp, hgap, heq⟩ := exists_around h
  rw [heq]
  exact Nat.mul_lt_mul_of_pos_right (by omega) hp

theorem value_lt_high (h : 0 < m) : (around m).value < (around m).high := by
  obtain ⟨n, gap, p, -, -, hp, -, heq⟩ := exists_around h
  rw [heq]
  exact Nat.mul_lt_mul_of_pos_right (by omega) hp

theorem closed_around (h : 0 < m) : (around m).closed = decide (m % 2 = 0) := by
  obtain ⟨n, gap, p, -, -, -, -, heq⟩ := exists_around h
  rw [heq]

/-- The interval is wide enough for a number of 53 bits. -/
theorem value_lt_width (h : 0 < m) :
    (around m).value + (around m).low * Nat.pow 2 53 < (around m).high * Nat.pow 2 53 := by
  obtain ⟨n, gap, p, hn, hlt, hp, hgap, heq⟩ := exists_around h
  have hdouble : Nat.pow 2 53 = 2 * Nat.pow 2 52 := by decide
  have hwidth : 4 * n + 2 = (4 * n - gap) + (gap + 2) := by omega
  have hvalue : 4 * n < (gap + 2) * Nat.pow 2 53 := by
    rcases hgap with rfl | ⟨rfl, rfl⟩ <;> omega
  have hscaled := Nat.mul_lt_mul_of_pos_right hvalue hp
  rw [heq]
  calc 4 * n * p + (4 * n - gap) * p * Nat.pow 2 53
      < (gap + 2) * Nat.pow 2 53 * p + (4 * n - gap) * p * Nat.pow 2 53 :=
        Nat.add_lt_add_right hscaled _
    _ = (4 * n + 2) * p * Nat.pow 2 53 := by
        rw [hwidth]
        ring

theorem low_le_low (h : 0 < m) (hmn : m ≤ n) : (around m).low ≤ (around n).low := by
  induction n, hmn using Nat.le_induction with
  | base => exact Nat.le_refl _
  | succ n hmn ih =>
    have hn : 0 < n := Nat.lt_of_lt_of_le h hmn
    rw [← high_around]
    exact ih.trans ((low_lt_value hn).trans (value_lt_high hn)).le

/-! ## Numbers of an interval -/

/-- The numbers that round to the magnitude. -/
def Contains (i : Interval) (x : ℚ) : Prop :=
  if i.closed then i.low ≤ x * unit ∧ x * unit ≤ i.high
  else i.low < x * unit ∧ x * unit < i.high

variable {x : ℚ}

theorem Contains.bounds {i : Interval} (h : i.Contains x) : i.low ≤ x * unit ∧ x * unit ≤ i.high := by
  unfold Contains at h
  split_ifs at h
  · exact h
  · exact ⟨h.1.le, h.2.le⟩

theorem Contains.strict {i : Interval} (h : i.Contains x) (hopen : i.closed = false) :
    i.low < x * unit ∧ x * unit < i.high := by
  unfold Contains at h
  rw [if_neg (by rw [hopen]; exact Bool.false_ne_true)] at h
  exact h

theorem unit_pos : 0 < unit := by
  unfold unit
  generalize 1076 = n
  exact Nat.pow_pos (Nat.zero_lt_succ 1)

theorem Contains.pos (h : 0 < m) (hx : (around m).Contains x) : 0 < x := by
  have hlow : (0 : ℚ) < (around m).low := Nat.cast_pos.mpr (low_pos h)
  exact pos_of_mul_pos_left (hlow.trans_le hx.bounds.1) (Nat.cast_nonneg unit)

/-- Two neighbours share an end of their intervals, and it belongs to one of them only. -/
theorem not_contains_both (h : 0 < m) (hmn : m < n) (hm : (around m).Contains x) :
    ¬ (around n).Contains x := by
  intro hn
  have hhigh := hm.bounds.2
  have hlow := hn.bounds.1
  rcases Nat.eq_or_lt_of_le (Nat.succ_le_of_lt hmn) with rfl | hfar
  · have hends : ((around m).high : ℚ) = (around (m + 1)).low := congrArg Nat.cast (high_around m)
    rcases Nat.mod_two_eq_zero_or_one m with heven | hodd
    · have hopen : (around (m + 1)).closed = false := by
        rw [closed_around (Nat.succ_pos m)]
        simp
        omega
      linarith [(hn.strict hopen).1]
    · have hopen : (around m).closed = false := by
        rw [closed_around h]
        simp [hodd]
      linarith [(hm.strict hopen).2]
  · have hapart : (around m).high < (around n).low := by
      calc (around m).high = (around (m + 1)).low := high_around m
        _ < (around (m + 1)).high :=
          (low_lt_value (Nat.succ_pos m)).trans (value_lt_high (Nat.succ_pos m))
        _ = (around (m + 1 + 1)).low := high_around (m + 1)
        _ ≤ (around n).low := low_le_low (Nat.succ_pos _) hfar
    have hcast : ((around m).high : ℚ) < (around n).low := Nat.cast_lt.mpr hapart
    linarith

theorem contains_unique (hm : 0 < m) (hn : 0 < n) (hxm : (around m).Contains x)
    (hxn : (around n).Contains x) : m = n := by
  rcases Nat.lt_trichotomy m n with h | h | h
  · exact absurd hxn (not_contains_both hm h hxm)
  · exact h
  · exact absurd hxm (not_contains_both hn h hxn)

/-! ## The search -/

theorem cast_pow_ten (k : ℕ) : ((Nat.pow 10 k : ℕ) : ℚ) = 10 ^ k := Nat.cast_pow 10 k

/-- The two parts of a power of ten. -/
theorem ten_pow_toNat (e : ℤ) : (10 : ℚ) ^ e.toNat = 10 ^ e * 10 ^ (-e).toNat := by
  rcases Int.le_total 0 e with h | h
  · obtain ⟨k, rfl⟩ := Int.eq_ofNat_of_zero_le h
    simp
  · obtain ⟨k, hk⟩ := Int.eq_ofNat_of_zero_le (Int.neg_nonneg_of_nonpos h)
    obtain rfl : e = -(k : ℤ) := by omega
    simp

theorem contains_of_holds {i : Interval} {d : Nat} {e : ℤ}
    (h : i.holds (Nat.pow 10 (-e).toNat) (d * (unit * Nat.pow 10 e.toNat)) = true) :
    i.Contains (d * 10 ^ e) := by
  have hfactor : (0 : ℚ) < 10 ^ (-e).toNat := by positivity
  have hscaled : ((d * (unit * Nat.pow 10 e.toNat) : ℕ) : ℚ) = d * 10 ^ e * unit * 10 ^ (-e).toNat := by
    push_cast [cast_pow_ten, ten_pow_toNat e]
    ring
  unfold holds at h
  unfold Contains
  split_ifs at h ⊢ <;> obtain ⟨hlow, hhigh⟩ := of_decide_eq_true h
  · have hlow := Nat.cast_le (α := ℚ).mpr hlow
    have hhigh := Nat.cast_le (α := ℚ).mpr hhigh
    rw [hscaled, Nat.cast_mul, cast_pow_ten] at hlow hhigh
    exact ⟨le_of_mul_le_mul_right hlow hfactor, le_of_mul_le_mul_right hhigh hfactor⟩
  · have hlow := Nat.cast_lt (α := ℚ).mpr hlow
    have hhigh := Nat.cast_lt (α := ℚ).mpr hhigh
    rw [hscaled, Nat.cast_mul, cast_pow_ten] at hlow hhigh
    exact ⟨lt_of_mul_lt_mul_right hlow hfactor.le, lt_of_mul_lt_mul_right hhigh hfactor.le⟩

theorem holds_of_lt {i : Interval} {factor num : Nat} (hlow : i.low * factor < num)
    (hhigh : num < i.high * factor) : i.holds factor num = true := by
  unfold holds
  split_ifs
  · exact decide_eq_true ⟨hlow.le, hhigh.le⟩
  · exact decide_eq_true ⟨hlow, hhigh⟩

theorem holds_onGrid {i : Interval} {e : ℤ} {d : Nat} (h : i.onGrid e = some d) :
    i.holds (Nat.pow 10 (-e).toNat) (d * (unit * Nat.pow 10 e.toNat)) = true := by
  unfold onGrid at h
  dsimp only at h
  split_ifs at h with hlower hupper
  · cases h
    exact (Bool.and_eq_true_iff.mp hlower).1
  · cases h
    exact hupper

/-- A grid that is finer than the interval is wide has a point in it. -/
theorem onGrid_isSome {i : Interval} {e : ℤ} (hlow : i.low < i.value) (hhigh : i.value < i.high)
    (hstep : i.low * Nat.pow 10 (-e).toNat + unit * Nat.pow 10 e.toNat <
      i.high * Nat.pow 10 (-e).toNat) : (i.onGrid e).isSome = true := by
  have hfactor : 0 < Nat.pow 10 (-e).toNat := Nat.pow_pos (by decide)
  have hpos : 0 < unit * Nat.pow 10 e.toNat := Nat.mul_pos unit_pos (Nat.pow_pos (by decide))
  unfold onGrid
  dsimp only
  generalize Nat.pow 10 (-e).toNat = factor, unit * Nat.pow 10 e.toNat = step at *
  have hl := Nat.mul_lt_mul_of_pos_right hlow hfactor
  have hh := Nat.mul_lt_mul_of_pos_right hhigh hfactor
  have hbelow : i.value * factor / step * step ≤ i.value * factor := Nat.div_mul_le_self _ _
  have habove : i.value * factor < (i.value * factor / step + 1) * step := by
    rw [Nat.mul_comm (_ + 1)]
    exact Nat.lt_mul_div_succ _ hpos
  have hnext : (i.value * factor / step + 1) * step = i.value * factor / step * step + step :=
    Nat.succ_mul _ _
  by_cases hlower : i.low * factor < i.value * factor / step * step
  · rw [holds_of_lt hlower (by omega)]
    split_ifs with h h' <;> simp_all
  · have hupper : i.holds factor ((i.value * factor / step + 1) * step) = true :=
      holds_of_lt (by omega) (by omega)
    rw [hupper]
    split_ifs with h h'
    · rfl
    · rfl
    · exact absurd rfl h'

theorem search_onGrid {i : Interval} {e : ℤ} {n k : Nat} (hk : k < n)
    (h : (i.onGrid (e - k)).isSome = true) :
    i.onGrid (i.search n e).2 = some (i.search n e).1 := by
  induction n generalizing e k with
  | zero => exact absurd hk (Nat.not_lt_zero k)
  | succ n ih =>
    rw [search]
    cases hgrid : i.onGrid e with
    | some d => exact hgrid
    | none =>
      cases k with
      | zero =>
        rw [Nat.cast_zero, sub_zero, hgrid] at h
        cases h
      | succ k =>
        apply ih (Nat.lt_of_succ_lt_succ hk)
        rwa [Nat.cast_succ, add_comm, ← sub_sub] at h

theorem placesOf_pos (n : Nat) : 0 < placesOf n :=
  List.length_pos_of_ne_nil Nat.toDigits_ne_nil

theorem pow_placesOf_le {n : Nat} (h : 0 < n) : 10 ^ (placesOf n - 1) ≤ n := by
  rcases Nat.eq_zero_or_pos (placesOf n - 1) with hone | hmore
  · rw [hone]
    exact h
  · have hlength : ¬ placesOf n ≤ placesOf n - 1 := by omega
    exact Nat.le_of_not_lt fun hlt => hlength ((Nat.length_toDigits_le_iff (by decide) hmore).mpr hlt)

theorem lt_pow_placesOf (n : Nat) : n < 10 ^ placesOf n :=
  (Nat.length_toDigits_le_iff (by decide) (placesOf_pos n)).mp (Nat.le_refl _)

/-- The number has a digit in front of the point, or `placesOf` says how many zeros
stand there. -/
theorem pow_point_le {i : Interval} (h : 0 < i.value) :
    (10 : ℚ) ^ (i.point - 1) * unit ≤ i.value := by
  have hunit := unit_pos
  unfold point
  generalize unit = u at *
  split_ifs with hone
  · have hplaces := placesOf_pos (i.value / u)
    have hle : 10 ^ (placesOf (i.value / u) - 1) * u ≤ i.value :=
      (Nat.mul_le_mul_right u (pow_placesOf_le (Nat.div_pos hone hunit))).trans (Nat.div_mul_le_self _ _)
    have hexponent : (placesOf (i.value / u) : ℤ) - 1 = (placesOf (i.value / u) - 1 : ℕ) := by omega
    rw [hexponent, zpow_natCast]
    exact_mod_cast hle
  · have hlt : u - 1 < 10 ^ placesOf ((u - 1) / i.value) * i.value :=
      (Nat.div_lt_iff_lt_mul h).mp (lt_pow_placesOf _)
    have hle : (u : ℚ) ≤ 10 ^ placesOf ((u - 1) / i.value) * i.value := by
      exact_mod_cast (by omega : u ≤ 10 ^ placesOf ((u - 1) / i.value) * i.value)
    have hexponent : 1 - (placesOf ((u - 1) / i.value) : ℤ) - 1 = -(placesOf ((u - 1) / i.value) : ℤ) := by
      omega
    rw [hexponent, zpow_neg, zpow_natCast, inv_mul_le_iff₀ (by positivity)]
    exact hle

/-- The digits that are found write a number that rounds to the magnitude. -/
theorem search_contains (h : 0 < m) :
    (around m).Contains (((around m).search 17 ((around m).point - 1)).1 *
      10 ^ ((around m).search 17 ((around m).point - 1)).2) := by
  have hfine : ((around m).onGrid ((around m).point - 1 - (16 : Nat))).isSome = true := by
    apply onGrid_isSome (low_lt_value h) (value_lt_high h)
    have hvalue : 0 < (around m).value := Nat.lt_of_le_of_lt (Nat.zero_le _) (low_lt_value h)
    have hpoint := pow_point_le hvalue
    have hwidth := Nat.cast_lt (α := ℚ).mpr (value_lt_width h)
    generalize around m = i at *
    generalize i.point - 1 = e at *
    generalize unit = u at *
    have hstep : (i.low : ℚ) + u * 10 ^ (e - (16 : ℕ)) < i.high := by
      rw [zpow_sub₀ (by norm_num), zpow_natCast]
      push_cast at hwidth
      norm_num at hwidth ⊢
      linarith
    generalize e - (16 : ℕ) = grid at *
    have hfactor : (0 : ℚ) < 10 ^ (-grid).toNat := by positivity
    have hscaled := mul_lt_mul_of_pos_right hstep hfactor
    rw [add_mul, mul_assoc (u : ℚ), ← ten_pow_toNat] at hscaled
    exact_mod_cast hscaled
  exact contains_of_holds (holds_onGrid (search_onGrid (by decide) hfine))

end Interval

/-! ## Digits -/

open Numeral

/-- What is read from the characters, as a number. -/
def Decimal.value (d : Decimal) : ℚ := d.digits * 10 ^ d.exponent

/-- The number `0.ddd * 10 ^ point`. -/
def pointed (digits : List Char) (point : ℤ) : ℚ :=
  digitsValue digits * 10 ^ (point - digits.length)

theorem pointed_append_zeros (ds : List Char) (k : Nat) (point : ℤ) :
    pointed (ds ++ List.replicate k '0') point = pointed ds point := by
  have hvalue : digitsValue (ds ++ List.replicate k '0') = 10 ^ k * digitsValue ds := by
    show Nat.ofDigitChars 10 _ 0 = 10 ^ k * Nat.ofDigitChars 10 ds 0
    rw [Nat.ofDigitChars_append, Nat.ofDigitChars_replicate_zero]
  unfold pointed
  rw [hvalue, List.length_append, List.length_replicate]
  push_cast
  rw [mul_comm ((10 : ℚ) ^ k), mul_assoc, ← zpow_natCast, ← zpow_add₀ (by norm_num)]
  congr 2
  ring

theorem pointed_zeros_append (ds : List Char) (k : Nat) (point : ℤ) :
    pointed (List.replicate k '0' ++ ds) point = pointed ds (point - k) := by
  have hvalue : digitsValue (List.replicate k '0' ++ ds) = digitsValue ds := by
    show Nat.ofDigitChars 10 _ 0 = Nat.ofDigitChars 10 ds 0
    rw [Nat.ofDigitChars_append, Nat.ofDigitChars_replicate_zero, Nat.mul_zero]
  unfold pointed
  rw [hvalue, List.length_append, List.length_replicate]
  congr 2
  push_cast
  ring

theorem digitsValue_toDigits (n : Nat) : digitsValue (Nat.toDigits 10 n) = n :=
  Nat.ofDigitChars_toDigits (by decide) (Nat.le_refl 10)

/-- Only zeros are cut off. -/
theorem exists_zeros (ds : List Char) :
    ∃ k, ds = (ds.reverse.dropWhile (· = '0')).reverse ++ List.replicate k '0' := by
  have hzeros : ∀ c ∈ ds.reverse.takeWhile (· = '0'), c = '0' :=
    fun c hc => by simpa using List.mem_takeWhile_imp hc
  have hsplit := congrArg List.reverse (List.takeWhile_append_dropWhile (p := (· = '0')) (l := ds.reverse))
  rw [List.reverse_append, List.reverse_reverse, List.eq_replicate_of_mem hzeros, List.reverse_replicate]
    at hsplit
  exact ⟨_, hsplit.symm⟩

/-- The digits of a magnitude write a number that rounds to it. -/
theorem shortest_contains {m : Nat} (h : 0 < m) :
    ∃ (digits : Digits) (point : ℤ), shortest m = (digits.chars, point) ∧
      (Interval.around m).Contains (pointed digits.chars point) := by
  have hfound := Interval.search_contains h
  have hpositive := hfound.pos h
  unfold shortest
  dsimp only
  generalize ((Interval.around m).search 17 ((Interval.around m).point - 1)) = found at *
  obtain ⟨d, e⟩ := found
  dsimp only at *
  obtain ⟨k, hk⟩ := exists_zeros (Nat.toDigits 10 d)
  generalize ((Nat.toDigits 10 d).reverse.dropWhile (· = '0')).reverse = ds at *
  have hpointed : pointed ds (e + (Nat.toDigits 10 d).length) = d * 10 ^ e := by
    rw [← pointed_append_zeros ds k, ← hk, pointed, digitsValue_toDigits, add_sub_cancel_right]
  have hne : ds ≠ [] := by
    rintro rfl
    rw [← hpointed] at hpositive
    simp [pointed, digitsValue] at hpositive
  have hdigits : ∀ c ∈ ds, c.isDigit = true := by
    intro c hc
    apply Nat.isDigit_of_mem_toDigits (b := 10) (n := d) (by decide) (Nat.le_refl 10)
    rw [hk]
    exact List.mem_append_left _ hc
  exact ⟨⟨ds, hne, hdigits⟩, _, rfl, hpointed ▸ hfound⟩

/-! ## Reading the text -/

/-- The number that is read from the characters. -/
def Reads (cs : List Char) (x : ℚ) : Prop := ∃ d, readDecimal cs = some d ∧ d.value = x

theorem Reads.unique {cs : List Char} {x y : ℚ} (hx : Reads cs x) (hy : Reads cs y) : x = y := by
  obtain ⟨d, hd, rfl⟩ := hx
  obtain ⟨d', hd', rfl⟩ := hy
  rw [hd] at hd'
  cases hd'
  rfl

theorem Reads.cast {cs : List Char} {x y : ℚ} (h : Reads cs x) (hxy : x = y) : Reads cs y := hxy ▸ h

theorem reads_real (whole fraction : Digits) (e : Option Exponent) :
    Reads (realChars whole fraction e)
      (pointed (whole.chars ++ fraction.chars) (whole.chars.length + (e.map Exponent.value).getD 0)) := by
  refine ⟨_, readDecimal_real whole fraction e, ?_⟩
  unfold Decimal.value realDecimal pointed
  dsimp only
  rw [List.length_append]
  congr 2
  push_cast
  ring

/-- The exponent as it is written behind the `e`. -/
def exponentOf (n : ℤ) : Exponent where
  sign := if 0 ≤ n then none else some .minus
  digits :=
    ⟨Nat.toDigits 10 n.natAbs, Nat.toDigits_ne_nil,
      fun _ => Nat.isDigit_of_mem_toDigits (by decide) (Nat.le_refl 10)⟩

theorem chars_exponentOf (n : ℤ) : (exponentOf n).chars = 'e' :: (toString n).toList := by
  rw [Int.toString_eq_repr, Int.repr_eq_if]
  unfold exponentOf Exponent.chars Exponent.signChars
  by_cases h : 0 ≤ n
  · have habs : n.natAbs = n.toNat := by omega
    simp [h, habs, Nat.repr_eq_ofList_toDigits]
  · have habs : n.natAbs = (-n).toNat := by omega
    simp [h, habs, Nat.repr_eq_ofList_toDigits]

theorem value_exponentOf (n : ℤ) : (exponentOf n).value = n := by
  unfold exponentOf Exponent.value
  dsimp only
  rw [digitsValue_toDigits]
  split_ifs with h
  · exact Int.natAbs_of_nonneg h
  · show -(n.natAbs : ℤ) = n
    omega

/-- A number without a point is read up to its exponent. -/
theorem reads_whole (whole : Digits) (e : Exponent) :
    Reads (whole.chars ++ e.chars) (pointed whole.chars (whole.chars.length + e.value)) := by
  have hstop : ∀ c, e.chars.head? = some c → c.isDigit = false := by
    intro c hc
    cases hc
    rfl
  obtain ⟨hwhole, hrest⟩ := whole.takeWhile_append hstop
  have hread := readExponent_chars e
  rw [Exponent.chars, List.cons_append] at hread
  refine ⟨⟨digitsValue whole.chars, whole.chars.length, e.value⟩, ?_, ?_⟩
  · unfold readDecimal
    rw [hwhole, hrest]
    simp [Exponent.chars, hread, whole.ne_nil]
  · rw [Decimal.value, pointed, add_sub_cancel_left]

theorem isDigit_zeros (k : Nat) : ∀ c ∈ List.replicate k '0', c.isDigit = true := by
  intro c hc
  rw [List.eq_of_mem_replicate hc]
  rfl

theorem realChars_none (whole fraction : Digits) :
    realChars whole fraction none = whole.chars ++ '.' :: fraction.chars :=
  List.append_nil _

theorem reads_plain (digits : Digits) (point : ℤ) :
    Reads (plain digits.chars point) (pointed digits.chars point) := by
  let zero : Digits := ⟨List.replicate 1 '0', by simp, isDigit_zeros 1⟩
  unfold plain
  split_ifs with hsmall hlarge
  · let fraction : Digits := ⟨List.replicate (-point).toNat '0' ++ digits.chars,
      List.append_ne_nil_of_right_ne_nil _ digits.ne_nil,
      List.forall_mem_append.mpr ⟨isDigit_zeros _, digits.digits⟩⟩
    have hread := reads_real zero fraction none
    have hpoint : ((1 : ℕ) : ℤ) + 0 - (1 : ℕ) - ((-point).toNat : ℕ) = point := by omega
    rw [realChars_none, pointed_zeros_append, pointed_zeros_append] at hread
    exact hread.cast (congrArg (pointed _) hpoint)
  · let whole : Digits :=
      ⟨digits.chars ++ List.replicate (point.toNat - digits.chars.length) '0',
        List.append_ne_nil_of_left_ne_nil digits.ne_nil _,
        List.forall_mem_append.mpr ⟨digits.digits, isDigit_zeros _⟩⟩
    have hread := reads_real whole zero none
    have hlength : (whole.chars.length : ℤ) + 0 = point := by
      simp only [whole, List.length_append, List.length_replicate]
      omega
    rw [realChars_none, pointed_append_zeros, pointed_append_zeros] at hread
    exact hread.cast (congrArg (pointed _) hlength)
  · have hlength := List.length_take_of_le (Nat.le_of_not_le hlarge)
    let whole : Digits := ⟨digits.chars.take point.toNat,
      List.ne_nil_of_length_pos (by omega), fun c hc => digits.digits c (List.mem_of_mem_take hc)⟩
    let fraction : Digits := ⟨digits.chars.drop point.toNat,
      List.ne_nil_of_length_pos (by rw [List.length_drop]; omega),
      fun c hc => digits.digits c (List.mem_of_mem_drop hc)⟩
    have hread := reads_real whole fraction none
    have hpoint : (whole.chars.length : ℤ) + 0 = point := by
      simp only [whole]
      omega
    rw [realChars_none, List.take_append_drop] at hread
    exact hread.cast (congrArg (pointed _) hpoint)

theorem reads_scientific (digits : Digits) (point : ℤ) :
    Reads (scientific digits.chars point) (pointed digits.chars point) := by
  have hpoint : ((1 : ℕ) : ℤ) + (exponentOf (point - 1)).value = point := by
    rw [value_exponentOf]
    omega
  unfold scientific
  rw [← chars_exponentOf]
  obtain ⟨ds, hne, hdigits⟩ := digits
  cases ds with
  | nil => exact absurd rfl hne
  | cons d ds =>
    obtain ⟨hd, hds⟩ := List.forall_mem_cons.mp hdigits
    let whole : Digits := ⟨[d], List.cons_ne_nil _ _, List.forall_mem_singleton.mpr hd⟩
    cases ds with
    | nil => exact (reads_whole whole _).cast (congrArg (pointed _) hpoint)
    | cons d' ds =>
      let fraction : Digits := ⟨d' :: ds, List.cons_ne_nil _ _, hds⟩
      have hread := reads_real whole fraction (some (exponentOf (point - 1)))
      exact hread.cast (congrArg (pointed _) hpoint)

/-! ## Texts of different numbers -/

/-- The number is zero for the magnitude zero, and otherwise one that rounds to it. -/
def Rounds (m : Nat) (x : ℚ) : Prop := if m = 0 then x = 0 else (Interval.around m).Contains x

theorem Rounds.unique {m n : Nat} {x : ℚ} (hm : Rounds m x) (hn : Rounds n x) : m = n := by
  unfold Rounds at hm hn
  split_ifs at hm hn with hzero hzero' hzero'
  · rw [hzero, hzero']
  · exact absurd hm (hn.pos (Nat.pos_of_ne_zero hzero')).ne'
  · exact absurd hn (hm.pos (Nat.pos_of_ne_zero hzero)).ne'
  · exact Interval.contains_unique (Nat.pos_of_ne_zero hzero) (Nat.pos_of_ne_zero hzero') hm hn

/-- The number that is read from the text of a magnitude rounds to it. -/
theorem magnitude_reads (l : Layout) {m : Nat} (hfinite : m ≠ infinity) :
    ∃ x, Reads (l.magnitude m) x ∧ Rounds m x := by
  unfold Layout.magnitude Rounds
  rw [if_neg hfinite]
  split_ifs with hzero
  · exact ⟨0, ⟨_, rfl, by simp [Decimal.value, digitsValue, digitValue]⟩, rfl⟩
  · obtain ⟨digits, point, hshortest, hcontains⟩ := shortest_contains (Nat.pos_of_ne_zero hzero)
    rw [hshortest]
    refine ⟨_, ?_, hcontains⟩
    dsimp only
    split_ifs
    · exact reads_plain digits point
    · exact reads_scientific digits point

theorem magnitude_infinity (l : Layout) : l.magnitude infinity = ['i', 'n', 'f'] := by
  have hne : infinity ≠ 0 := by decide
  unfold Layout.magnitude
  rw [if_neg hne, if_pos rfl]

theorem not_reads_infinity (l : Layout) (x : ℚ) : ¬ Reads (l.magnitude infinity) x := by
  rw [magnitude_infinity]
  rintro ⟨d, hd, -⟩
  cases hd

theorem magnitude_injective (l : Layout) {m n : Nat} (h : l.magnitude m = l.magnitude n) : m = n := by
  by_cases hm : m = infinity <;> by_cases hn : n = infinity
  · rw [hm, hn]
  · obtain ⟨x, hx, -⟩ := magnitude_reads l hn
    rw [hm] at h
    exact absurd (h ▸ hx) (not_reads_infinity l x)
  · obtain ⟨x, hx, -⟩ := magnitude_reads l hm
    rw [hn] at h
    exact absurd (h ▸ hx) (not_reads_infinity l x)
  · obtain ⟨x, hx, hmx⟩ := magnitude_reads l hm
    obtain ⟨y, hy, hny⟩ := magnitude_reads l hn
    obtain rfl := (h ▸ hx).unique hy
    exact hmx.unique hny

/-- The text of a magnitude has no sign. -/
theorem magnitude_ne_minus (l : Layout) (m : Nat) (cs : List Char) : l.magnitude m ≠ '-' :: cs := by
  intro h
  by_cases hm : m = infinity
  · rw [hm, magnitude_infinity] at h
    cases h
  · obtain ⟨x, ⟨d, hd, -⟩, -⟩ := magnitude_reads l hm
    rw [h] at hd
    cases hd

theorem eq_of_sign_magnitude {x y : Binary64} (hsign : x.negative = y.negative)
    (hmagnitude : x.magnitude = y.magnitude) : x = y := by
  have hpow : Nat.pow 2 63 = 9223372036854775808 := rfl
  have hx := x.bits.toNat_lt
  have hy := y.bits.toNat_lt
  rw [negative, negative, hpow, decide_eq_decide] at hsign
  rw [magnitude, magnitude, hpow] at hmagnitude
  have hbits : x.bits.toNat = y.bits.toNat := by omega
  exact congrArg mk (UInt64.toNat_inj.mp hbits)

/-- A number is known from its text, the sign of zero included. -/
theorem Layout.render_injective (l : Layout) {x y : Binary64} (hx : x.magnitude ≤ infinity)
    (hy : y.magnitude ≤ infinity) (h : l.render x = l.render y) : x = y := by
  unfold Layout.render at h
  rw [if_neg (Nat.not_lt.mpr hx), if_neg (Nat.not_lt.mpr hy), String.ofList_inj] at h
  cases hsx : x.negative <;> cases hsy : y.negative <;> rw [hsx, hsy] at h
  · exact eq_of_sign_magnitude (hsx.trans hsy.symm) (magnitude_injective l h)
  · exact absurd h (magnitude_ne_minus l _ _)
  · exact absurd h.symm (magnitude_ne_minus l _ _)
  · exact eq_of_sign_magnitude (hsx.trans hsy.symm) (magnitude_injective l (List.cons.inj h).2)

end StackPascal.Binary64
