import Mathlib.Logic.Function.Iterate
import StackPascal.Proofs.Snippets

/-!
Reading a text character by character.

* `Reader.Counted`: what the counters say after some readings, kept by every reading
  (`Counted.read`);
* `Reader.peek_eq`: what lies ahead can be looked at without reading it;
* `Reader.read_end`: at the end of the text reading changes nothing any more;
* `Reader.glyph_reads`: the characters read and their counted positions are the placed characters
  of the source that tokens are cut from;
* `reader_positions`: what is current after some readings, and where it stands.
-/

namespace StackPascal

theorem getElem?_place (p : Position) (cs : List Char) (n : Nat) :
    (place p cs)[n]? = cs[n]?.map (⟨·, p.after (cs.take n)⟩) := by
  induction cs generalizing p n with
  | nil => rfl
  | cons c cs ih =>
    cases n with
    | zero => rfl
    | succ n => exact ih (p.next c) n

namespace Reader

/-! ## One reading -/

theorem current_read (r : Reader) : r.read.current = r.peek 0 := by
  unfold read count peek
  cases r.chars[r.next]? with
  | none => rfl
  | some c => dsimp only; split <;> rfl

theorem pos_read (r : Reader) : r.read.pos = ⟨r.line, r.column⟩ := by
  unfold read count
  cases r.chars[r.next]? with
  | none => rfl
  | some c => dsimp only; split <;> rfl

theorem chars_read (r : Reader) : r.read.chars = r.chars := by
  unfold read count
  cases r.chars[r.next]? with
  | none => rfl
  | some c => dsimp only; split <;> rfl

/-- At the end of the text a reading leaves the counters where they are. -/
theorem read_of_none {r : Reader} (h : r.peek 0 = none) :
    r.read = { r with pos := ⟨r.line, r.column⟩, current := none } := by
  unfold read
  rw [show r.chars[r.next]? = none from h]

theorem next_of_some {r : Reader} {c : Char} (h : r.peek 0 = some c) :
    r.read.next = r.next + 1 := by
  unfold read count
  rw [show r.chars[r.next]? = some c from h]
  dsimp only
  split <;> rfl

/-- The counters go on as the positions of characters do. -/
theorem counters_of_some {r : Reader} {c : Char} (h : r.peek 0 = some c) :
    (⟨r.read.line, r.read.column⟩ : Position) = Position.next ⟨r.line, r.column⟩ c := by
  unfold read count Position.next
  rw [show r.chars[r.next]? = some c from h]
  dsimp only
  split <;> rfl

/-! ## Looking ahead, and the end -/

theorem peek_read (r : Reader) (offset : Nat) : r.read.peek offset = r.peek (offset + 1) := by
  cases h : r.peek 0 with
  | some c =>
    unfold peek
    rw [chars_read, next_of_some h, Nat.add_assoc, Nat.add_comm 1]
  | none =>
    have hend : r.chars.size ≤ r.next := Array.getElem?_eq_none_iff.mp h
    rw [read_of_none h]
    unfold peek
    rw [Array.getElem?_eq_none (Nat.le_add_right_of_le hend),
      Array.getElem?_eq_none (Nat.le_add_right_of_le hend)]

theorem peek_reads (r : Reader) (n offset : Nat) : (read^[n] r).peek offset = r.peek (offset + n) := by
  induction n generalizing offset with
  | zero => rfl
  | succ n ih => rw [Function.iterate_succ_apply', peek_read, ih, Nat.add_right_comm, Nat.add_assoc]

/-- Looking ahead tells what will be current. -/
theorem peek_eq (r : Reader) (offset : Nat) : r.peek offset = (read^[offset + 1] r).current := by
  rw [Function.iterate_succ_apply', current_read, peek_reads, Nat.zero_add]

/-- A reading that finds nothing leaves everything as further ones do. -/
theorem read_end {r : Reader} (h : r.read.current = none) : r.read.read = r.read := by
  rw [current_read] at h
  rw [read_of_none h]
  exact read_of_none h

theorem reads_end {r : Reader} (h : r.read.current = none) (n : Nat) : read^[n] r.read = r.read :=
  Function.iterate_fixed (read_end h) n

/-! ## The counters after some readings -/

/-- What `n` readings of a text have done to the counters. -/
structure Counted (text : String) (n : Nat) (r : Reader) : Prop where
  chars : r.chars = (Source.kept text).toArray
  next : r.next = min n (Source.kept text).length
  counters : (⟨r.line, r.column⟩ : Position) = Position.start.after ((Source.kept text).take n)

variable {text : String} {n : Nat} {r : Reader}

theorem Counted.peek (h : Counted text n r) : r.peek 0 = (Source.kept text)[n]? := by
  unfold Reader.peek
  rw [h.chars, h.next, List.getElem?_toArray, Nat.add_zero]
  by_cases hn : n ≤ (Source.kept text).length
  · rw [Nat.min_eq_left hn]
  · have hle : (Source.kept text).length ≤ n := Nat.le_of_not_le hn
    rw [Nat.min_eq_right hle, List.getElem?_eq_none hle, List.getElem?_eq_none (Nat.le_refl _)]

theorem Counted.read (h : Counted text n r) : Counted text (n + 1) r.read := by
  have hpeek := h.peek
  cases hc : r.peek 0 with
  | some c =>
    rw [hc] at hpeek
    obtain ⟨hn, hget⟩ := List.getElem?_eq_some_iff.mp hpeek.symm
    refine ⟨(chars_read r).trans h.chars, ?_, ?_⟩
    · rw [next_of_some hc, h.next, Nat.min_eq_left (Nat.le_of_lt hn), Nat.min_eq_left hn]
    · rw [counters_of_some hc, h.counters, List.take_succ_eq_append_getElem hn, hget,
        Position.after_append]
      rfl
  | none =>
    rw [hc] at hpeek
    have hn : (Source.kept text).length ≤ n := List.getElem?_eq_none_iff.mp hpeek.symm
    have hn' : (Source.kept text).length ≤ n + 1 := Nat.le_succ_of_le hn
    rw [read_of_none hc]
    refine ⟨h.chars, ?_, ?_⟩
    · rw [Nat.min_eq_right hn']
      exact h.next.trans (Nat.min_eq_right hn)
    · rw [List.take_of_length_le hn']
      exact h.counters.trans (congrArg _ (List.take_of_length_le hn))

theorem counted (text : String) (n : Nat) : Counted text n (Reader.read^[n] (ofString text)) := by
  induction n with
  | zero => exact ⟨rfl, (Nat.zero_min _).symm, rfl⟩
  | succ n ih =>
    rw [Function.iterate_succ_apply']
    exact ih.read

theorem current_reads (text : String) (n : Nat) :
    (Reader.read^[n + 1] (ofString text)).current = (Source.kept text)[n]? := by
  rw [Function.iterate_succ_apply', current_read, (counted text n).peek]

theorem pos_reads (text : String) (n : Nat) :
    (Reader.read^[n + 1] (ofString text)).pos = Position.start.after ((Source.kept text).take n) := by
  rw [Function.iterate_succ_apply', pos_read, (counted text n).counters]

/-- The readings give the placed characters of the source, one after the other. -/
theorem glyph_reads (text : String) (n : Nat) :
    (Source.ofString text).glyphs[n]? =
      (Reader.read^[n + 1] (ofString text)).current.map
        (⟨·, (Reader.read^[n + 1] (ofString text)).pos⟩) := by
  rw [current_reads, pos_reads]
  exact getElem?_place ..

end Reader

/-- Carriage returns apart, the readings give the characters of the text one after the
other, each with the number of its line and its place in it, and then nothing, just past
the text, again and again. What later readings will give can be looked at before. So
counted, the characters stand where the source that tokens are cut from has them. -/
theorem reader_positions (text : String) (k : Nat) :
    let kept := text.toList.filter (· ≠ '\r')
    let r := Reader.read^[k + 1] (Reader.ofString text)
    r.current = kept[k]? ∧
      r.pos = ⟨1 + (kept.take k).count '\n', 1 + (lineBefore (kept.take k)).length⟩ ∧
      (∀ offset, r.peek offset = (Reader.read^[offset + 1] r).current) ∧
      (kept.length ≤ k → (∀ n, Reader.read^[n] r = r) ∧ r.pos = (Source.ofString text).stop) ∧
      (Source.ofString text).glyphs[k]? = r.current.map (⟨·, r.pos⟩) := by
  intro kept r
  have hcurrent : r.current = kept[k]? := Reader.current_reads text k
  have hpos : r.pos = Position.start.after (kept.take k) := Reader.pos_reads text k
  refine ⟨hcurrent, ?_, Reader.peek_eq r, fun hend => ⟨fun n => ?_, ?_⟩, Reader.glyph_reads text k⟩
  · rw [hpos, Position.after_start, Nat.add_comm, Nat.add_comm (lineBefore _).length]
  · rw [List.getElem?_eq_none hend] at hcurrent
    have hr : r = (Reader.read^[k] (Reader.ofString text)).read := Function.iterate_succ_apply' ..
    rw [hr] at hcurrent ⊢
    exact Reader.reads_end hcurrent n
  · rw [hpos, List.take_of_length_le hend]
    rfl

end StackPascal
