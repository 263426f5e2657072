import Mathlib.Data.List.Nodup
import StackPascal.Binary64
import StackPascal.Operator
import StackPascal.Types

/-!
Values, and the arrays that hold them.

* `Scalar`, `Primitives`: values without parts, and what the primitive
  operations make of them, which is left open;
* `Heap`: the arrays made so far;
* `Heap.Holds`: a heap that has the arrays of another one under other numbers.
-/

namespace StackPascal

inductive Scalar
  | int (value : Int)
  | real (value : Binary64)
  | text (value : String)
  | bool (value : Bool)
  deriving DecidableEq

/-- An interpretation of the primitive operations. An operation may be undefined,
as a division by zero is. -/
structure Primitives where
  binary : BinOp → BasicType → Scalar → Scalar → Option Scalar
  neg : BasicType → Scalar → Option Scalar
  widen : Scalar → Option Scalar
  not : Scalar → Option Scalar
  toStr : ValueType → Scalar → Option String
  join : List String → String → Option String

/-- What a variable of the type begins with. -/
def BasicType.zero : BasicType → Option Scalar
  | int => some (.int 0)
  | real => some (.real .zero)
  | string => some (.text "")
  | bool => some (.bool false)
  | void => none

namespace Scalar

/-- The length or the index that a value stands for. -/
def nat? : Scalar → Option Nat
  | int n => n.toNat?
  | _ => none

def text? : Scalar → Option String
  | text s => some s
  | _ => none

theorem mapM_text? (texts : List String) : (texts.map text).mapM text? = some texts := by
  induction texts with
  | nil => rfl
  | cons s texts ih => rw [List.map_cons, List.mapM_cons, ih]; rfl

end Scalar

/-! ## Arrays -/

/-- The arrays in the order in which they were made; a reference is the number
of an array. -/
abbrev Heap := List (List Scalar)

namespace Heap

def size? (h : Heap) (r : Nat) : Option Nat := h[r]?.map List.length

def read (h : Heap) (r i : Nat) : Option Scalar := h[r]?.bind (·[i]?)

/-- There is no such element to write to if the index is out of range. -/
def write (h : Heap) (r i : Nat) (x : Scalar) : Option Heap :=
  h[r]?.bind fun xs => if i < xs.length then some (h.set r (xs.set i x)) else none

/-- The heap with one more array, of `n` zero elements. -/
def make (h : Heap) (element : BasicType) (n : Nat) : Option Heap :=
  element.zero.map fun z => h ++ [List.replicate n z]

theorem write_last {h : Heap} {xs : List Scalar} {i : Nat} (hi : i < xs.length) (x : Scalar) :
    write (h ++ [xs]) h.length i x = some (h ++ [xs.set i x]) := by
  rw [write, List.getElem?_concat_length, Option.bind_some, if_pos hi, List.set_append_right _ _ (Nat.le_refl _),
    Nat.sub_self]
  rfl

/-- The array with number `r` of `h` is the array with number `arrays[r]` of `h'`. -/
structure Holds (arrays : List Nat) (h h' : Heap) : Prop where
  length : arrays.length = h.length
  distinct : arrays.Nodup
  same : ∀ r r' : Nat, arrays[r]? = some r' → h'[r']? = h[r]?

namespace Holds

variable {arrays : List Nat} {h h' k : Heap} {r r' i : Nat} {x : Scalar}

theorem read (hh : Holds arrays h h') (hr : arrays[r]? = some r') : h'.read r' i = h.read r i := by
  rw [Heap.read, hh.same r r' hr, Heap.read]

theorem size (hh : Holds arrays h h') (hr : arrays[r]? = some r') : h'.size? r' = h.size? r := by
  rw [size?, hh.same r r' hr, size?]

theorem lt_length (hh : Holds arrays h h') (hr : arrays[r]? = some r') : r' < h'.length := by
  have hlt : r < h.length := hh.length ▸ (List.getElem?_eq_some_iff.mp hr).1
  have hsome : h'[r']? = some h[r] := (hh.same r r' hr).trans (List.getElem?_eq_getElem hlt)
  exact (List.getElem?_eq_some_iff.mp hsome).1

/-- Both heaps are written to alike. -/
theorem write (hh : Holds arrays h h') (hr : arrays[r]? = some r') (hw : h.write r i x = some k) :
    ∃ k', h'.write r' i x = some k' ∧ Holds arrays k k' := by
  obtain ⟨xs, hxs, hw⟩ := Option.bind_eq_some_iff.mp hw
  have hxs' : h'[r']? = some xs := (hh.same r r' hr).trans hxs
  split at hw
  · next hi =>
    obtain rfl := Option.some.inj hw
    refine ⟨h'.set r' (xs.set i x), ?_, ?_, hh.distinct, fun q q' hq => ?_⟩
    · rw [Heap.write, hxs', Option.bind_some, if_pos hi]
    · rw [hh.length, List.length_set]
    · by_cases he : q = r
      · subst he
        obtain rfl := Option.some.inj (hr.symm.trans hq)
        have hlt := (List.getElem?_eq_some_iff.mp hxs).1
        rw [List.getElem?_set_self (hh.lt_length hq), List.getElem?_set_self hlt]
      · have hne : q' ≠ r' := by
          rintro rfl
          obtain ⟨hlt, hval⟩ := List.getElem?_eq_some_iff.mp hq
          obtain ⟨hlt', hval'⟩ := List.getElem?_eq_some_iff.mp hr
          exact he (hh.distinct.getElem_inj_iff.mp (hval.trans hval'.symm))
        rw [List.getElem?_set_ne hne.symm, List.getElem?_set_ne (Ne.symm he), hh.same q q' hq]
  · cases hw

/-- Both heaps get the same new array. -/
theorem make (hh : Holds arrays h h') (xs : List Scalar) :
    Holds (arrays ++ [h'.length]) (h ++ [xs]) (h' ++ [xs]) := by
  refine ⟨?_, ?_, fun q q' hq => ?_⟩
  · rw [List.length_append, List.length_append, hh.length]
    rfl
  · refine List.nodup_append.mpr ⟨hh.distinct, List.nodup_singleton _, fun q' hq' m hm => ?_⟩
    obtain ⟨q, hq⟩ := List.mem_iff_getElem?.mp hq'
    cases List.mem_singleton.mp hm
    exact Nat.ne_of_lt (hh.lt_length hq)
  · by_cases hlt : q < arrays.length
    · rw [List.getElem?_append_left hlt] at hq
      rw [List.getElem?_append_left (hh.lt_length hq), List.getElem?_append_left (hh.length ▸ hlt)]
      exact hh.same q q' hq
    · rw [List.getElem?_append_right (Nat.le_of_not_lt hlt)] at hq
      obtain ⟨hz, rfl⟩ : q - arrays.length = 0 ∧ h'.length = q' := by
        simpa [List.getElem?_singleton] using hq
      obtain rfl : q = h.length := by
        have := hh.length
        omega
      rw [List.getElem?_concat_length, List.getElem?_concat_length]

/-- An array that only the second heap has. -/
theorem extra (hh : Holds arrays h h') (xs : List Scalar) : Holds arrays h (h' ++ [xs]) := by
  refine ⟨hh.length, hh.distinct, fun q q' hq => ?_⟩
  rw [List.getElem?_append_left (hh.lt_length hq)]
  exact hh.same q q' hq

end Holds

end Heap

end StackPascal
