/-!
Positions in a source text: line and column, both counted from 1.

* `Position.next`: where the character after a given one stands;
* `Position.after`: where the text after some characters goes on;
* the order of positions is the order of the characters that stand at them.
-/

namespace StackPascal

structure Position where
  line : Nat
  column : Nat
  deriving DecidableEq

namespace Position

def start : Position := ⟨1, 1⟩

/-- The position of predefined names, which stand in no text. -/
def nowhere : Position := ⟨0, 0⟩

/-- A newline ends its line; every other character takes one column. -/
def next (p : Position) (c : Char) : Position :=
  if c = '\n' then ⟨p.line + 1, 1⟩ else ⟨p.line, p.column + 1⟩

def after (p : Position) (cs : List Char) : Position := cs.foldl next p

instance : LT Position :=
  ⟨fun p q => p.line < q.line ∨ (p.line = q.line ∧ p.column < q.column)⟩

instance (p q : Position) : Decidable (p < q) :=
  inferInstanceAs (Decidable (p.line < q.line ∨ (p.line = q.line ∧ p.column < q.column)))

def render (p : Position) : String :=
  "(" ++ toString p.line ++ "," ++ toString p.column ++ ")"

theorem lt_next (p : Position) (c : Char) : p < p.next c := by
  unfold next
  split
  · exact .inl (Nat.lt_succ_self _)
  · exact .inr ⟨rfl, Nat.lt_succ_self _⟩

theorem lt_irrefl (p : Position) : ¬ p < p := by
  rintro (h | ⟨_, h⟩)
  · exact Nat.lt_irrefl _ h
  · exact Nat.lt_irrefl _ h

theorem lt_trans {p q r : Position} (hpq : p < q) (hqr : q < r) : p < r := by
  rcases hpq with h | ⟨h, h'⟩ <;> rcases hqr with k | ⟨k, k'⟩
  · exact .inl (Nat.lt_trans h k)
  · exact .inl (k ▸ h)
  · exact .inl (h ▸ k)
  · exact .inr ⟨h.trans k, Nat.lt_trans h' k'⟩

theorem after_append (p : Position) (cs ds : List Char) :
    p.after (cs ++ ds) = (p.after cs).after ds := List.foldl_append

end Position

end StackPascal
