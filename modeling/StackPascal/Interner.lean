import Std.Data.HashMap

/-!
Interned texts: each different text gets one number, counted from 0 in the
order of first appearance.

`number` gives the numbers by text and `texts` the texts by number. Numbers
are compared instead of texts, so `<` on them is the order of appearance.
-/

namespace StackPascal

structure Interner where
  number : Std.HashMap String Nat
  texts : Array String

namespace Interner

def empty : Interner := ⟨∅, #[]⟩

/-- The number of a text, a new one if the text is new. -/
def intern (i : Interner) (text : String) : Nat × Interner :=
  match i.number[text]? with
  | some n => (n, i)
  | none => (i.texts.size, ⟨i.number.insert text i.texts.size, i.texts.push text⟩)

def text? (i : Interner) (n : Nat) : Option String := i.texts[n]?

/-- The numbers of several texts, interned in order. -/
def internAll (i : Interner) : List String → List Nat × Interner
  | [] => ([], i)
  | t :: ts =>
    let (n, j) := i.intern t
    let (ns, k) := j.internAll ts
    (n :: ns, k)

end Interner

end StackPascal
