import StackPascal.Position

/-!
A source text as a list of placed characters.

Carriage returns are dropped before anything else, so a line may end in
`\r\n` or in `\n`. `Source.ofString` places the characters that are left;
`Reader` walks over them one by one and counts the positions itself.
-/

namespace StackPascal

/-- A character and where it stands. -/
structure Glyph where
  char : Char
  pos : Position
  deriving DecidableEq

/-- Characters placed one after the other from `p` on. -/
def place (p : Position) : List Char → List Glyph
  | [] => []
  | c :: cs => ⟨c, p⟩ :: place (p.next c) cs

/-- The characters still to be read, and the position just past the last. -/
structure Source where
  glyphs : List Glyph
  stop : Position
  deriving DecidableEq

namespace Source

/-- The characters of a text that count. -/
def kept (text : String) : List Char := text.toList.filter (· ≠ '\r')

def ofString (text : String) : Source :=
  ⟨place .start (kept text), Position.start.after (kept text)⟩

end Source

theorem place_append (p : Position) (cs ds : List Char) :
    place p (cs ++ ds) = place p cs ++ place (p.after cs) ds := by
  induction cs generalizing p with
  | nil => rfl
  | cons c cs ih => simp [place, Position.after, ih]

theorem place_length (p : Position) (cs : List Char) : (place p cs).length = cs.length := by
  induction cs generalizing p with
  | nil => rfl
  | cons c cs ih => simp [place, ih]

/-! ## Reading character by character -/

/-- A walk over the characters of a text that counts lines and columns as it goes. `next` is the
index of the character to be read next, which stands at `line` and `column`; `pos` is where
`current` stands, or just past the text at its end. Before the first reading nothing is current. -/
structure Reader where
  chars : Array Char
  next : Nat
  current : Option Char
  pos : Position
  line : Nat
  column : Nat

namespace Reader

def ofString (text : String) : Reader :=
  ⟨(Source.kept text).toArray, 0, none, ⟨1, 0⟩, 1, 1⟩

/-- Counts the character just taken. -/
def count (r : Reader) (c : Char) : Reader :=
  if c = '\n' then { r with next := r.next + 1, line := r.line + 1, column := 1 }
  else { r with next := r.next + 1, column := r.column + 1 }

/-- The position is noted before the character is counted; at the end there is nothing to count. -/
def read (r : Reader) : Reader :=
  let taken := { r with pos := ⟨r.line, r.column⟩, current := r.chars[r.next]? }
  match taken.current with
  | none => taken
  | some c => taken.count c

/-- What the reading after `offset` further ones will return. -/
def peek (r : Reader) (offset : Nat) : Option Char := r.chars[r.next + offset]?

end Reader

end StackPascal
