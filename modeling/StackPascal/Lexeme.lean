import StackPascal.Diagnostic
import StackPascal.Numeral
import StackPascal.Source
import StackPascal.Text.Blank

/-!
Cutting a source into tokens.

`Source.next` skips what stands between two tokens and reads one token; at the
end of the text it gives the end token, again and again. A `Lexeme` is a token
together with the problems met on the way to its end. `Source.lexemes` is the
whole text, up to and including the first end token.
-/

namespace StackPascal

structure Lexeme where
  token : Token
  reports : List Report
  deriving DecidableEq

def lexical (pos : Position) (p : LexicalProblem) : Report := ⟨pos, .lexical p⟩

/-! ## Between tokens -/

/-- Whether some token starts with the character. -/
def startsToken (c : Char) : Bool :=
  c.isAlpha || c.isDigit || c = '"' || (TokenKind.symbol? c none).isSome

/-- What the next character between two tokens belongs to. A block comment
knows where it was opened and how many comments are open inside it; `mark` is
the second character of a mark that opens or closes a comment. -/
inductive Gap
  | blank
  | line
  | block (opened : Position) (inner : Nat)
  | mark (after : Gap)

/-- Past a character of a gap, or at the start of a token. -/
inductive GapStep
  | past (reports : List Report) (gap : Gap)
  | token

def blankStep (g : Glyph) (next : Option Char) : GapStep :=
  if Text.isBlank g.char then .past [] .blank
  else if g.char = '/' ∧ next = some '/' then .past [] (.mark .line)
  else if g.char = '/' ∧ next = some '*' then .past [] (.mark (.block g.pos 0))
  else if startsToken g.char then .token
  else .past [lexical g.pos (.unknownToken g.char)] .blank

/-- The gap after the mark that closes a block comment. -/
def afterBlock (opened : Position) : Nat → Gap
  | 0 => .blank
  | n + 1 => .block opened n

def blockStep (opened : Position) (inner : Nat) (c : Char) (next : Option Char) : GapStep :=
  if c = '/' ∧ next = some '*' then .past [] (.mark (.block opened (inner + 1)))
  else if c = '*' ∧ next = some '/' then .past [] (.mark (afterBlock opened inner))
  else .past [] (.block opened inner)

def Gap.step (gap : Gap) (g : Glyph) (next : Option Char) : GapStep :=
  match gap with
  | .blank => blankStep g next
  | .line => .past [] (if g.char = '\n' then .blank else .line)
  | .block opened inner => blockStep opened inner g.char next
  | .mark after => .past [] after

/-- What is wrong if the text ends in the gap. -/
def Gap.atEnd : Gap → List Report
  | .block opened _ => [lexical opened .openComment]
  | .mark after => after.atEnd
  | _ => []

def nextChar (gs : List Glyph) : Option Char := gs.head?.map Glyph.char

/-- Drops blanks, comments and unknown characters up to the next token. -/
def skip : Gap → List Glyph → List Report × List Glyph
  | gap, [] => (gap.atEnd, [])
  | gap, g :: gs =>
    match gap.step g (nextChar gs) with
    | .token => ([], g :: gs)
    | .past reports after =>
      let (further, rest) := skip after gs
      (reports ++ further, rest)

theorem skip_length_le (gap : Gap) (gs : List Glyph) : (skip gap gs).2.length ≤ gs.length := by
  induction gs generalizing gap with
  | nil => exact Nat.le_refl _
  | cons g gs ih =>
    rw [skip]
    split
    · exact Nat.le_refl _
    · exact Nat.le_succ_of_le (ih _)

/-! ## Tokens -/

def charsOf (gs : List Glyph) : List Char := gs.map Glyph.char

def digitsOf (gs : List Glyph) : List Char := charsOf (gs.takeWhile (·.char.isDigit))

def afterDigits (gs : List Glyph) : List Glyph := gs.dropWhile (·.char.isDigit)

/-- The character that an escape stands for. -/
def unescape (c : Char) : Option Char :=
  if c = '"' ∨ c = '\'' ∨ c = '\\' then some c
  else if c = 'n' then some '\n'
  else if c = 't' then some '\t'
  else none

/-- The text of a string literal after its opening quote, the problems in it,
and what follows it; `escaped` says whether a backslash has just been read. The
end of the line ends the literal, and a backslash before it is dropped. -/
def stringBody (stop : Position) :
    Bool → List Glyph → List Char × List Report × List Glyph
  | _, [] => ([], [lexical stop .openString], [])
  | escaped, g :: gs =>
    if g.char = '\n' then ([], [lexical g.pos .openString], g :: gs)
    else if escaped then
      let (text, reports, rest) := stringBody stop false gs
      match unescape g.char with
      | some c => (c :: text, reports, rest)
      | none => (text, lexical g.pos (.unknownEscape g.char) :: reports, rest)
    else if g.char = '"' then ([], [], gs)
    else if g.char = '\\' then stringBody stop true gs
    else
      let (text, reports, rest) := stringBody stop false gs
      (g.char :: text, reports, rest)

/-- A point makes a literal real only if a digit follows it. -/
def fractionPart : List Glyph → Option (List Char × List Glyph)
  | [] => none
  | g :: gs =>
    if g.char = '.' ∧ digitsOf gs ≠ [] then some ('.' :: digitsOf gs, afterDigits gs) else none

/-- The sign of an exponent, where its last character so far stands, and what
follows it. -/
def exponentSign (pos : Position) : List Glyph → List Char × Position × List Glyph
  | [] => ([], pos, [])
  | g :: gs => if g.char = '+' ∨ g.char = '-' then ([g.char], g.pos, gs) else ([], pos, g :: gs)

/-- The exponent of a real literal. One without digits is reported at its last
character and left out. -/
def exponentPart : List Glyph → List Char × List Report × List Glyph
  | [] => ([], [], [])
  | g :: gs =>
    if g.char = 'e' then
      let (sign, last, rest) := exponentSign g.pos gs
      if digitsOf rest = [] then ([], [lexical last .missingExponent], rest)
      else ('e' :: sign ++ digitsOf rest, [], afterDigits rest)
    else ([], [], g :: gs)

def integerReports (pos : Position) (text : String) : List Report :=
  match Numeral.int? text with
  | some _ => []
  | none => [lexical pos (.integerRange text)]

/-- The number that starts with the digit `g`. -/
def number (g : Glyph) (gs : List Glyph) : Lexeme × List Glyph :=
  let whole := g.char :: digitsOf gs
  match fractionPart (afterDigits gs) with
  | none =>
    let text := String.ofList whole
    (⟨⟨.literal .int, text, g.pos⟩, integerReports g.pos text⟩, afterDigits gs)
  | some (fraction, rest) =>
    let (exponent, reports, after) := exponentPart rest
    (⟨⟨.literal .real, String.ofList (whole ++ fraction ++ exponent), g.pos⟩, reports⟩, after)

def continuesWord (c : Char) : Bool := c.isAlphanum || c = '_'

/-- A word is a keyword or an identifier. -/
def wordToken (text : String) (pos : Position) : Token :=
  match TokenKind.keyword? text with
  | some kind => .plain kind pos
  | none => ⟨.ident, text, pos⟩

/-- The word that starts with the letter `g`. -/
def word (g : Glyph) (gs : List Glyph) : Lexeme × List Glyph :=
  let text := g.char :: charsOf (gs.takeWhile (continuesWord ·.char))
  (⟨wordToken (String.ofList text) g.pos, []⟩, gs.dropWhile (continuesWord ·.char))

/-- The string literal that starts with the quote `g`. -/
def stringLiteral (stop : Position) (g : Glyph) (gs : List Glyph) : Lexeme × List Glyph :=
  let (text, reports, rest) := stringBody stop false gs
  (⟨⟨.literal .string, String.ofList text, g.pos⟩, reports⟩, rest)

/-- The token that starts with `g`. -/
def scan (stop : Position) (g : Glyph) (gs : List Glyph) : Lexeme × List Glyph :=
  match TokenKind.symbol? g.char (nextChar gs) with
  | some kind => (⟨.plain kind g.pos, []⟩, gs.drop (kind.spelling.length - 1))
  | none =>
    if g.char = '"' then stringLiteral stop g gs
    else if g.char.isDigit then number g gs
    else word g gs

theorem dropWhile_length_le (p : Glyph → Bool) (gs : List Glyph) :
    (gs.dropWhile p).length ≤ gs.length := (List.dropWhile_sublist p).length_le

theorem afterDigits_length_le (gs : List Glyph) : (afterDigits gs).length ≤ gs.length :=
  dropWhile_length_le _ gs

theorem stringBody_length_le (stop : Position) (escaped : Bool) (gs : List Glyph) :
    (stringBody stop escaped gs).2.2.length ≤ gs.length := by
  induction gs generalizing escaped with
  | nil => exact Nat.le_refl _
  | cons g gs ih =>
    have hf := ih false
    have ht := ih true
    rw [stringBody]
    split
    · exact Nat.le_refl _
    · split
      · cases hu : unescape g.char <;> simpa [hu] using Nat.le_succ_of_le hf
      · split
        · exact Nat.le_succ _
        · split
          · exact Nat.le_succ_of_le ht
          · exact Nat.le_succ_of_le hf

theorem fractionPart_length_le {gs rest : List Glyph} {text : List Char}
    (h : fractionPart gs = some (text, rest)) : rest.length ≤ gs.length := by
  cases gs with
  | nil => simp [fractionPart] at h
  | cons g gs =>
    rw [fractionPart] at h
    split at h
    · obtain ⟨_, rfl⟩ := Prod.mk.inj (Option.some.inj h)
      exact Nat.le_succ_of_le (afterDigits_length_le gs)
    · simp at h

theorem exponentSign_length_le (pos : Position) (gs : List Glyph) :
    (exponentSign pos gs).2.2.length ≤ gs.length := by
  cases gs with
  | nil => exact Nat.le_refl _
  | cons g gs =>
    rw [exponentSign]
    split
    · exact Nat.le_succ _
    · exact Nat.le_refl _

theorem exponentPart_length_le (gs : List Glyph) :
    (exponentPart gs).2.2.length ≤ gs.length := by
  cases gs with
  | nil => exact Nat.le_refl _
  | cons g gs =>
    have hs := exponentSign_length_le g.pos gs
    by_cases he : g.char = 'e'
    · by_cases hd : digitsOf (exponentSign g.pos gs).2.2 = []
      · simpa [exponentPart, he, hd] using Nat.le_succ_of_le hs
      · simpa [exponentPart, he, hd] using
          Nat.le_succ_of_le (Nat.le_trans (afterDigits_length_le _) hs)
    · simp [exponentPart, he]

theorem number_length_le (g : Glyph) (gs : List Glyph) :
    (number g gs).2.length ≤ gs.length := by
  have hd := afterDigits_length_le gs
  unfold number
  cases hf : fractionPart (afterDigits gs) with
  | none => exact hd
  | some p =>
    exact Nat.le_trans (exponentPart_length_le p.2)
      (Nat.le_trans (fractionPart_length_le hf) hd)

theorem scan_length_le (stop : Position) (g : Glyph) (gs : List Glyph) :
    (scan stop g gs).2.length ≤ gs.length := by
  unfold scan
  split
  · simp
  · split
    · exact stringBody_length_le stop false gs
    · split
      · exact number_length_le g gs
      · exact dropWhile_length_le _ gs

/-! ## The whole text -/

namespace Source

/-- The next token of the source, and the source after it. -/
def next (src : Source) : Lexeme × Source :=
  match skip .blank src.glyphs with
  | (reports, []) => (⟨.plain .eof src.stop, reports⟩, ⟨[], src.stop⟩)
  | (reports, g :: gs) =>
    let (lexeme, rest) := scan src.stop g gs
    (⟨lexeme.token, reports ++ lexeme.reports⟩, ⟨rest, src.stop⟩)

/-- The first `n` tokens; the end token repeats. -/
def take (src : Source) : Nat → List Lexeme
  | 0 => []
  | n + 1 =>
    let (lexeme, rest) := src.next
    lexeme :: rest.take n

/-- The tokens up to and including the first end token, `n` at most. -/
def lexemesWithin (src : Source) : Nat → List Lexeme
  | 0 => []
  | n + 1 =>
    let (lexeme, rest) := src.next
    if lexeme.token.kind = .eof then [lexeme] else lexeme :: rest.lexemesWithin n

/-- Every token takes a character, so one more than the characters are enough. -/
def lexemes (src : Source) : List Lexeme := src.lexemesWithin (src.glyphs.length + 1)

end Source

/-- The problems met while reading, in order. -/
def reportsOf (ls : List Lexeme) : List Report := ls.flatMap Lexeme.reports

end StackPascal
