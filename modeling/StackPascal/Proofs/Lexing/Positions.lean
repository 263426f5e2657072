import StackPascal.Proofs.Grammar.Parsing

/-!
Reading takes positions as they come.

* `skip_move`, `scan_move`: wherever the characters are moved to, the same gaps
  are skipped and the same tokens read;
* `Source.tokens_move`, `Source.reports_move`: so moving every character of a
  source moves its tokens and reports and changes nothing else;
* `place_down`: a text that starts some lines further down is such a move.
-/

namespace StackPascal

/-! ## Moving what stands in a text -/

variable (f : Position → Position)

def Glyph.move (g : Glyph) : Glyph := ⟨g.char, f g.pos⟩

def Token.move (t : Token) : Token := ⟨t.kind, t.text, f t.pos⟩

def Report.move (r : Report) : Report := ⟨f r.pos, r.problem⟩

def Lexeme.move (l : Lexeme) : Lexeme := ⟨l.token.move f, l.reports.map (Report.move f)⟩

def Source.move (src : Source) : Source := ⟨src.glyphs.map (Glyph.move f), f src.stop⟩

/-- A gap knows where its comment was opened. -/
def Gap.move : Gap → Gap
  | .blank => .blank
  | .line => .line
  | .block opened inner => .block (f opened) inner
  | .mark after => .mark after.move

def GapStep.move : GapStep → GapStep
  | .past reports gap => .past (reports.map (Report.move f)) (gap.move f)
  | .token => .token

@[simp] theorem GapStep.move_past (reports : List Report) (gap : Gap) :
    (past reports gap).move f = past (reports.map (Report.move f)) (gap.move f) := rfl

@[simp] theorem GapStep.move_token : token.move f = token := rfl

@[simp] theorem Report.move_lexical (pos : Position) (p : LexicalProblem) :
    (lexical pos p).move f = lexical (f pos) p := rfl

theorem nextChar_move (gs : List Glyph) : nextChar (gs.map (Glyph.move f)) = nextChar gs := by
  cases gs <;> rfl

theorem charsOf_move (gs : List Glyph) : charsOf (gs.map (Glyph.move f)) = charsOf gs := by
  simp [charsOf, Glyph.move]

theorem takeWhile_move (p : Char → Bool) (gs : List Glyph) :
    (gs.map (Glyph.move f)).takeWhile (p ·.char) =
      (gs.takeWhile (p ·.char)).map (Glyph.move f) := by
  rw [List.takeWhile_map]
  rfl

theorem dropWhile_move (p : Char → Bool) (gs : List Glyph) :
    (gs.map (Glyph.move f)).dropWhile (p ·.char) =
      (gs.dropWhile (p ·.char)).map (Glyph.move f) := by
  rw [List.dropWhile_map]
  rfl

theorem digitsOf_move (gs : List Glyph) : digitsOf (gs.map (Glyph.move f)) = digitsOf gs := by
  rw [digitsOf, takeWhile_move, charsOf_move]
  rfl

theorem afterDigits_move (gs : List Glyph) :
    afterDigits (gs.map (Glyph.move f)) = (afterDigits gs).map (Glyph.move f) :=
  dropWhile_move f Char.isDigit gs

theorem afterBlock_move (opened : Position) (inner : Nat) :
    (afterBlock opened inner).move f = afterBlock (f opened) inner := by
  cases inner <;> rfl

theorem Gap.step_move (gap : Gap) (g : Glyph) (next : Option Char) :
    (gap.move f).step (g.move f) next = (gap.step g next).move f := by
  cases gap with
  | blank =>
    show blankStep (g.move f) next = (blankStep g next).move f
    simp only [Gap.move, blankStep, apply_ite (GapStep.move f), GapStep.move_past]
    rfl
  | line =>
    simp only [Gap.move, Gap.step, GapStep.move_past, apply_ite (Gap.move f)]
    rfl
  | block opened inner =>
    simp only [Gap.move, Gap.step, blockStep, apply_ite (GapStep.move f), GapStep.move_past,
      afterBlock_move]
    rfl
  | mark after => rfl

theorem Gap.atEnd_move (gap : Gap) : (gap.move f).atEnd = gap.atEnd.map (Report.move f) := by
  induction gap with
  | blank | line | block => rfl
  | mark after ih => exact ih

theorem skip_move (gap : Gap) (gs : List Glyph) :
    skip (gap.move f) (gs.map (Glyph.move f)) =
      ((skip gap gs).1.map (Report.move f), (skip gap gs).2.map (Glyph.move f)) := by
  induction gs generalizing gap with
  | nil => simp [skip, Gap.atEnd_move]
  | cons g gs ih =>
    simp only [List.map_cons, skip, nextChar_move, Gap.step_move]
    cases gap.step g (nextChar gs) with
    | token => rfl
    | past reports after => simp [GapStep.move, ih]

theorem stringBody_move (stop : Position) (escaped : Bool) (gs : List Glyph) :
    stringBody (f stop) escaped (gs.map (Glyph.move f)) =
      ((stringBody stop escaped gs).1, (stringBody stop escaped gs).2.1.map (Report.move f),
        (stringBody stop escaped gs).2.2.map (Glyph.move f)) := by
  induction gs generalizing escaped with
  | nil => rfl
  | cons g gs ih =>
    by_cases hn : g.char = '\n'
    · simp [stringBody, hn, Glyph.move]
    cases escaped with
    | true => cases hu : unescape g.char <;> simp [stringBody, ih, hn, hu, Glyph.move]
    | false =>
      by_cases hq : g.char = '"'
      · simp [stringBody, hq, Glyph.move]
      by_cases hb : g.char = '\\' <;> simp [stringBody, ih, hn, hq, hb, Glyph.move]

theorem fractionPart_move (gs : List Glyph) :
    fractionPart (gs.map (Glyph.move f)) =
      (fractionPart gs).map fun p => (p.1, p.2.map (Glyph.move f)) := by
  cases gs with
  | nil => rfl
  | cons g gs =>
    by_cases h : g.char = '.' ∧ digitsOf gs ≠ [] <;>
      simp [fractionPart, Glyph.move, digitsOf_move, afterDigits_move, h]

theorem exponentSign_move (pos : Position) (gs : List Glyph) :
    exponentSign (f pos) (gs.map (Glyph.move f)) =
      ((exponentSign pos gs).1, f (exponentSign pos gs).2.1,
        (exponentSign pos gs).2.2.map (Glyph.move f)) := by
  cases gs with
  | nil => rfl
  | cons g gs =>
    by_cases h : g.char = '+' ∨ g.char = '-' <;> simp [exponentSign, Glyph.move, h]

theorem exponentPart_move (gs : List Glyph) :
    exponentPart (gs.map (Glyph.move f)) =
      ((exponentPart gs).1, (exponentPart gs).2.1.map (Report.move f),
        (exponentPart gs).2.2.map (Glyph.move f)) := by
  cases gs with
  | nil => rfl
  | cons g gs =>
    have hs := exponentSign_move f g.pos gs
    by_cases he : g.char = 'e'
    · by_cases hd : digitsOf (exponentSign g.pos gs).2.2 = [] <;>
        simp [exponentPart, Glyph.move, he, hs, digitsOf_move, afterDigits_move, hd]
    · simp [exponentPart, Glyph.move, he]

theorem integerReports_move (pos : Position) (text : String) :
    integerReports (f pos) text = (integerReports pos text).map (Report.move f) := by
  unfold integerReports
  split <;> rfl

theorem number_move (g : Glyph) (gs : List Glyph) :
    number (g.move f) (gs.map (Glyph.move f)) =
      ((number g gs).1.move f, (number g gs).2.map (Glyph.move f)) := by
  simp only [number, digitsOf_move, afterDigits_move, fractionPart_move]
  cases fractionPart (afterDigits gs) with
  | none => simp [Glyph.move, Lexeme.move, Token.move, integerReports_move]
  | some p => simp [Glyph.move, Lexeme.move, Token.move, exponentPart_move]

theorem wordToken_move (text : String) (pos : Position) :
    wordToken text (f pos) = (wordToken text pos).move f := by
  unfold wordToken
  split <;> rfl

theorem word_move (g : Glyph) (gs : List Glyph) :
    word (g.move f) (gs.map (Glyph.move f)) =
      ((word g gs).1.move f, (word g gs).2.map (Glyph.move f)) := by
  simp [word, takeWhile_move, dropWhile_move, charsOf_move, Glyph.move, Lexeme.move,
    wordToken_move]

theorem scan_move (stop : Position) (g : Glyph) (gs : List Glyph) :
    scan (f stop) (g.move f) (gs.map (Glyph.move f)) =
      ((scan stop g gs).1.move f, (scan stop g gs).2.map (Glyph.move f)) := by
  have hchar : (g.move f).char = g.char := rfl
  unfold scan
  rw [nextChar_move, hchar]
  cases TokenKind.symbol? g.char (nextChar gs) with
  | some kind => simp [Lexeme.move, Token.plain, Token.move, Glyph.move]
  | none =>
    by_cases hq : g.char = '"'
    · simp [hq, stringLiteral, stringBody_move, Lexeme.move, Token.move, Glyph.move]
    by_cases hd : g.char.isDigit
    · simpa [hq, hd] using number_move f g gs
    · simpa [hq, hd] using word_move f g gs

namespace Source

theorem next_move (src : Source) : (src.move f).next = (src.next.1.move f, src.next.2.move f) := by
  have hskip := skip_move f .blank src.glyphs
  simp only [next, move]
  rw [show skip .blank (src.glyphs.map (Glyph.move f)) = _ from hskip]
  obtain ⟨reports, _ | ⟨g, gs⟩⟩ := skip .blank src.glyphs
  · rfl
  · simp [scan_move, Lexeme.move]

theorem lexemesWithin_move (n : Nat) (src : Source) :
    (src.move f).lexemesWithin n = (src.lexemesWithin n).map (Lexeme.move f) := by
  induction n generalizing src with
  | zero => rfl
  | succ n ih =>
    by_cases h : src.next.1.token.kind = .eof <;>
      simp [lexemesWithin, next_move, ih, Lexeme.move, Token.move, h]

/-- Reading takes every position from the characters. -/
theorem lexemes_move (src : Source) : (src.move f).lexemes = src.lexemes.map (Lexeme.move f) := by
  unfold lexemes
  rw [lexemesWithin_move]
  simp [move]

/-- The problems of all tokens. -/
def reports (src : Source) : List Report := reportsOf src.lexemes

theorem tokens_move (src : Source) : (src.move f).tokens = src.tokens.map (Token.move f) := by
  simp only [tokens, lexemes_move, List.map_map]
  rfl

theorem reports_move (src : Source) : (src.move f).reports = src.reports.map (Report.move f) := by
  simp only [reports, reportsOf, lexemes_move, List.flatMap_map, List.map_flatMap]
  rfl

end Source

/-! ## Lines further down -/

/-- The same column, some lines further down. -/
def Position.down (lines : Nat) (p : Position) : Position := ⟨p.line + lines, p.column⟩

theorem Position.next_down (lines : Nat) (p : Position) (c : Char) :
    (p.down lines).next c = (p.next c).down lines := by
  unfold next
  split_ifs
  · exact congrArg (Position.mk · 1) (Nat.add_right_comm _ _ _)
  · rfl

theorem Position.after_down (lines : Nat) (p : Position) (cs : List Char) :
    (p.down lines).after cs = (p.after cs).down lines := by
  induction cs generalizing p with
  | nil => rfl
  | cons c cs ih =>
    show ((p.down lines).next c).after cs = _
    rw [next_down, ih]
    rfl

theorem place_down (lines : Nat) (p : Position) (cs : List Char) :
    place (p.down lines) cs = (place p cs).map (Glyph.move (Position.down lines)) := by
  induction cs generalizing p with
  | nil => rfl
  | cons c cs ih => simp [place, Position.next_down, ih, Glyph.move]

end StackPascal
