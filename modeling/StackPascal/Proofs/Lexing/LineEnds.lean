import Mathlib.Data.List.Find
import StackPascal.Proofs.Lexing.Positions

/-!
A newline separates what is read before it from what is read after it.

* `skip_lineEnd`, `scan_lineEnd`: a newline ends a gap and a token just as the
  end of the text does, unless a block comment is open;
* `Source.next_thenLine_of_eof`, `Source.next_thenLine_of_token`: so one token
  before a newline is read as at the end of the text;
* `Source.reading_thenLine`: and so are all of them;
* `lexing_at_line_end`: the tokens and reports of two texts with a newline
  between them.
-/

namespace StackPascal

/-! ## Gaps and tokens at a line end -/

variable {nl : Glyph} {more : List Glyph} {stop : Position}

/-- No step of a gap tells a newline from the end of the text. -/
theorem Gap.step_lineEnd (gap : Gap) (g : Glyph) :
    gap.step g (some '\n') = gap.step g none := by
  cases gap <;> simp [Gap.step, blankStep, blockStep]

/-- A mark has a second character, and what follows it is no mark. -/
def Gap.Ready : Gap → List Glyph → Prop
  | .mark (.mark _), _ => False
  | .mark _, gs => gs ≠ []
  | _, _ => True

theorem ne_nil_of_nextChar {gs : List Glyph} {c : Char} (h : nextChar gs = some c) : gs ≠ [] := by
  rintro rfl
  cases h

theorem afterBlock_ready (opened : Position) (inner : Nat) {gs : List Glyph} (hgs : gs ≠ []) :
    (Gap.mark (afterBlock opened inner)).Ready gs := by
  cases inner <;> exact hgs

theorem Gap.step_ready {gap : Gap} {g : Glyph} {gs : List Glyph} {reports : List Report}
    {after : Gap} (hready : gap.Ready (g :: gs))
    (h : gap.step g (nextChar gs) = .past reports after) : after.Ready gs := by
  cases gap with
  | blank =>
    simp only [Gap.step, blankStep] at h
    split_ifs at h with _ hl hc <;> cases h
    · trivial
    · exact ne_nil_of_nextChar hl.2
    · exact ne_nil_of_nextChar hc.2
    · trivial
  | line =>
    cases h
    split_ifs <;> trivial
  | block opened inner =>
    simp only [Gap.step, blockStep] at h
    split_ifs at h with ho hc <;> cases h
    · exact ne_nil_of_nextChar ho.2
    · exact afterBlock_ready _ _ (ne_nil_of_nextChar hc.2)
    · trivial
  | mark after =>
    cases h
    cases after <;> trivial

/-- Some block comment is still open at the end of a reading. -/
def openBlock (reports : List Report) : Prop := ∃ r ∈ reports, r.problem = .lexical .openComment

theorem openBlock_append {reports further : List Report} :
    openBlock (reports ++ further) ↔ openBlock reports ∨ openBlock further := by
  simp [openBlock, or_and_right, exists_or]

theorem skip_blank_lineEnd (hnl : nl.char = '\n') :
    skip .blank (nl :: more) = skip .blank more := by
  rw [skip]
  have hstep : Gap.blank.step nl (nextChar more) = .past [] .blank := by
    rw [Gap.step, blankStep, hnl, if_pos (by decide)]
  simp [hstep]

/-- At a newline every gap but an open comment goes on as between two tokens. -/
theorem skip_lineEnd (nl : Glyph) (more : List Glyph) (hnl : nl.char = '\n') (gs : List Glyph)
    (gap : Gap) (hready : gap.Ready gs) (hclosed : ¬ openBlock (skip gap gs).1) :
    skip gap (gs ++ nl :: more) =
      if (skip gap gs).2 = [] then
        ((skip gap gs).1 ++ (skip .blank more).1, (skip .blank more).2)
      else ((skip gap gs).1, (skip gap gs).2 ++ nl :: more) := by
  induction gs generalizing gap with
  | nil =>
    rw [if_pos (by rfl)]
    cases gap with
    | blank => simp [skip_blank_lineEnd hnl, skip, Gap.atEnd]
    | line => simp [skip, Gap.step, hnl, Gap.atEnd]
    | block opened inner =>
      exact absurd ⟨_, List.mem_singleton_self _, rfl⟩ hclosed
    | mark after => cases after <;> first | exact absurd rfl hready | exact hready.elim
  | cons g gs ih =>
    have hnext : gap.step g (nextChar (gs ++ nl :: more)) = gap.step g (nextChar gs) := by
      cases gs with
      | nil =>
        show gap.step g (some nl.char) = _
        rw [hnl]
        exact gap.step_lineEnd g
      | cons => rfl
    rw [List.cons_append, skip, hnext]
    cases hs : gap.step g (nextChar gs) with
    | token => simp [skip, hs]
    | past reports after =>
      have hskip : skip gap (g :: gs) = (reports ++ (skip after gs).1, (skip after gs).2) := by
        simp [skip, hs]
      rw [hskip] at hclosed ⊢
      have hopen : ¬ openBlock (skip after gs).1 := (not_or.mp (openBlock_append.not.mp hclosed)).2
      simp only [ih after (Gap.step_ready hready hs) hopen]
      split_ifs <;> simp

theorem isPrefixOf_concat {xs : List Char} {d : Char} (hd : d ∉ xs) (ys : List Char) :
    xs.isPrefixOf (ys ++ [d]) = xs.isPrefixOf ys := by
  induction xs generalizing ys with
  | nil => rfl
  | cons x xs ih =>
    obtain ⟨hne, hmem⟩ := not_or.mp (fun h => hd (List.mem_cons.mpr h))
    cases ys with
    | nil => simp [List.isPrefixOf, Ne.symm hne]
    | cons y ys => simp [List.isPrefixOf, ih hmem]

/-- No symbol goes on over a newline. -/
theorem TokenKind.symbol?_lineEnd (c : Char) : symbol? c (some '\n') = symbol? c none := by
  have hall : ∀ k ∈ symbols, '\n' ∉ k.spelling := by decide
  exact List.find?_congr fun k hk => isPrefixOf_concat (hall k hk) [c]

theorem TokenKind.symbol?_length {c : Char} {gs : List Glyph} {kind : TokenKind}
    (h : symbol? c (nextChar gs) = some kind) : kind.spelling.length - 1 ≤ gs.length := by
  have hp := List.find?_some h
  have hlen := (List.isPrefixOf_iff_prefix.mp hp).length_le
  cases gs <;> simp [nextChar] at hlen ⊢ <;> omega

/-! ## The parts of a token at a line end -/

section

variable (hnl : nl.char = '\n')
include hnl

theorem takeWhile_lineEnd {p : Char → Bool} (hp : p '\n' = false) (gs : List Glyph) :
    (gs ++ nl :: more).takeWhile (p ·.char) = gs.takeWhile (p ·.char) := by
  induction gs with
  | nil => simp [hnl, hp]
  | cons g gs ih => simp only [List.cons_append, List.takeWhile_cons, ih]

theorem dropWhile_lineEnd {p : Char → Bool} (hp : p '\n' = false) (gs : List Glyph) :
    (gs ++ nl :: more).dropWhile (p ·.char) = gs.dropWhile (p ·.char) ++ nl :: more := by
  induction gs with
  | nil => simp [hnl, hp]
  | cons g gs ih =>
    simp only [List.cons_append, List.dropWhile_cons, ih]
    split_ifs <;> rfl

theorem digitsOf_lineEnd (gs : List Glyph) : digitsOf (gs ++ nl :: more) = digitsOf gs :=
  congrArg charsOf (takeWhile_lineEnd hnl (p := Char.isDigit) (by decide) gs)

theorem afterDigits_lineEnd (gs : List Glyph) :
    afterDigits (gs ++ nl :: more) = afterDigits gs ++ nl :: more :=
  dropWhile_lineEnd hnl (p := Char.isDigit) (by decide) gs

/-- An open string is reported where its line ends. -/
theorem stringBody_lineEnd (escaped : Bool) (gs : List Glyph) :
    stringBody stop escaped (gs ++ nl :: more) =
      ((stringBody nl.pos escaped gs).1, (stringBody nl.pos escaped gs).2.1,
        (stringBody nl.pos escaped gs).2.2 ++ nl :: more) := by
  induction gs generalizing escaped with
  | nil => simp [stringBody, hnl]
  | cons g gs ih =>
    by_cases hn : g.char = '\n'
    · simp [stringBody, hn]
    cases escaped with
    | true => cases hu : unescape g.char <;> simp [stringBody, ih, hn, hu]
    | false =>
      by_cases hq : g.char = '"'
      · simp [stringBody, hq]
      by_cases hb : g.char = '\\' <;> simp [stringBody, ih, hn, hq, hb]

theorem fractionPart_lineEnd (gs : List Glyph) :
    fractionPart (gs ++ nl :: more) =
      (fractionPart gs).map fun p => (p.1, p.2 ++ nl :: more) := by
  cases gs with
  | nil => simp [fractionPart, hnl]
  | cons g gs =>
    by_cases h : g.char = '.' ∧ digitsOf gs ≠ [] <;>
      simp [fractionPart, digitsOf_lineEnd hnl, afterDigits_lineEnd hnl, h]

theorem exponentSign_lineEnd (pos : Position) (gs : List Glyph) :
    exponentSign pos (gs ++ nl :: more) =
      ((exponentSign pos gs).1, (exponentSign pos gs).2.1,
        (exponentSign pos gs).2.2 ++ nl :: more) := by
  cases gs with
  | nil => simp [exponentSign, hnl]
  | cons g gs => by_cases h : g.char = '+' ∨ g.char = '-' <;> simp [exponentSign, h]

theorem exponentPart_lineEnd (gs : List Glyph) :
    exponentPart (gs ++ nl :: more) =
      ((exponentPart gs).1, (exponentPart gs).2.1, (exponentPart gs).2.2 ++ nl :: more) := by
  cases gs with
  | nil => simp [exponentPart, hnl]
  | cons g gs =>
    by_cases he : g.char = 'e'
    · by_cases hd : digitsOf (exponentSign g.pos gs).2.2 = [] <;>
        simp [exponentPart, he, exponentSign_lineEnd hnl, digitsOf_lineEnd hnl,
          afterDigits_lineEnd hnl, hd]
    · simp [exponentPart, he]

theorem number_lineEnd (g : Glyph) (gs : List Glyph) :
    number g (gs ++ nl :: more) = ((number g gs).1, (number g gs).2 ++ nl :: more) := by
  simp only [number, digitsOf_lineEnd hnl, afterDigits_lineEnd hnl, fractionPart_lineEnd hnl]
  cases fractionPart (afterDigits gs) with
  | none => rfl
  | some p => simp [exponentPart_lineEnd hnl]

theorem word_lineEnd (g : Glyph) (gs : List Glyph) :
    word g (gs ++ nl :: more) = ((word g gs).1, (word g gs).2 ++ nl :: more) := by
  have hp : continuesWord '\n' = false := by decide
  simp only [word, takeWhile_lineEnd hnl hp, dropWhile_lineEnd hnl hp]

/-- A token ends at a newline as at the end of the text. -/
theorem scan_lineEnd (g : Glyph) (gs : List Glyph) :
    scan stop g (gs ++ nl :: more) =
      ((scan nl.pos g gs).1, (scan nl.pos g gs).2 ++ nl :: more) := by
  have hsym : TokenKind.symbol? g.char (nextChar (gs ++ nl :: more)) =
      TokenKind.symbol? g.char (nextChar gs) := by
    cases gs with
    | nil =>
      show TokenKind.symbol? g.char (some nl.char) = _
      rw [hnl]
      exact TokenKind.symbol?_lineEnd g.char
    | cons => rfl
  unfold scan
  rw [hsym]
  cases hk : TokenKind.symbol? g.char (nextChar gs) with
  | some kind => simp [List.drop_append_of_le_length (TokenKind.symbol?_length hk)]
  | none =>
    by_cases hq : g.char = '"'
    · simp [hq, stringLiteral, stringBody_lineEnd hnl]
    by_cases hd : g.char.isDigit
    · simpa [hq, hd] using number_lineEnd hnl g gs
    · simpa [hq, hd] using word_lineEnd hnl g gs

end

/-! ## Lexemes at a line end -/

namespace Source

theorem lexemesWithin_congr (n : Nat) : ∀ (m : Nat) (src : Source),
    src.glyphs.length < n → src.glyphs.length < m →
      src.lexemesWithin n = src.lexemesWithin m := by
  induction n with
  | zero => exact fun m src h => absurd h (Nat.not_lt_zero _)
  | succ n ih =>
    intro m src hn hm
    cases m with
    | zero => exact absurd hm (Nat.not_lt_zero _)
    | succ m =>
      simp only [lexemesWithin]
      obtain ⟨-, hend | ⟨hkind, hless⟩⟩ := src.next_cases
      · rw [if_pos (by rw [hend]; rfl), if_pos (by rw [hend]; rfl)]
      · rw [if_neg hkind, if_neg hkind, ih m src.next.2 (by omega) (by omega)]

/-- One token and the rest, however much of the text is left. -/
theorem lexemes_eq (src : Source) :
    src.lexemes =
      if src.next.1.token.kind = .eof then [src.next.1]
      else src.next.1 :: src.next.2.lexemes := by
  rw [lexemes, lexemesWithin]
  obtain ⟨-, hend | ⟨hkind, hless⟩⟩ := src.next_cases
  · have heof : src.next.1.token.kind = .eof := by rw [hend]; rfl
    simp only [if_pos heof]
  · simp only [if_neg hkind]
    rw [lexemes, lexemesWithin_congr src.glyphs.length _ src.next.2 hless (Nat.lt_succ_self _)]

theorem tokens_of_eof {src : Source} (h : src.next.1.token.kind = .eof) :
    src.tokens = [src.next.1.token] := by
  rw [tokens, lexemes_eq, if_pos h, List.map_singleton]

theorem tokens_of_token {src : Source} (h : src.next.1.token.kind ≠ .eof) :
    src.tokens = src.next.1.token :: src.next.2.tokens := by
  rw [tokens, lexemes_eq, if_neg h, List.map_cons, tokens]

theorem reports_of_eof {src : Source} (h : src.next.1.token.kind = .eof) :
    src.reports = src.next.1.reports := by
  rw [reports, lexemes_eq, if_pos h]
  simp [reportsOf]

theorem reports_of_token {src : Source} (h : src.next.1.token.kind ≠ .eof) :
    src.reports = src.next.1.reports ++ src.next.2.reports := by
  rw [reports, lexemes_eq, if_neg h]
  rfl

theorem tokens_ne_nil (src : Source) : src.tokens ≠ [] := by
  rw [src.tokens_eq.1]
  simp

theorem next_of_nil {src : Source} {reports : List Report}
    (h : skip .blank src.glyphs = (reports, [])) :
    src.next = (⟨.plain .eof src.stop, reports⟩, ⟨[], src.stop⟩) := by
  rw [next, h]

theorem next_of_cons {src : Source} {reports : List Report} {g : Glyph} {gs : List Glyph}
    (h : skip .blank src.glyphs = (reports, g :: gs)) :
    src.next =
      (⟨(scan src.stop g gs).1.token, reports ++ (scan src.stop g gs).1.reports⟩,
        ⟨(scan src.stop g gs).2, src.stop⟩) := by
  rw [next, h]

/-- A longer gap before the same token only adds what is reported in it. -/
theorem next_of_skip_eq {src more : Source} {reports : List Report} (hstop : src.stop = more.stop)
    (h : skip .blank src.glyphs =
      (reports ++ (skip .blank more.glyphs).1, (skip .blank more.glyphs).2)) :
    src.next = (⟨more.next.1.token, reports ++ more.next.1.reports⟩, more.next.2) := by
  cases hm : skip .blank more.glyphs with
  | mk further rest =>
    rw [hm] at h
    cases rest with
    | nil => rw [next_of_nil h, next_of_nil hm, hstop]
    | cons g rest => rw [next_of_cons h, next_of_cons hm, hstop, List.append_assoc]

/-- A source, a newline at its end, and another source after it. -/
def thenLine (src more : Source) : Source :=
  ⟨src.glyphs ++ ⟨'\n', src.stop⟩ :: more.glyphs, more.stop⟩

/-- At the end token before a newline, reading goes on with what follows. -/
theorem next_thenLine_of_eof {src : Source} (more : Source)
    (hclosed : ¬ openBlock src.next.1.reports) (heof : src.next.1.token.kind = .eof) :
    (src.thenLine more).next =
      (⟨more.next.1.token, src.next.1.reports ++ more.next.1.reports⟩, more.next.2) := by
  cases hs : skip .blank src.glyphs with
  | mk reports rest =>
    cases rest with
    | nil =>
      rw [next_of_nil hs] at hclosed ⊢
      have hskip := skip_lineEnd ⟨'\n', src.stop⟩ more.glyphs rfl src.glyphs .blank trivial
        (by rwa [hs])
      rw [hs, if_pos rfl] at hskip
      exact next_of_skip_eq rfl hskip
    | cons g rest =>
      rw [next_of_cons hs] at heof
      exact absurd heof (scan_ne_eof _ _ _)

/-- A token before a newline is read as if the text ended there. -/
theorem next_thenLine_of_token {src : Source} (more : Source)
    (hclosed : ¬ openBlock src.next.1.reports) (htoken : src.next.1.token.kind ≠ .eof) :
    (src.thenLine more).next = (src.next.1, src.next.2.thenLine more) := by
  cases hs : skip .blank src.glyphs with
  | mk reports rest =>
    cases rest with
    | nil =>
      rw [next_of_nil hs] at htoken
      exact absurd rfl htoken
    | cons g rest =>
      rw [next_of_cons hs] at hclosed ⊢
      have hskip := skip_lineEnd ⟨'\n', src.stop⟩ more.glyphs rfl src.glyphs .blank trivial
        (by
          rw [hs]
          exact (not_or.mp (openBlock_append.not.mp hclosed)).1)
      rw [hs, if_neg (List.cons_ne_nil g rest), List.cons_append] at hskip
      have hnext : (src.thenLine more).next = _ := next_of_cons hskip
      rw [hnext, scan_lineEnd rfl]
      rfl

/-- Reading over a newline gives what is read before it, up to the end token,
and then what is read after it. -/
theorem reading_thenLine (more : Source) (n : Nat) : ∀ src : Source, src.glyphs.length < n →
    ¬ openBlock src.reports →
    (src.thenLine more).tokens = src.tokens.dropLast ++ more.tokens ∧
      (src.thenLine more).reports = src.reports ++ more.reports := by
  induction n with
  | zero => exact fun src h => absurd h (Nat.not_lt_zero _)
  | succ n ih =>
    intro src hlen hclosed
    obtain ⟨-, hend | ⟨htoken, hless⟩⟩ := src.next_cases
    · have heof : src.next.1.token.kind = .eof := by rw [hend]; rfl
      rw [reports_of_eof heof] at hclosed ⊢
      rw [tokens_of_eof heof, List.dropLast_singleton, List.nil_append]
      have hnext := next_thenLine_of_eof more hclosed heof
      by_cases hlast : more.next.1.token.kind = .eof
      · have hall : (src.thenLine more).next.1.token.kind = .eof := by rw [hnext]; exact hlast
        rw [tokens_of_eof hall, tokens_of_eof hlast, reports_of_eof hall, reports_of_eof hlast,
          hnext]
        exact ⟨rfl, rfl⟩
      · have hall : (src.thenLine more).next.1.token.kind ≠ .eof := by rw [hnext]; exact hlast
        rw [tokens_of_token hall, tokens_of_token hlast, reports_of_token hall,
          reports_of_token hlast, hnext]
        exact ⟨rfl, List.append_assoc _ _ _⟩
    · rw [reports_of_token htoken] at hclosed ⊢
      obtain ⟨hfirst, hlater⟩ := not_or.mp (openBlock_append.not.mp hclosed)
      have hnext := next_thenLine_of_token more hfirst htoken
      have hall : (src.thenLine more).next.1.token.kind ≠ .eof := by rw [hnext]; exact htoken
      obtain ⟨htokens, hreports⟩ := ih src.next.2 (by omega) hlater
      rw [tokens_of_token hall, tokens_of_token htoken, reports_of_token hall, hnext, htokens,
        hreports, List.dropLast_cons_of_ne_nil (tokens_ne_nil _)]
      exact ⟨rfl, (List.append_assoc _ _ _).symm⟩

end Source

/-! ## Texts -/

theorem Position.after_line (p : Position) (cs : List Char) :
    (p.after cs).line = p.line + cs.count '\n' := by
  induction cs generalizing p with
  | nil => rfl
  | cons c cs ih =>
    show ((p.next c).after cs).line = _
    rw [ih, next, List.count_cons]
    by_cases h : c = '\n' <;> simp [h]; omega

/-- The newlines of a text. -/
def newlines (text : String) : Nat := text.toList.count '\n'

theorem Source.count_kept (text : String) : (kept text).count '\n' = newlines text :=
  List.count_filter (by decide)

/-- After a newline a text stands as many lines further down as end before it. -/
theorem Source.ofString_thenLine (s t : String) :
    ofString (s ++ "\n" ++ t) =
      (ofString s).thenLine ((ofString t).move (Position.down (newlines s + 1))) := by
  have hkept : kept (s ++ "\n" ++ t) = kept s ++ '\n' :: kept t := by simp [kept]
  have hline : (ofString s).stop.next '\n' = Position.start.down (newlines s + 1) := by
    show Position.mk ((Position.start.after (kept s)).line + 1) 1 = _
    rw [Position.after_line, count_kept]
    exact congrArg (Position.mk · 1) (Nat.add_assoc _ _ _)
  have hstop : Position.start.after (kept s ++ '\n' :: kept t) =
      (Position.start.after (kept t)).down (newlines s + 1) := by
    rw [Position.after_append, ← Position.after_down, ← hline]
    rfl
  have hglyphs : place .start (kept s ++ '\n' :: kept t) =
      place .start (kept s) ++ ⟨'\n', (ofString s).stop⟩ ::
        (place .start (kept t)).map (Glyph.move (Position.down (newlines s + 1))) := by
    rw [place_append, ← place_down, ← hline]
    rfl
  rw [ofString, hkept, hstop, hglyphs]
  rfl

/-- Reading two texts with a newline between them gives the tokens of the first
without its end token and then those of the second, as many lines further down
as the first text and the newline take; what is reported is likewise what the
first and then the second reports. The first text must close its comments. -/
theorem lexing_at_line_end (s t : String)
    (h : ∀ r ∈ (Source.ofString s).reports, r.problem ≠ .lexical .openComment) :
    (Source.ofString (s ++ "\n" ++ t)).tokens =
        (Source.ofString s).tokens.dropLast ++
          (Source.ofString t).tokens.map (Token.move (Position.down (newlines s + 1))) ∧
      (Source.ofString (s ++ "\n" ++ t)).reports =
        (Source.ofString s).reports ++
          (Source.ofString t).reports.map (Report.move (Position.down (newlines s + 1))) := by
  have hclosed : ¬ openBlock (Source.ofString s).reports := fun ⟨r, hr, hp⟩ => h r hr hp
  rw [Source.ofString_thenLine, ← Source.tokens_move, ← Source.reports_move]
  exact Source.reading_thenLine _ _ _ (Nat.lt_succ_self _) hclosed

/-- An open string and half an exponent before the newline, an unknown character after it. -/
theorem lexing_at_line_end_malformed :
    (∀ r ∈ (Source.ofString "a\n1.5e+ \"b\\").reports, r.problem ≠ .lexical .openComment) ∧
      (Source.ofString "a\n1.5e+ \"b\\\n?c").tokens =
        (Source.ofString "a\n1.5e+ \"b\\").tokens.dropLast ++
          (Source.ofString "?c").tokens.map (Token.move (Position.down 2)) ∧
      (Source.ofString "a\n1.5e+ \"b\\\n?c").reports =
        [lexical ⟨2, 5⟩ .missingExponent, lexical ⟨2, 10⟩ .openString,
          lexical ⟨3, 1⟩ (.unknownToken '?')] := by
  have hs : (Source.ofString "a\n1.5e+ \"b\\").reports =
      [lexical ⟨2, 5⟩ .missingExponent, lexical ⟨2, 10⟩ .openString] := by decide +kernel
  have h : ∀ r ∈ (Source.ofString "a\n1.5e+ \"b\\").reports,
      r.problem ≠ .lexical .openComment := by
    rw [hs]
    decide
  obtain ⟨htokens, hreports⟩ := lexing_at_line_end _ "?c" h
  refine ⟨h, htokens, hreports.trans ?_⟩
  rw [hs]
  decide +kernel

end StackPascal
