import Mathlib.Data.List.TakeWhile
import StackPascal.Proofs.Grammar.OnDemand
import StackPascal.Proofs.Lexing.Gaps
import StackPascal.Proofs.Lexing.Reports

/-!
The characters of each token.

* `Decodes`: what the characters of a string stand for;
* `Form.ReadFrom`: the characters that a token of some form is read from;
* `scan_readFrom`: a token is read from such characters, and they are the next ones;
* `Cut`: tokens cut out of characters, one after the other, with gaps between them;
* `cut_text`: so are the tokens of a source;
* `lexing_moves_forward`: tokens and problems come in the order of the text, and
  behind the end token nothing else comes.
-/

namespace StackPascal

/-! ## What a token is read from -/

/-- The characters of a real number. -/
def realChars (whole fraction : Digits) (exponent : Option Exponent) : List Char :=
  whole.chars ++ '.' :: fraction.chars ++ (exponent.map Exponent.chars).getD []

/-- What the characters between the quotes of a string stand for. Only an escaped quote may
be among them; an unknown escape is reported, and stands for nothing. -/
inductive Decodes : List Char → List Char → Prop
  | nil : Decodes [] []
  | plain {c : Char} {cs text : List Char} : c ≠ '"' → c ≠ '\\' → c ≠ '\n' → Decodes cs text →
      Decodes (c :: cs) (c :: text)
  | escape {c d : Char} {cs text : List Char} : unescape c = some d → Decodes cs text →
      Decodes ('\\' :: c :: cs) (d :: text)
  | unknown {c : Char} {cs text : List Char} : unescape c = none → c ≠ '\n' → Decodes cs text →
      Decodes ('\\' :: c :: cs) text

/-- A token is read from the characters that it is written with, in front of others. An exponent
without digits is read but left out. A string without a quote at its end is read up to the end of
the line or of the text, and a last backslash in it is left out. -/
inductive Form.ReadFrom : Form → List Char → List Char → Prop
  | symbol {kind : TokenKind} {more : List Char} : kind ∈ TokenKind.symbols →
      ReadFrom (.plain kind) kind.spelling more
  | keyword {kind : TokenKind} {more : List Char} : kind ∈ TokenKind.keywords →
      ReadFrom (.plain kind) kind.spelling more
  | ident {c : Char} {cs more : List Char} : c.isAlpha = true → (∀ d ∈ cs, continuesWord d = true) →
      ReadFrom ⟨.ident, String.ofList (c :: cs)⟩ (c :: cs) more
  | int {more : List Char} (digits : Digits) :
      ReadFrom ⟨.literal .int, String.ofList digits.chars⟩ digits.chars more
  | real {more : List Char} (whole fraction : Digits) (exponent : Option Exponent) :
      ReadFrom ⟨.literal .real, String.ofList (realChars whole fraction exponent)⟩
        (realChars whole fraction exponent) more
  | malformed {more : List Char} (whole fraction : Digits) {sign : List Char} :
      sign ∈ [[], ['+'], ['-']] →
      ReadFrom ⟨.literal .real, String.ofList (realChars whole fraction none)⟩
        (realChars whole fraction none ++ 'e' :: sign) more
  | string {body text more : List Char} : Decodes body text →
      ReadFrom ⟨.literal .string, String.ofList text⟩ ('"' :: (body ++ ['"'])) more
  | openString {body text last more : List Char} : Decodes body text → last ∈ [[], ['\\']] →
      more.head? ∈ [none, some '\n'] →
      ReadFrom ⟨.literal .string, String.ofList text⟩ ('"' :: (body ++ last)) more

theorem charsOf_append (gs more : List Glyph) : charsOf (gs ++ more) = charsOf gs ++ charsOf more :=
  List.map_append

/-! ## Reading a token -/

theorem digitsOf_isDigit (gs : List Glyph) : ∀ c ∈ digitsOf gs, c.isDigit = true := by
  intro c hc
  obtain ⟨g, hg, rfl⟩ := List.mem_map.mp hc
  exact List.mem_takeWhile_imp (p := fun g : Glyph => g.char.isDigit) hg

/-- The digits that come next. -/
theorem digits_split (gs : List Glyph) : ∃ own, gs = own ++ afterDigits gs ∧ charsOf own = digitsOf gs :=
  ⟨gs.takeWhile (·.char.isDigit), List.takeWhile_append_dropWhile.symm, rfl⟩

def Digits.ofRun (gs : List Glyph) (h : digitsOf gs ≠ []) : Digits := ⟨digitsOf gs, h, digitsOf_isDigit gs⟩

def Digits.ofFirst (g : Glyph) (hg : g.char.isDigit = true) (gs : List Glyph) : Digits :=
  ⟨g.char :: digitsOf gs, List.cons_ne_nil _ _, List.forall_mem_cons.mpr ⟨hg, digitsOf_isDigit gs⟩⟩

theorem fractionPart_split {gs rest : List Glyph} {text : List Char}
    (h : fractionPart gs = some (text, rest)) :
    ∃ own, ∃ fraction : Digits, gs = own ++ rest ∧ charsOf own = text ∧ text = '.' :: fraction.chars := by
  cases gs with
  | nil => cases h
  | cons g gs =>
    rw [fractionPart] at h
    split at h
    · next hdot =>
      cases h
      obtain ⟨own, hown, hchars⟩ := digits_split gs
      refine ⟨g :: own, .ofRun gs hdot.2, by rw [List.cons_append, ← hown], ?_, rfl⟩
      show g.char :: charsOf own = _
      rw [hdot.1, hchars]
    · cases h

theorem exponentSign_split (pos : Position) (gs : List Glyph) :
    ∃ own, gs = own ++ (exponentSign pos gs).2.2 ∧ charsOf own = (exponentSign pos gs).1 ∧
      (exponentSign pos gs).1 ∈ [[], ['+'], ['-']] := by
  cases gs with
  | nil => exact ⟨[], rfl, rfl, List.mem_cons_self⟩
  | cons g gs =>
    rw [exponentSign]
    split
    · next h =>
      refine ⟨[g], rfl, rfl, ?_⟩
      rcases h with h | h <;> simp [h]
    · exact ⟨[], rfl, rfl, List.mem_cons_self⟩

theorem signChars_of_mem {sign : List Char} (h : sign ∈ [[], ['+'], ['-']]) (digits : Digits) :
    ∃ e : Exponent, e.signChars = sign ∧ e.digits = digits := by
  simp only [List.mem_cons, List.not_mem_nil, or_false] at h
  rcases h with rfl | rfl | rfl
  · exact ⟨⟨none, digits⟩, rfl, rfl⟩
  · exact ⟨⟨some .plus, digits⟩, rfl, rfl⟩
  · exact ⟨⟨some .minus, digits⟩, rfl, rfl⟩

/-- An exponent that comes next is taken as it is, or left out if it has no digits. -/
theorem exponentPart_split (gs : List Glyph) :
    ∃ own, gs = own ++ (exponentPart gs).2.2 ∧
      ((∃ exponent : Option Exponent, (exponentPart gs).1 = (exponent.map Exponent.chars).getD [] ∧
        charsOf own = (exponentPart gs).1) ∨
      (exponentPart gs).1 = [] ∧ ∃ sign ∈ [[], ['+'], ['-']], charsOf own = 'e' :: sign) := by
  cases gs with
  | nil => exact ⟨[], rfl, .inl ⟨none, rfl, rfl⟩⟩
  | cons g gs =>
    obtain ⟨signOwn, hsign, hsignChars, hmem⟩ := exponentSign_split g.pos gs
    rw [exponentPart]
    split
    · next he =>
      dsimp only
      generalize exponentSign g.pos gs = s at hsign hsignChars hmem ⊢
      obtain ⟨sign, last, rest⟩ := s
      split
      · refine ⟨g :: signOwn, by rw [hsign]; rfl, .inr ⟨rfl, sign, hmem, ?_⟩⟩
        show g.char :: charsOf signOwn = _
        rw [he, hsignChars]
      · next hdigits =>
        obtain ⟨digitsOwn, hdigitsOwn, hchars⟩ := digits_split rest
        obtain ⟨e, rfl, hdigitsOf⟩ := signChars_of_mem hmem (.ofRun rest hdigits)
        refine ⟨g :: (signOwn ++ digitsOwn), ?_, .inl ⟨some e, ?_, ?_⟩⟩
        · rw [hsign, List.cons_append, List.append_assoc, ← hdigitsOwn]
        · show 'e' :: e.signChars ++ digitsOf rest = 'e' :: e.signChars ++ e.digits.chars
          rw [hdigitsOf]
          rfl
        · show g.char :: charsOf (signOwn ++ digitsOwn) = _
          rw [charsOf_append, he, hsignChars, hchars]
          rfl
    · exact ⟨[], rfl, .inl ⟨none, rfl, rfl⟩⟩

theorem number_readFrom {g : Glyph} (hg : g.char.isDigit = true) (gs : List Glyph) {more : List Char} :
    ∃ own, gs = own ++ (number g gs).2 ∧
      (number g gs).1.token.form.ReadFrom (charsOf (g :: own)) more := by
  obtain ⟨wholeOwn, hwhole, hwholeChars⟩ := digits_split gs
  let whole := Digits.ofFirst g hg gs
  have hwholeAll : charsOf (g :: wholeOwn) = whole.chars := congrArg (g.char :: ·) hwholeChars
  unfold number
  cases hf : fractionPart (afterDigits gs) with
  | none =>
    refine ⟨wholeOwn, hwhole, ?_⟩
    rw [hwholeAll]
    exact .int whole
  | some p =>
    obtain ⟨text, rest⟩ := p
    obtain ⟨fractionOwn, fraction, hfraction, hchars, rfl⟩ := fractionPart_split hf
    obtain ⟨exponentOwn, hexponent, hcases⟩ := exponentPart_split rest
    have hsplit : gs = wholeOwn ++ fractionOwn ++ exponentOwn ++ (exponentPart rest).2.2 := by
      rw [List.append_assoc, ← hexponent, List.append_assoc, ← hfraction, ← hwhole]
    have hown : charsOf (g :: (wholeOwn ++ fractionOwn ++ exponentOwn)) =
        realChars whole fraction none ++ charsOf exponentOwn := by
      rw [← List.cons_append, ← List.cons_append, charsOf_append, charsOf_append, hwholeAll, hchars]
      simp [realChars]
    refine ⟨wholeOwn ++ fractionOwn ++ exponentOwn, hsplit, ?_⟩
    rw [hown]
    show Form.ReadFrom ⟨.literal .real,
      String.ofList (whole.chars ++ '.' :: fraction.chars ++ (exponentPart rest).1)⟩ _ more
    rcases hcases with ⟨exponent, htext, hexponentChars⟩ | ⟨htext, sign, hsign, hexponentChars⟩
    · have hall : realChars whole fraction none ++ charsOf exponentOwn =
          realChars whole fraction exponent := by
        rw [hexponentChars, htext]
        simp [realChars]
      rw [hall, htext]
      exact .real whole fraction exponent
    · rw [hexponentChars, htext]
      exact .malformed whole fraction hsign

/-- A string ends at its quote, or open with its line. A backslash that has been read belongs
to what follows it. -/
theorem stringBody_split (stop : Position) (escaped : Bool) (gs : List Glyph) :
    ∃ own body last, gs = own ++ (stringBody stop escaped gs).2.2 ∧
      (if escaped then ['\\'] else []) ++ charsOf own = body ++ last ∧
      Decodes body (stringBody stop escaped gs).1 ∧
      (last = ['"'] ∨ last ∈ [[], ['\\']] ∧
        (charsOf (stringBody stop escaped gs).2.2).head? ∈ [none, some '\n']) := by
  have hopen : (if escaped then ['\\'] else []) ∈ [[], ['\\']] := by cases escaped <;> decide
  induction gs generalizing escaped with
  | nil => exact ⟨[], [], _, rfl, List.append_nil _, .nil, .inr ⟨hopen, List.mem_cons_self⟩⟩
  | cons g gs ih =>
    have hfalse := ih false (by decide)
    rw [stringBody]
    split
    · next hline =>
      refine ⟨[], [], _, rfl, List.append_nil _, .nil, .inr ⟨hopen, ?_⟩⟩
      show some g.char ∈ _
      rw [hline]
      exact List.mem_cons_of_mem _ List.mem_cons_self
    · next hline =>
      split
      · next hescaped =>
        obtain ⟨own, body, last, hown, hchars, hdecodes, hlast⟩ := hfalse
        have hall : ['\\'] ++ charsOf (g :: own) = ('\\' :: g.char :: body) ++ last :=
          congrArg ('\\' :: g.char :: ·) hchars
        cases hu : unescape g.char with
        | some c => exact ⟨g :: own, _, last, congrArg (g :: ·) hown, hall, .escape hu hdecodes, hlast⟩
        | none => exact ⟨g :: own, _, last, congrArg (g :: ·) hown, hall, .unknown hu hline hdecodes, hlast⟩
      · split
        · next hquote => exact ⟨[g], [], ['"'], rfl, by rw [← hquote]; rfl, .nil, .inl rfl⟩
        · next hquote =>
          split
          · next hbackslash =>
            obtain ⟨own, body, last, hown, hchars, hdecodes, hlast⟩ := ih true (by decide)
            refine ⟨g :: own, body, last, congrArg (g :: ·) hown, ?_, hdecodes, hlast⟩
            rw [← hchars, ← hbackslash]
            rfl
          · next hbackslash =>
            obtain ⟨own, body, last, hown, hchars, hdecodes, hlast⟩ := hfalse
            exact ⟨g :: own, g.char :: body, last, congrArg (g :: ·) hown,
              congrArg (g.char :: ·) hchars, .plain hquote hbackslash hline hdecodes, hlast⟩

theorem stringLiteral_readFrom (stop : Position) {g : Glyph} (hg : g.char = '"') (gs : List Glyph) :
    ∃ own, gs = own ++ (stringLiteral stop g gs).2 ∧
      (stringLiteral stop g gs).1.token.form.ReadFrom (charsOf (g :: own))
        (charsOf (stringLiteral stop g gs).2) := by
  obtain ⟨own, body, last, hown, hchars, hdecodes, hlast⟩ := stringBody_split stop false gs
  refine ⟨own, hown, ?_⟩
  have hall : charsOf (g :: own) = '"' :: (body ++ last) := by
    rw [← hg]
    exact congrArg (g.char :: ·) hchars
  rw [hall]
  rcases hlast with rfl | ⟨hlast, hend⟩
  · exact .string hdecodes
  · exact .openString hdecodes hlast hend

theorem symbol_readFrom {g : Glyph} {gs : List Glyph} {kind : TokenKind} {more : List Char}
    (h : TokenKind.symbol? g.char (nextChar gs) = some kind) :
    (Form.plain kind).ReadFrom (charsOf (g :: gs.take (kind.spelling.length - 1))) more := by
  have hall : ∀ k ∈ TokenKind.symbols, k.spelling ≠ [] := by decide
  have hmem := List.mem_of_find?_eq_some h
  have hnext : g.char :: (nextChar gs).toList <+: charsOf (g :: gs) := by
    cases gs with
    | nil => exact List.prefix_refl _
    | cons g' gs => exact ⟨charsOf gs, rfl⟩
  have hspelling : kind.spelling <+: g.char :: (nextChar gs).toList := by
    have hp := List.find?_some h
    exact List.isPrefixOf_iff_prefix.mp hp
  have hbegins := hspelling.trans hnext
  have htake := List.prefix_iff_eq_take.mp hbegins
  have hlength : kind.spelling.length = kind.spelling.length - 1 + 1 :=
    (Nat.succ_pred_eq_of_pos (List.length_pos_of_ne_nil (hall kind hmem))).symm
  have hchars : charsOf (g :: gs.take (kind.spelling.length - 1)) = kind.spelling := by
    rw [← List.take_succ_cons, ← hlength, charsOf, List.map_take]
    exact htake.symm
  rw [hchars]
  exact .symbol hmem

theorem word_readFrom {g : Glyph} (hg : g.char.isAlpha = true) (gs : List Glyph) {more : List Char} :
    (word g gs).1.token.form.ReadFrom (charsOf (g :: gs.takeWhile (continuesWord ·.char))) more := by
  have hcontinues : ∀ c ∈ charsOf (gs.takeWhile (continuesWord ·.char)), continuesWord c = true := by
    intro c hc
    obtain ⟨g', hg', rfl⟩ := List.mem_map.mp hc
    exact List.mem_takeWhile_imp (p := fun g : Glyph => continuesWord g.char) hg'
  show (wordToken (String.ofList (charsOf (g :: gs.takeWhile (continuesWord ·.char)))) g.pos).form.ReadFrom _
    more
  unfold wordToken
  split
  · next kind hk =>
    have hspelling : kind.spelling = charsOf (g :: gs.takeWhile (continuesWord ·.char)) := by
      have hp := List.find?_some hk
      rw [TokenKind.spelling, of_decide_eq_true hp]
      exact String.toList_ofList
    rw [← hspelling]
    exact .keyword (List.mem_of_find?_eq_some hk)
  · exact .ident hg hcontinues

/-- What starts a token and neither a symbol, a string nor a number is a letter. -/
theorem isAlpha_of_startsToken {c : Char} {next : Option Char} (h : startsToken c = true)
    (hsymbol : TokenKind.symbol? c next = none) (hquote : c ≠ '"') (hdigit : ¬ c.isDigit = true) :
    c.isAlpha = true := by
  have hnone : TokenKind.symbol? c none = none := by
    refine List.find?_eq_none.mpr fun k hk hp => List.find?_eq_none.mp hsymbol k hk ?_
    have hbegins := List.isPrefixOf_iff_prefix.mp hp
    exact List.isPrefixOf_iff_prefix.mpr (hbegins.trans ⟨next.toList, rfl⟩)
  simpa [startsToken, hnone, hquote, hdigit] using h

/-- A token is read from the characters that come next. -/
theorem scan_readFrom (stop : Position) {g : Glyph} (hg : startsToken g.char = true) (gs : List Glyph) :
    ∃ own, gs = own ++ (scan stop g gs).2 ∧
      (scan stop g gs).1.token.form.ReadFrom (charsOf (g :: own)) (charsOf (scan stop g gs).2) := by
  unfold scan
  split
  · next kind hkind =>
    exact ⟨_, (List.take_append_drop _ gs).symm, symbol_readFrom hkind⟩
  · next hnone =>
    split
    · next hquote => exact stringLiteral_readFrom stop hquote gs
    · next hquote =>
      split
      · next hdigit => exact number_readFrom hdigit gs
      · next hdigit =>
        exact ⟨_, List.takeWhile_append_dropWhile.symm,
          word_readFrom (isAlpha_of_startsToken hg hnone hquote hdigit) gs⟩

/-- What is left behind a gap starts a token. -/
theorem startsToken_of_skip {gap : Gap} {gs rest : List Glyph} {reports : List Report} {g : Glyph}
    (h : skip gap gs = (reports, g :: rest)) : startsToken g.char = true := by
  induction gs generalizing gap reports with
  | nil => cases h
  | cons g' gs ih =>
    rw [skip] at h
    split at h
    · next hstep =>
      cases h
      cases gap with
      | blank =>
        simp only [Gap.step, blankStep] at hstep
        split_ifs at hstep with _ _ _ hstarts
        exact hstarts
      | line => cases hstep
      | block opened inner =>
        simp only [Gap.step, blockStep] at hstep
        split_ifs at hstep
      | mark after => cases hstep
    · next further after _ =>
      have hrest : (skip after gs).2 = g :: rest := congrArg Prod.snd h
      exact ih (Prod.ext rfl hrest)

/-! ## The tokens of a text -/

/-- Tokens cut out of characters, one after the other. Each stands at the first of the
characters that it is read from; the others are gaps, the last of which may be an unclosed
comment. -/
inductive Cut : List Glyph → List Token → Prop
  | nil {gap : List Glyph} : Passed (charsOf gap) [] → Cut gap []
  | token {gap own rest : List Glyph} {g : Glyph} {t : Token} {ts : List Token} :
      Between (charsOf gap) → t.pos = g.pos → t.form.ReadFrom (charsOf (g :: own)) (charsOf rest) →
      Cut rest ts → Cut (gap ++ g :: (own ++ rest)) (t :: ts)

namespace Cut

variable {gs : List Glyph} {ts : List Token}

theorem length_le (h : Cut gs ts) : ts.length ≤ gs.length := by
  induction h with
  | nil _ => exact Nat.zero_le _
  | token _ _ _ _ ih =>
    simp only [List.length_cons, List.length_append]
    omega

theorem readFrom (h : Cut gs ts) : ∀ t ∈ ts, ∃ cs more, t.form.ReadFrom cs more := by
  induction h with
  | nil _ => exact nofun
  | token _ _ hread _ ih => exact List.forall_mem_cons.mpr ⟨⟨_, _, hread⟩, ih⟩

end Cut

namespace Source

/-- Every token is cut out of what is left of the text. -/
theorem cut_text (n : Nat) : ∀ src : Source, src.glyphs.length < n → Cut src.glyphs src.text.list := by
  induction n with
  | zero => exact fun src h => absurd h (Nat.not_lt_zero _)
  | succ n ih =>
    intro src hlength
    obtain ⟨gap, hgap, hpassed⟩ := skip_passed src.glyphs
    cases hs : skip .blank src.glyphs with
    | mk reports rest =>
      rw [hs] at hgap hpassed
      cases rest with
      | nil =>
        rw [text_of_eof (by rw [next_of_nil hs]; rfl), hgap, List.append_nil]
        exact .nil hpassed
      | cons g gs =>
        obtain ⟨own, hown, hread⟩ := scan_readFrom src.stop (startsToken_of_skip hs) gs
        have hless : (scan src.stop g gs).2.length < n := by
          have hscan := scan_length_le src.stop g gs
          have hglyphs := congrArg List.length hgap
          simp only [List.length_append, List.length_cons] at hglyphs
          omega
        have hlater : Cut (scan src.stop g gs).2 (Source.mk (scan src.stop g gs).2 src.stop).text.list :=
          ih ⟨(scan src.stop g gs).2, src.stop⟩ hless
        have hbetween : Between (charsOf gap) :=
          hpassed.resolve_right fun h => absurd h.1 (List.cons_ne_nil _ _)
        have hcut := Cut.token hbetween (scan_pos src.stop g gs) hread hlater
        rw [← hown, ← hgap] at hcut
        rw [text_of_token (by rw [next_of_cons hs]; exact scan_ne_eof _ _ _), next_of_cons hs]
        exact hcut

/-- The first tokens, and those behind them. -/
theorem take_add (src : Source) (m n : Nat) : src.take (m + n) = src.take m ++ (src.rest m).take n := by
  induction m generalizing src with
  | zero => rw [Nat.zero_add]; rfl
  | succ m ih =>
    rw [Nat.succ_add]
    exact congrArg (src.next.1 :: ·) (ih src.next.2)

theorem take_end (stop : Position) (n : Nat) :
    (Source.mk [] stop).take n = List.replicate n ⟨.plain .eof stop, []⟩ := by
  induction n with
  | zero => rfl
  | succ n ih =>
    rw [List.replicate_succ, ← ih]
    rfl

/-- The lexemes are the first tokens, and nothing is left behind them. -/
theorem take_lexemes (n : Nat) : ∀ src : Source, src.glyphs.length < n →
    src.take src.lexemes.length = src.lexemes ∧ src.rest src.lexemes.length = ⟨[], src.stop⟩ := by
  induction n with
  | zero => exact fun src h => absurd h (Nat.not_lt_zero _)
  | succ n ih =>
    intro src hlength
    rw [lexemes_eq]
    split
    · next heof => exact ⟨rfl, (next_of_eof heof).2⟩
    · next hkind =>
      obtain ⟨hstop, hend | ⟨_, hless⟩⟩ := src.next_cases
      · exact absurd (by rw [hend]; rfl) hkind
      · obtain ⟨htake, hrest⟩ := ih src.next.2 (by omega)
        exact ⟨congrArg (src.next.1 :: ·) htake, hrest.trans (by rw [hstop])⟩

end Source

/-- Reading moves forward. The tokens of a text are cut out of it one after the other, each
standing where its characters begin, and the end token just past the text; so there are no
more of them than characters, and every token and every problem stands before those after
it. When the end token has been read it is read again and again, and nothing is reported. -/
theorem lexing_moves_forward (text : String) :
    let src := Source.ofString text
    let theEnd : Token := .plain .eof (Position.start.after (Source.kept text))
    (∃ body, src.tokens = body ++ [theEnd] ∧ (∀ t ∈ body, t.kind ≠ .eof) ∧
      body.length ≤ (Source.kept text).length ∧ Cut (place .start (Source.kept text)) body) ∧
    src.tokens.Pairwise (·.pos < ·.pos) ∧
    src.reports.Pairwise (·.pos < ·.pos) ∧
    ∀ n, src.take (src.lexemes.length + n) = src.lexemes ++ List.replicate n ⟨theEnd, []⟩ := by
  intro src theEnd
  have hcut : Cut (place .start (Source.kept text)) src.text.list :=
    Source.cut_text _ src (Nat.lt_succ_self _)
  obtain ⟨htokens, hkinds⟩ := src.tokens_eq
  obtain ⟨htake, hrest⟩ := Source.take_lexemes _ src (Nat.lt_succ_self _)
  refine ⟨⟨src.text.list, htokens, hkinds, ?_, hcut⟩, Source.tokens_pairwise text,
    Source.reports_pairwise text, fun n => ?_⟩
  · exact place_length .start (Source.kept text) ▸ hcut.length_le
  · rw [Source.take_add, htake, hrest, Source.take_end]
    rfl

end StackPascal
