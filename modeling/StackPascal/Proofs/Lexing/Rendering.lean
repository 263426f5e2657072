import StackPascal.Proofs.Lexing.LineEnds

/-!
Reading undoes writing.

* `Piece`: a token as it is written, with everything that may be chosen about it;
* `Comment`, `Trivia`, `Separator`: what may stand between two tokens;
* `render`: the text of a list of tokens with separators between them;
* `skip_trivia`: the lexer passes over what separates tokens;
* `Piece.scan_eq`: before a blank, or at the end, it reads a token as it was written;
* `lexing_undoes_rendering`: so it reads back exactly the tokens of a rendered text.
-/

namespace StackPascal

/-! ## Tokens as they are written -/

/-- What a token is, wherever it stands. -/
structure Form where
  kind : TokenKind
  text : String
  deriving DecidableEq

/-- The form of a token that carries no text. -/
def Form.plain (kind : TokenKind) : Form := ⟨kind, ""⟩

def Token.form (t : Token) : Form := ⟨t.kind, t.text⟩

structure Digits where
  chars : List Char
  ne_nil : chars ≠ []
  digits : ∀ c ∈ chars, c.isDigit = true

/-- An exponent may have a sign. -/
structure Exponent where
  sign : Option Sign
  digits : Digits

def Exponent.signChars (e : Exponent) : List Char :=
  match e.sign with
  | none => []
  | some .plus => ['+']
  | some .minus => ['-']

def Exponent.chars (e : Exponent) : List Char := 'e' :: e.signChars ++ e.digits.chars

/-- A character of a string between its quotes. Quotes, backslashes and newlines
are escaped, and a tab if that is chosen. -/
def writeChar : Char × Bool → List Char
  | (c, escapeTab) =>
    if c = '"' ∨ c = '\\' then ['\\', c]
    else if c = '\n' then ['\\', 'n']
    else if c = '\t' ∧ escapeTab = true then ['\\', 't']
    else [c]

/-- A token as it is written. With each character of a string stands whether it is
escaped if it is a tab. -/
inductive Piece
  | symbol (kind : TokenKind) (known : kind ∈ TokenKind.symbols)
  | keyword (kind : TokenKind) (known : kind ∈ TokenKind.keywords)
  | ident (first : Char) (more : List Char) (letter : first.isAlpha = true)
      (continues : ∀ c ∈ more, continuesWord c = true)
      (free : ∀ k ∈ TokenKind.keywords, k.spelling? ≠ some (String.ofList (first :: more)))
  | int (digits : Digits) (inRange : Numeral.digitsValue digits.chars ≤ 2147483647)
  | real (whole fraction : Digits) (exponent : Option Exponent)
  | string (chars : List (Char × Bool)) (noReturn : ∀ c ∈ chars, c.1 ≠ '\r')

namespace Piece

def chars : Piece → List Char
  | symbol kind _ | keyword kind _ => kind.spelling
  | ident first more _ _ _ => first :: more
  | int digits _ => digits.chars
  | real whole fraction exponent =>
    whole.chars ++ '.' :: fraction.chars ++ (exponent.map Exponent.chars).getD []
  | string cs _ => '"' :: cs.flatMap writeChar ++ ['"']

/-- What the lexer should make of it. -/
def form : Piece → Form
  | symbol kind _ | keyword kind _ => .plain kind
  | ident first more _ _ _ => ⟨.ident, String.ofList (first :: more)⟩
  | int digits _ => ⟨.literal .int, String.ofList digits.chars⟩
  | real whole fraction exponent =>
    ⟨.literal .real, String.ofList
      (whole.chars ++ '.' :: fraction.chars ++ (exponent.map Exponent.chars).getD [])⟩
  | string cs _ => ⟨.literal .string, String.ofList (cs.map Prod.fst)⟩

end Piece

/-! ## Separators -/

/-- What stands behind the mark that opens a block comment, up to and including
the mark that closes it. Comments in it are closed before it is. -/
inductive Comment : List Char → Prop
  | close : Comment ['*', '/']
  | char {c : Char} {rest : List Char} : ¬ (c = '/' ∧ rest.head? = some '*') →
      ¬ (c = '*' ∧ rest.head? = some '/') → Comment rest → Comment (c :: rest)
  | nested {inner rest : List Char} :
      Comment inner → Comment rest → Comment ('/' :: '*' :: (inner ++ rest))

/-- Blanks, line comments up to their newlines, and block comments. -/
inductive Trivia : List Char → Prop
  | none : Trivia []
  | blank {c : Char} {rest : List Char} : Text.isBlank c = true → Trivia rest → Trivia (c :: rest)
  | line {body rest : List Char} :
      '\n' ∉ body → Trivia rest → Trivia ('/' :: '/' :: (body ++ '\n' :: rest))
  | block {body rest : List Char} :
      Comment body → Trivia rest → Trivia ('/' :: '*' :: (body ++ rest))

example : Trivia "/*a/**/*/".toList :=
  .block (.char (by decide) (by decide) (.nested .close .close)) .none

/-- A separator starts with a blank and has no carriage return. -/
structure Separator where
  first : Char
  more : List Char
  blank : Text.isBlank first = true
  trivia : Trivia more
  noReturn : '\r' ∉ first :: more

def Separator.chars (s : Separator) : List Char := s.first :: s.more

/-- Tokens, each behind its separator. -/
def renderMore (ps : List (Separator × Piece)) : List Char :=
  ps.flatMap fun p => p.1.chars ++ p.2.chars

/-- The text of some tokens with separators between them; the one in front of the
first token is left out. -/
def render : List (Separator × Piece) → List Char
  | [] => []
  | (_, p) :: ps => p.chars ++ renderMore ps

theorem charsOf_eq_nil {gs : List Glyph} (h : charsOf gs = []) : gs = [] := List.map_eq_nil_iff.mp h

theorem charsOf_eq_cons {gs : List Glyph} {c : Char} {cs : List Char} (h : charsOf gs = c :: cs) :
    ∃ g rest, gs = g :: rest ∧ g.char = c ∧ charsOf rest = cs :=
  List.map_eq_cons_iff.mp h

theorem charsOf_eq_append {gs : List Glyph} {cs ds : List Char} (h : charsOf gs = cs ++ ds) :
    ∃ front back, gs = front ++ back ∧ charsOf front = cs ∧ charsOf back = ds :=
  List.map_eq_append_iff.mp h

/-! ## What ends at a blank -/

theorem Text.isBlank_eq_false {c : Char} (hlow : 0x20 < c.toNat) (hhigh : c.toNat < 0x7f) :
    isBlank c = false := by
  simp only [isBlank, Bool.or_eq_false_iff, Bool.and_eq_false_iff, decide_eq_false_iff_not]
  omega

theorem range_of_isAlpha {c : Char} (h : c.isAlpha = true) :
    (65 ≤ c.toNat ∧ c.toNat ≤ 90) ∨ (97 ≤ c.toNat ∧ c.toNat ≤ 122) := by
  rcases Bool.or_eq_true_iff.mp h with hupper | hlower
  · exact .inl (of_decide_eq_true hupper)
  · obtain ⟨hlow, hhigh⟩ := Bool.and_eq_true_iff.mp hlower
    exact .inr ⟨of_decide_eq_true hlow, of_decide_eq_true hhigh⟩

theorem isDigit_of_isAlpha {c : Char} (h : c.isAlpha = true) : c.isDigit = false := by
  have hrange := range_of_isAlpha h
  rw [Bool.eq_false_iff, Ne, Char.isDigit_iff_toNat]
  change ¬ (48 ≤ c.toNat ∧ c.toNat ≤ 57)
  omega

theorem continuesWord_of_isDigit {c : Char} (h : c.isDigit = true) : continuesWord c = true := by
  simp [continuesWord, Char.isAlphanum, h]

theorem continuesWord_of_isAlpha {c : Char} (h : c.isAlpha = true) : continuesWord c = true := by
  simp [continuesWord, Char.isAlphanum, h]

theorem isBlank_of_isDigit {c : Char} (h : c.isDigit = true) : Text.isBlank c = false := by
  obtain ⟨hlow, hhigh⟩ := Char.isDigit_iff_toNat.mp h
  change 48 ≤ c.toNat at hlow
  change c.toNat ≤ 57 at hhigh
  exact Text.isBlank_eq_false (by omega) (by omega)

theorem isBlank_of_continuesWord {c : Char} (h : continuesWord c = true) :
    Text.isBlank c = false := by
  simp only [continuesWord, Char.isAlphanum, Bool.or_eq_true, decide_eq_true_eq] at h
  rcases h with (halpha | hdigit) | rfl
  · have hrange := range_of_isAlpha halpha
    exact Text.isBlank_eq_false (by omega) (by omega)
  · exact isBlank_of_isDigit hdigit
  · decide

/-- A text is at its end or goes on with a blank. -/
def Stops (gs : List Glyph) : Prop := ∀ c, nextChar gs = some c → Text.isBlank c = true

theorem Stops.ne {gs : List Glyph} (h : Stops gs) {c : Char} (hc : Text.isBlank c = false) :
    nextChar gs ≠ some c := by
  intro hn
  rw [h c hn] at hc
  cases hc

theorem Stops.not_continuesWord {gs : List Glyph} (h : Stops gs) {c : Char}
    (hc : nextChar gs = some c) : continuesWord c = false := by
  by_contra hw
  exact h.ne (isBlank_of_continuesWord (eq_true_of_ne_false hw)) hc

theorem Stops.not_isDigit {gs : List Glyph} (h : Stops gs) {c : Char}
    (hc : nextChar gs = some c) : c.isDigit = false := by
  by_contra hd
  have hword := continuesWord_of_isDigit (eq_true_of_ne_false hd)
  rw [h.not_continuesWord hc] at hword
  cases hword

theorem nextChar_append {gs : List Glyph} (hgs : gs ≠ []) (more : List Glyph) :
    nextChar (gs ++ more) = nextChar gs := by
  cases gs with
  | nil => exact absurd rfl hgs
  | cons => rfl

theorem nextChar_eq (gs : List Glyph) : nextChar gs = (charsOf gs).head? := by
  cases gs <;> rfl

/-- A run of characters ends where it cannot go on. -/
theorem run_ends {p : Char → Bool} {gs more : List Glyph} (hgs : ∀ c ∈ charsOf gs, p c = true)
    (hmore : ∀ c, nextChar more = some c → p c = false) :
    (gs ++ more).takeWhile (p ·.char) = gs ∧ (gs ++ more).dropWhile (p ·.char) = more := by
  have hall : ∀ g ∈ gs, p g.char = true := fun g hg => hgs _ (List.mem_map_of_mem hg)
  rw [List.takeWhile_append_of_pos hall, List.dropWhile_append_of_pos hall]
  cases more with
  | nil => simp
  | cons g more => simp [hmore g.char rfl]

theorem digits_end {gs more : List Glyph} (hgs : ∀ c ∈ charsOf gs, c.isDigit = true)
    (hmore : ∀ c, nextChar more = some c → c.isDigit = false) :
    digitsOf (gs ++ more) = charsOf gs ∧ afterDigits (gs ++ more) = more := by
  obtain ⟨htake, hdrop⟩ := run_ends hgs hmore
  exact ⟨congrArg charsOf htake, hdrop⟩

/-! ## Passing over separators -/

theorem Comment.ne_nil {cs : List Char} (h : Comment cs) : cs ≠ [] := by
  cases h <;> simp

/-- A comment is passed over up to the mark that closes it. -/
theorem skip_comment {cs : List Char} (h : Comment cs) (opened : Position) (inner : Nat)
    (gs more : List Glyph) (hgs : charsOf gs = cs) :
    skip (.block opened inner) (gs ++ more) = skip (afterBlock opened inner) more := by
  induction h generalizing inner gs more with
  | close =>
    obtain ⟨g, gs, rfl, hg, hrest⟩ := charsOf_eq_cons hgs
    obtain ⟨g', gs, rfl, hg', hnil⟩ := charsOf_eq_cons hrest
    obtain rfl := charsOf_eq_nil hnil
    simp [skip, Gap.step, blockStep, nextChar, hg, hg']
  | @char c rest hopen hclose hcomment ih =>
    obtain ⟨g, gs, rfl, hg, hrest⟩ := charsOf_eq_cons hgs
    have hne : gs ≠ [] := fun hnil => hcomment.ne_nil (by rw [← hrest, hnil]; rfl)
    have hnext : nextChar (gs ++ more) = rest.head? := by
      rw [nextChar_append hne, nextChar_eq, hrest]
    simp [skip, Gap.step, blockStep, hnext, hg, hopen, hclose, ih inner gs more hrest]
  | @nested first rest _ _ ihFirst ihRest =>
    obtain ⟨g, gs, rfl, hg, hrest⟩ := charsOf_eq_cons hgs
    obtain ⟨g', gs, rfl, hg', hrest⟩ := charsOf_eq_cons hrest
    obtain ⟨gs, gs', rfl, hfirst, hlast⟩ := charsOf_eq_append hrest
    have hinner := ihFirst (inner + 1) gs (gs' ++ more) hfirst
    simp [skip, Gap.step, blockStep, nextChar, hg, hg', hinner, afterBlock,
      ihRest inner gs' more hlast]

theorem skip_line {gs : List Glyph} (hgs : '\n' ∉ charsOf gs) {nl : Glyph} (hnl : nl.char = '\n')
    (more : List Glyph) : skip .line (gs ++ nl :: more) = skip .blank more := by
  induction gs with
  | nil => simp [skip, Gap.step, hnl]
  | cons g gs ih =>
    obtain ⟨hg, hrest⟩ := List.ne_and_not_mem_of_not_mem_cons hgs
    simp [skip, Gap.step, Ne.symm hg, ih hrest]

/-- What separates tokens is passed over without a report. -/
theorem skip_trivia {cs : List Char} (h : Trivia cs) (gs more : List Glyph)
    (hgs : charsOf gs = cs) : skip .blank (gs ++ more) = skip .blank more := by
  induction h generalizing gs with
  | none =>
    obtain rfl := charsOf_eq_nil hgs
    rfl
  | blank hblank _ ih =>
    obtain ⟨g, gs, rfl, hg, hrest⟩ := charsOf_eq_cons hgs
    simp [skip, Gap.step, blankStep, hg, hblank, ih gs hrest]
  | line hbody _ ih =>
    obtain ⟨g, gs, rfl, hg, hrest⟩ := charsOf_eq_cons hgs
    obtain ⟨g', gs, rfl, hg', hrest⟩ := charsOf_eq_cons hrest
    obtain ⟨gs, gs', rfl, hinner, hrest⟩ := charsOf_eq_append hrest
    obtain ⟨nl, gs', rfl, hnl, hrest⟩ := charsOf_eq_cons hrest
    have hslash : Text.isBlank '/' = false := by decide
    have hline := skip_line (hinner ▸ hbody) hnl (gs' ++ more)
    simp [skip, Gap.step, blankStep, nextChar, hg, hg', hslash, hline, ih gs' hrest]
  | block hcomment _ ih =>
    obtain ⟨g, gs, rfl, hg, hrest⟩ := charsOf_eq_cons hgs
    obtain ⟨g', gs, rfl, hg', hrest⟩ := charsOf_eq_cons hrest
    obtain ⟨gs, gs', rfl, hinner, hrest⟩ := charsOf_eq_append hrest
    have hslash : Text.isBlank '/' = false := by decide
    have hblock := skip_comment hcomment g.pos 0 gs (gs' ++ more) hinner
    simp [skip, Gap.step, blankStep, nextChar, hg, hg', hslash, hblock, afterBlock, ih gs' hrest]

/-! ## Reading a token -/

theorem TokenKind.symbol?_eq_none {c : Char} (next : Option Char)
    (h : ∀ k ∈ symbols, k.spelling.head? ≠ some c) : symbol? c next = none := by
  refine List.find?_eq_none.mpr fun k hk hp => h k hk ?_
  have hne : ∀ k ∈ symbols, k.spelling ≠ [] := by decide
  obtain ⟨rest, hrest⟩ := List.isPrefixOf_iff_prefix.mp hp
  cases hs : k.spelling with
  | nil => exact absurd hs (hne k hk)
  | cons d ds =>
    rw [hs] at hrest
    rw [(List.cons.inj hrest).1]
    rfl

/-- Only symbols start as symbols do. -/
theorem TokenKind.symbol?_word {c : Char} (hc : continuesWord c = true) (next : Option Char) :
    symbol? c next = none := by
  have hall : ∀ k ∈ symbols, k.spelling.head?.all (! continuesWord ·) = true := by decide
  refine symbol?_eq_none next fun k hk hhead => ?_
  have := hall k hk
  rw [hhead] at this
  simp [hc] at this

/-- No symbol goes on over a blank. -/
theorem TokenKind.symbol?_blank (c : Char) {d : Char} (hd : Text.isBlank d = true) :
    symbol? c (some d) = symbol? c none := by
  have hall : ∀ k ∈ symbols, k.spelling.all (! Text.isBlank ·) = true := by decide
  refine List.find?_congr fun k hk => isPrefixOf_concat (fun hmem => ?_) [c]
  have hno := List.all_eq_true.mp (hall k hk) d hmem
  rw [hd] at hno
  cases hno

theorem TokenKind.symbol?_stops (c : Char) {more : List Glyph} (hmore : Stops more) :
    symbol? c (nextChar more) = symbol? c none := by
  cases hn : nextChar more with
  | none => rfl
  | some d => exact symbol?_blank c (hmore d hn)

section

variable {stop : Position} {g : Glyph} {gs more : List Glyph}

theorem scan_symbol {kind : TokenKind} (hkind : kind ∈ TokenKind.symbols)
    (hgs : charsOf (g :: gs) = kind.spelling) (hmore : Stops more) :
    scan stop g (gs ++ more) = (⟨.plain kind g.pos, []⟩, more) := by
  have hall : ∀ k ∈ TokenKind.symbols, k.spelling.length ≤ 2 ∧
      (k.spelling.head?.bind fun c => TokenKind.symbol? c k.spelling.tail.head?) = some k := by
    decide
  obtain ⟨hlen, hread⟩ := hall kind hkind
  have hsymbol : TokenKind.symbol? g.char (nextChar (gs ++ more)) = some kind := by
    rw [← hgs] at hlen hread
    cases gs with
    | nil => exact (TokenKind.symbol?_stops g.char hmore).trans hread
    | cons g' gs => exact hread
  have hdrop : kind.spelling.length - 1 = gs.length := by
    rw [← hgs]
    simp [charsOf]
  rw [scan, hsymbol]
  simp [hdrop]

theorem scan_word (hfirst : g.char.isAlpha = true) (hgs : ∀ c ∈ charsOf gs, continuesWord c = true)
    (hmore : Stops more) :
    scan stop g (gs ++ more) =
      (⟨wordToken (String.ofList (charsOf (g :: gs))) g.pos, []⟩, more) := by
  have hword := continuesWord_of_isAlpha hfirst
  have hquote : g.char ≠ '"' := by
    rintro hq
    rw [hq] at hfirst
    cases hfirst
  have hdigit := isDigit_of_isAlpha hfirst
  obtain ⟨htake, hdrop⟩ := run_ends hgs (fun c => hmore.not_continuesWord)
  rw [scan, TokenKind.symbol?_word hword]
  simp [hquote, hdigit, word, htake, hdrop, charsOf]

theorem Numeral.splitSign_digit {c : Char} (hc : c.isDigit = true) (cs : List Char) :
    splitSign (c :: cs) = (false, c :: cs) := by
  unfold splitSign
  split
  · next heq => rw [(List.cons.inj heq).1] at hc; cases hc
  · next heq => rw [(List.cons.inj heq).1] at hc; cases hc
  · rfl

theorem Numeral.splitSign_digits {cs : List Char} (hcs : ∀ c ∈ cs, c.isDigit = true) :
    splitSign cs = (false, cs) := by
  cases cs with
  | nil => rfl
  | cons c cs => exact splitSign_digit (hcs c List.mem_cons_self) cs

theorem Numeral.int?_digits {cs : List Char} (hne : cs ≠ []) (hcs : ∀ c ∈ cs, c.isDigit = true) :
    int? (String.ofList cs) =
      if digitsValue cs ≤ 2147483647 then some (digitsValue cs : Int) else none := by
  have hall : cs.all Char.isDigit = true := List.all_eq_true.mpr hcs
  have hrange : minInt ≤ (digitsValue cs : Int) ∧ (digitsValue cs : Int) ≤ maxInt ↔
      digitsValue cs ≤ 2147483647 := by
    simp only [minInt, maxInt]
    omega
  simp [int?, splitSign_digits hcs, hne, hall, hrange]

theorem scan_digit (hfirst : g.char.isDigit = true) (gs : List Glyph) :
    scan stop g gs = number g gs := by
  have hquote : g.char ≠ '"' := by
    rintro hq
    rw [hq] at hfirst
    cases hfirst
  rw [scan, TokenKind.symbol?_word (continuesWord_of_isDigit hfirst)]
  simp [hquote, hfirst]

theorem fractionPart_stops (hmore : Stops more) : fractionPart more = none := by
  cases more with
  | nil => rfl
  | cons g more =>
    have hdot : g.char ≠ '.' := fun h => hmore.ne (c := '.') (by decide) (h ▸ rfl)
    simp [fractionPart, hdot]

theorem exponentPart_stops (hmore : Stops more) : exponentPart more = ([], [], more) := by
  cases more with
  | nil => rfl
  | cons g more =>
    have he : g.char ≠ 'e' := fun h => hmore.ne (c := 'e') (by decide) (h ▸ rfl)
    simp [exponentPart, he]

theorem scan_int (hgs : ∀ c ∈ charsOf (g :: gs), c.isDigit = true)
    (hvalue : Numeral.digitsValue (charsOf (g :: gs)) ≤ 2147483647) (hmore : Stops more) :
    scan stop g (gs ++ more) =
      (⟨⟨.literal .int, String.ofList (charsOf (g :: gs)), g.pos⟩, []⟩, more) := by
  obtain ⟨hfirst, hrest⟩ := List.forall_mem_cons.mp hgs
  obtain ⟨hdigits, hafter⟩ := digits_end hrest fun c => hmore.not_isDigit
  have hint := (Numeral.int?_digits (by simp [charsOf]) hgs).trans (if_pos hvalue)
  rw [scan_digit hfirst, number, hdigits, hafter, fractionPart_stops hmore]
  simp [integerReports, charsOf] at hint ⊢
  simp [hint]

theorem exponentSign_digits (pos : Position) {d : Digits} (hgs : charsOf gs = d.chars) :
    exponentSign pos (gs ++ more) = ([], pos, gs ++ more) := by
  cases gs with
  | nil => exact absurd hgs.symm d.ne_nil
  | cons g gs =>
    have hdigit : g.char.isDigit = true := d.digits _ (by rw [← hgs]; exact List.mem_cons_self)
    have hplus : g.char ≠ '+' := fun h => by rw [h] at hdigit; cases hdigit
    have hminus : g.char ≠ '-' := fun h => by rw [h] at hdigit; cases hdigit
    simp [exponentSign, hplus, hminus]

/-- The digits of an exponent are read whether or not it has a sign. -/
theorem exponentSign_chars (pos : Position) (e : Exponent) (more : List Glyph)
    (hgs : charsOf gs = e.signChars ++ e.digits.chars) :
    ∃ last ds, charsOf ds = e.digits.chars ∧
      exponentSign pos (gs ++ more) = (e.signChars, last, ds ++ more) := by
  obtain ⟨sign, digits⟩ := e
  rcases sign with _ | _ | _
  · exact ⟨pos, gs, hgs, exponentSign_digits pos hgs⟩
  all_goals
    obtain ⟨g, ds, rfl, hg, hds⟩ := charsOf_eq_cons hgs
    exact ⟨g.pos, ds, hds, by simp [exponentSign, hg, Exponent.signChars]⟩

theorem exponentPart_chars (e : Exponent) (hgs : charsOf gs = e.chars) (hmore : Stops more) :
    exponentPart (gs ++ more) = (e.chars, [], more) := by
  obtain ⟨g, gs, rfl, hg, hrest⟩ := charsOf_eq_cons hgs
  obtain ⟨last, ds, hds, hsign⟩ := exponentSign_chars g.pos e more hrest
  obtain ⟨hdigits, hafter⟩ :=
    digits_end (hds ▸ e.digits.digits) fun c => hmore.not_isDigit
  simp [exponentPart, hg, hsign, hdigits, hafter, hds, e.digits.ne_nil, Exponent.chars]

/-- After the fraction no digit follows. -/
theorem exponentPart_optional (exponent : Option Exponent)
    (hgs : charsOf gs = (exponent.map Exponent.chars).getD []) (hmore : Stops more) :
    exponentPart (gs ++ more) = (charsOf gs, [], more) ∧
      ∀ c, nextChar (gs ++ more) = some c → c.isDigit = false := by
  cases exponent with
  | none =>
    obtain rfl := charsOf_eq_nil hgs
    exact ⟨exponentPart_stops hmore, fun c => hmore.not_isDigit⟩
  | some e =>
    refine ⟨hgs ▸ exponentPart_chars e hgs hmore, fun c hc => ?_⟩
    obtain ⟨g, gs, rfl, hg, -⟩ := charsOf_eq_cons hgs
    cases hc
    rw [hg]
    rfl

theorem scan_real (whole fraction : Digits) (exponent : Option Exponent)
    (hgs : charsOf (g :: gs) =
      whole.chars ++ '.' :: fraction.chars ++ (exponent.map Exponent.chars).getD [])
    (hmore : Stops more) :
    scan stop g (gs ++ more) =
      (⟨⟨.literal .real, String.ofList (charsOf (g :: gs)), g.pos⟩, []⟩, more) := by
  obtain ⟨front, es, hsplit, hfront, hes⟩ := charsOf_eq_append hgs
  obtain ⟨ws, tail, rfl, hws, htail⟩ := charsOf_eq_append hfront
  obtain ⟨dot, fs, rfl, hdot, hfs⟩ := charsOf_eq_cons htail
  cases ws with
  | nil => exact absurd hws.symm whole.ne_nil
  | cons w ws =>
    simp only [List.cons_append, List.append_assoc, List.cons.injEq] at hsplit
    obtain ⟨rfl, rfl⟩ := hsplit
    have hwhole : ∀ c ∈ charsOf (g :: ws), c.isDigit = true := hws ▸ whole.digits
    obtain ⟨hfirst, hrest⟩ := List.forall_mem_cons.mp hwhole
    obtain ⟨hexp, hnext⟩ := exponentPart_optional exponent hes hmore
    have hpoint : ∀ c, nextChar (dot :: (fs ++ (es ++ more))) = some c → c.isDigit = false := by
      intro c hc
      cases hc
      rw [hdot]
      rfl
    obtain ⟨hwd, hwa⟩ := digits_end hrest hpoint
    obtain ⟨hfd, hfa⟩ := digits_end (hfs ▸ fraction.digits) hnext
    have hne : charsOf fs ≠ [] := hfs ▸ fraction.ne_nil
    have hfraction : fractionPart (dot :: (fs ++ (es ++ more))) =
        some ('.' :: charsOf fs, es ++ more) := by
      simp [fractionPart, hdot, hfd, hfa, hne]
    simp [scan_digit hfirst, number, hwd, hwa, hfraction, hexp, charsOf, hdot]

/-! A written character stands for itself. -/

theorem stringBody_writeChar (c : Char × Bool) (hgs : charsOf gs = writeChar c) :
    stringBody stop false (gs ++ more) =
      (c.1 :: (stringBody stop false more).1, (stringBody stop false more).2) := by
  obtain ⟨c, escapeTab⟩ := c
  simp only [writeChar] at hgs
  split_ifs at hgs with hescape hnewline htab
  · obtain ⟨g, gs, rfl, hg, hrest⟩ := charsOf_eq_cons hgs
    obtain ⟨g', gs, rfl, hg', hnil⟩ := charsOf_eq_cons hrest
    obtain rfl := charsOf_eq_nil hnil
    rcases hescape with rfl | rfl <;> simp [stringBody, unescape, hg, hg']
  · obtain ⟨g, gs, rfl, hg, hrest⟩ := charsOf_eq_cons hgs
    obtain ⟨g', gs, rfl, hg', hnil⟩ := charsOf_eq_cons hrest
    obtain rfl := charsOf_eq_nil hnil
    simp [stringBody, unescape, hg, hg', hnewline]
  · obtain ⟨g, gs, rfl, hg, hrest⟩ := charsOf_eq_cons hgs
    obtain ⟨g', gs, rfl, hg', hnil⟩ := charsOf_eq_cons hrest
    obtain rfl := charsOf_eq_nil hnil
    simp [stringBody, unescape, hg, hg', htab.1]
  · obtain ⟨g, gs, rfl, hg, hnil⟩ := charsOf_eq_cons hgs
    obtain rfl := charsOf_eq_nil hnil
    obtain ⟨hquote, hbackslash⟩ := not_or.mp hescape
    simp [stringBody, hg, hnewline, hquote, hbackslash]

theorem stringBody_written (cs : List (Char × Bool)) :
    ∀ gs, charsOf gs = cs.flatMap writeChar ++ ['"'] →
      stringBody stop false (gs ++ more) = (cs.map Prod.fst, [], more) := by
  induction cs with
  | nil =>
    intro gs hgs
    obtain ⟨g, gs, rfl, hg, hnil⟩ := charsOf_eq_cons hgs
    obtain rfl := charsOf_eq_nil hnil
    simp [stringBody, hg]
  | cons c cs ih =>
    intro gs hgs
    rw [List.flatMap_cons, List.append_assoc] at hgs
    obtain ⟨gs, gs', rfl, hc, hrest⟩ := charsOf_eq_append hgs
    rw [List.append_assoc, stringBody_writeChar c hc, ih gs' hrest]
    rfl

theorem scan_string (cs : List (Char × Bool))
    (hgs : charsOf (g :: gs) = '"' :: cs.flatMap writeChar ++ ['"']) :
    scan stop g (gs ++ more) =
      (⟨⟨.literal .string, String.ofList (cs.map Prod.fst), g.pos⟩, []⟩, more) := by
  obtain ⟨hquote, hbody⟩ := List.cons.inj hgs
  have hall : ∀ k ∈ TokenKind.symbols, k.spelling.head? ≠ some '"' := by decide
  rw [scan, hquote, TokenKind.symbol?_eq_none _ hall]
  simp [stringLiteral, stringBody_written cs gs hbody]

end

/-! ## Reading what was written -/

/-- A token that starts so is not taken for a comment. -/
def Starts (c : Char) (cs : List Char) : Prop :=
  startsToken c = true ∧ Text.isBlank c = false ∧ (c = '/' → cs = [])

theorem starts_of_isAlpha {c : Char} (h : c.isAlpha = true) (cs : List Char) : Starts c cs := by
  refine ⟨by simp [startsToken, h], isBlank_of_continuesWord (continuesWord_of_isAlpha h), ?_⟩
  rintro rfl
  cases h

theorem starts_of_isDigit {c : Char} (h : c.isDigit = true) (cs : List Char) : Starts c cs := by
  refine ⟨by simp [startsToken, h], isBlank_of_isDigit h, ?_⟩
  rintro rfl
  cases h

theorem Digits.starts (d : Digits) (more : List Char) :
    ∃ c cs, d.chars ++ more = c :: cs ∧ Starts c cs := by
  cases hd : d.chars with
  | nil => exact absurd hd d.ne_nil
  | cons c cs =>
    exact ⟨c, cs ++ more, rfl, starts_of_isDigit (d.digits c (hd ▸ List.mem_cons_self)) _⟩

theorem TokenKind.starts_symbol {kind : TokenKind} (h : kind ∈ symbols) :
    ∃ c cs, kind.spelling = c :: cs ∧ Starts c cs := by
  have hall : ∀ k ∈ symbols, k.spelling.head?.any (fun c =>
      startsToken c ∧ Text.isBlank c = false ∧ (c = '/' → k.spelling.tail = [])) = true := by
    decide
  have hk := hall kind h
  cases hs : kind.spelling with
  | nil => rw [hs] at hk; cases hk
  | cons c cs => exact ⟨c, cs, rfl, by simpa [hs, Starts, imp_iff_not_or] using hk⟩

/-- A keyword is a word. -/
theorem TokenKind.word_keyword {kind : TokenKind} (h : kind ∈ keywords) :
    ∃ c cs, kind.spelling = c :: cs ∧ c.isAlpha = true ∧ ∀ d ∈ cs, continuesWord d = true := by
  have hall : ∀ k ∈ keywords, k.spelling.head?.any Char.isAlpha = true ∧
      k.spelling.tail.all continuesWord = true := by decide
  obtain ⟨hhead, htail⟩ := hall kind h
  cases hs : kind.spelling with
  | nil => rw [hs] at hhead; cases hhead
  | cons c cs =>
    rw [hs] at hhead htail
    exact ⟨c, cs, rfl, hhead, List.all_eq_true.mp htail⟩

theorem TokenKind.keyword?_spelling {kind : TokenKind} (h : kind ∈ keywords) :
    keyword? (String.ofList kind.spelling) = some kind := by
  have hall : ∀ k ∈ keywords, keyword? (String.ofList k.spelling) = some k := by decide
  exact hall kind h

namespace Piece

theorem starts (p : Piece) : ∃ c cs, p.chars = c :: cs ∧ Starts c cs := by
  cases p with
  | symbol kind known => exact TokenKind.starts_symbol known
  | keyword kind known =>
    obtain ⟨c, cs, hspelling, halpha, -⟩ := TokenKind.word_keyword known
    exact ⟨c, cs, hspelling, starts_of_isAlpha halpha cs⟩
  | ident first more letter => exact ⟨first, more, rfl, starts_of_isAlpha letter more⟩
  | int digits =>
    obtain ⟨c, cs, hdigits, hstarts⟩ := digits.starts []
    exact ⟨c, cs, (List.append_nil _).symm.trans hdigits, hstarts⟩
  | real whole fraction exponent =>
    obtain ⟨c, cs, hdigits, hstarts⟩ :=
      whole.starts ('.' :: fraction.chars ++ (exponent.map Exponent.chars).getD [])
    exact ⟨c, cs, (List.append_assoc _ _ _).trans hdigits, hstarts⟩
  | string cs => exact ⟨'"', _, rfl, by decide, by decide, fun h => absurd h (by decide)⟩

/-- A token that is followed by a blank, or by nothing, is read as it was written. -/
theorem scan_eq (p : Piece) {stop : Position} {g : Glyph} {gs more : List Glyph}
    (hgs : charsOf (g :: gs) = p.chars) (hmore : Stops more) :
    scan stop g (gs ++ more) = (⟨⟨p.form.kind, p.form.text, g.pos⟩, []⟩, more) := by
  cases p with
  | symbol kind known => exact scan_symbol known hgs hmore
  | keyword kind known =>
    obtain ⟨c, cs, hspelling, halpha, hcs⟩ := TokenKind.word_keyword known
    obtain ⟨rfl, rfl⟩ := List.cons.inj (hgs.trans hspelling)
    rw [scan_word halpha hcs hmore, hgs, wordToken, chars, TokenKind.keyword?_spelling known]
    rfl
  | ident first more letter continues free =>
    obtain ⟨rfl, rfl⟩ := List.cons.inj hgs
    have hfree : TokenKind.keyword? (String.ofList (charsOf (g :: gs))) = none :=
      List.find?_eq_none.mpr fun k hk h => free k hk (of_decide_eq_true h)
    rw [scan_word letter continues hmore, wordToken, hfree]
    rfl
  | int digits inRange =>
    have hchars : charsOf (g :: gs) = digits.chars := hgs
    rw [scan_int (hchars ▸ digits.digits) (hchars ▸ inRange) hmore, hchars]
    rfl
  | real whole fraction exponent =>
    rw [scan_real whole fraction exponent hgs hmore, hgs]
    rfl
  | string cs => exact scan_string cs hgs

theorem kind_ne_eof (p : Piece) : p.form.kind ≠ .eof := by
  have hsymbols : TokenKind.eof ∉ TokenKind.symbols := by decide
  have hkeywords : TokenKind.eof ∉ TokenKind.keywords := by decide
  cases p with
  | symbol kind known => exact fun h => hsymbols (h ▸ known)
  | keyword kind known => exact fun h => hkeywords (h ▸ known)
  | ident | int | real | string => nofun

end Piece

theorem skip_starts {g : Glyph} {gs more : List Glyph} (h : Starts g.char (charsOf gs))
    (hmore : Stops more) : skip .blank (g :: (gs ++ more)) = ([], g :: (gs ++ more)) := by
  obtain ⟨hstarts, hblank, hslash⟩ := h
  have hnext : g.char = '/' → nextChar (gs ++ more) ≠ some '/' ∧ nextChar (gs ++ more) ≠ some '*' := by
    intro hg
    obtain rfl := charsOf_eq_nil (hslash hg)
    exact ⟨hmore.ne (by decide), hmore.ne (by decide)⟩
  have hline : ¬ (g.char = '/' ∧ nextChar (gs ++ more) = some '/') := fun h => (hnext h.1).1 h.2
  have hblock : ¬ (g.char = '/' ∧ nextChar (gs ++ more) = some '*') := fun h => (hnext h.1).2 h.2
  simp [skip, Gap.step, blankStep, hblank, hline, hblock, hstarts]

/-- One token after what may stand in front of it. -/
theorem Source.next_piece (p : Piece) {src : Source} {front gs more : List Glyph}
    (hsrc : src.glyphs = front ++ (gs ++ more)) (hfront : Trivia (charsOf front))
    (hgs : charsOf gs = p.chars) (hmore : Stops more) :
    ∃ pos, src.next = (⟨⟨p.form.kind, p.form.text, pos⟩, []⟩, ⟨more, src.stop⟩) := by
  obtain ⟨c, cs, hchars, hstarts⟩ := p.starts
  obtain ⟨g, gs, rfl, rfl, rfl⟩ := charsOf_eq_cons (hgs.trans hchars)
  have hskip : skip .blank src.glyphs = ([], g :: (gs ++ more)) := by
    rw [hsrc, skip_trivia hfront front _ rfl]
    exact skip_starts hstarts hmore
  refine ⟨g.pos, ?_⟩
  rw [next_of_cons hskip, p.scan_eq hgs hmore]
  rfl

theorem Separator.trivia_chars (s : Separator) : Trivia s.chars := .blank s.blank s.trivia

theorem stops_renderMore {gs : List Glyph} {ps : List (Separator × Piece)}
    (h : charsOf gs = renderMore ps) : Stops gs := by
  intro c hc
  rw [nextChar_eq, h] at hc
  cases ps with
  | nil => cases hc
  | cons p ps =>
    cases hc
    exact p.1.blank

/-- A token in front of others is read, and then the others. -/
theorem Source.reading_piece (p : Piece) {front : List Char} (hfront : Trivia front)
    {ps : List (Separator × Piece)}
    (ih : ∀ src : Source, charsOf src.glyphs = renderMore ps →
      src.tokens.map Token.form = ps.map (·.2.form) ++ [.plain .eof] ∧ src.reports = [])
    {src : Source} (hsrc : charsOf src.glyphs = front ++ (p.chars ++ renderMore ps)) :
    src.tokens.map Token.form = p.form :: ps.map (·.2.form) ++ [.plain .eof] ∧
      src.reports = [] := by
  obtain ⟨fs, rest, hsplit, rfl, hrest⟩ := charsOf_eq_append hsrc
  obtain ⟨gs, more, rfl, hgs, hmore⟩ := charsOf_eq_append hrest
  obtain ⟨pos, hnext⟩ := next_piece p hsplit hfront hgs (stops_renderMore hmore)
  obtain ⟨htokens, hreports⟩ := ih ⟨more, src.stop⟩ hmore
  have htoken : src.next.1.token.kind ≠ .eof := by
    rw [hnext]
    exact p.kind_ne_eof
  rw [tokens_of_token htoken, reports_of_token htoken, hnext, List.map_cons, htokens, hreports]
  exact ⟨rfl, rfl⟩

theorem Source.reading_renderMore (ps : List (Separator × Piece)) :
    ∀ src : Source, charsOf src.glyphs = renderMore ps →
      src.tokens.map Token.form = ps.map (·.2.form) ++ [.plain .eof] ∧ src.reports = [] := by
  induction ps with
  | nil =>
    intro src hsrc
    have hend : skip .blank src.glyphs = ([], []) := by rw [charsOf_eq_nil hsrc]; rfl
    have heof : src.next.1.token.kind = .eof := by rw [next_of_nil hend]; rfl
    rw [tokens_of_eof heof, reports_of_eof heof, next_of_nil hend]
    exact ⟨rfl, rfl⟩
  | cons p ps ih =>
    intro src hsrc
    exact reading_piece p.2 p.1.trivia_chars ih (hsrc.trans (List.append_assoc _ _ _))

/-! ## Carriage returns -/

theorem return_notMem_of_continuesWord {cs : List Char} (h : ∀ c ∈ cs, continuesWord c = true) :
    '\r' ∉ cs := fun hmem => absurd (h _ hmem) (by decide)

theorem Digits.return_notMem (d : Digits) : '\r' ∉ d.chars :=
  return_notMem_of_continuesWord fun c hc => continuesWord_of_isDigit (d.digits c hc)

theorem Exponent.return_notMem (e : Exponent) : '\r' ∉ e.chars := by
  obtain ⟨sign, digits⟩ := e
  have hdigits := digits.return_notMem
  rcases sign with _ | _ | _ <;> simp [chars, signChars, hdigits]

theorem return_notMem_writeChar {c : Char × Bool} (h : c.1 ≠ '\r') : '\r' ∉ writeChar c := by
  obtain ⟨c, escapeTab⟩ := c
  simp only [writeChar]
  split_ifs <;> simp [Ne.symm h]

theorem Piece.return_notMem (p : Piece) : '\r' ∉ p.chars := by
  cases p with
  | symbol kind known =>
    have hall : ∀ k ∈ TokenKind.symbols, '\r' ∉ k.spelling := by decide
    exact hall kind known
  | keyword kind known =>
    have hall : ∀ k ∈ TokenKind.keywords, '\r' ∉ k.spelling := by decide
    exact hall kind known
  | ident first more letter continues =>
    exact return_notMem_of_continuesWord
      (List.forall_mem_cons.mpr ⟨continuesWord_of_isAlpha letter, continues⟩)
  | int digits => exact digits.return_notMem
  | real whole fraction exponent =>
    have hexponent : '\r' ∉ (exponent.map Exponent.chars).getD [] := by
      cases exponent with
      | none => exact List.not_mem_nil
      | some e => exact e.return_notMem
    simp [chars, whole.return_notMem, fraction.return_notMem, hexponent]
  | string cs noReturn =>
    have hbody : '\r' ∉ cs.flatMap writeChar := by
      intro hmem
      obtain ⟨c, hc, hin⟩ := List.mem_flatMap.mp hmem
      exact return_notMem_writeChar (noReturn c hc) hin
    simp [chars, hbody]

theorem return_notMem_renderMore (ps : List (Separator × Piece)) : '\r' ∉ renderMore ps := by
  intro hmem
  obtain ⟨p, -, hp⟩ := List.mem_flatMap.mp hmem
  rcases List.mem_append.mp hp with hseparator | hpiece
  · exact p.1.noReturn hseparator
  · exact p.2.return_notMem hpiece

theorem return_notMem_render (ps : List (Separator × Piece)) : '\r' ∉ render ps := by
  cases ps with
  | nil => exact List.not_mem_nil
  | cons p ps =>
    intro hmem
    rcases List.mem_append.mp hmem with hpiece | hmore
    · exact p.2.return_notMem hpiece
    · exact return_notMem_renderMore ps hmore

theorem charsOf_place (p : Position) (cs : List Char) : charsOf (place p cs) = cs := by
  induction cs generalizing p with
  | nil => rfl
  | cons c cs ih => exact congrArg (c :: ·) (ih (p.next c))

theorem Source.charsOf_ofList {cs : List Char} (h : '\r' ∉ cs) :
    charsOf (ofString (String.ofList cs)).glyphs = cs := by
  have hkept : kept (String.ofList cs) = cs := by
    rw [kept, String.toList_ofList]
    exact List.filter_eq_self.mpr fun c hc => decide_eq_true fun hr : c = '\r' => h (hr ▸ hc)
  rw [ofString, hkept, charsOf_place]

/-- Whatever tokens are written, with whatever separators between them, the lexer
reads these tokens and then the end token, and reports nothing. -/
theorem lexing_undoes_rendering (ps : List (Separator × Piece)) :
    (Source.ofString (String.ofList (render ps))).tokens.map Token.form =
        ps.map (·.2.form) ++ [.plain .eof] ∧
      (Source.ofString (String.ofList (render ps))).reports = [] := by
  have hchars := Source.charsOf_ofList (return_notMem_render ps)
  cases ps with
  | nil => exact Source.reading_renderMore [] _ hchars
  | cons p ps => exact Source.reading_piece p.2 .none (Source.reading_renderMore ps) hchars

end StackPascal
