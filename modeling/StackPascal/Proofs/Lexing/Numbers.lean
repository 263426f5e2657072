import StackPascal.Proofs.Lexing.Lexemes

/-!
What number tokens write.

* `integerRange_reported`: an integer is reported as out of range exactly if the
  reading of it fails;
* `readDecimal_real`: the digits, the places and the exponent of a real number are read;
* `ofString?_real`: so a real number is always read, and as a number that is at most
  infinite.
-/

namespace StackPascal

/-! ## Integers out of range -/

section Ranges

variable {pos : Position} {text : String}

theorem mem_integerReports {start : Position} {own : String} :
    lexical pos (.integerRange text) ∈ integerReports start own ↔
      pos = start ∧ text = own ∧ Numeral.int? own = none := by
  unfold integerReports
  split
  · next h => simp [h]
  · next h => simp [lexical, h]

theorem integerRange_notMem_atEnd (gap : Gap) : lexical pos (.integerRange text) ∉ gap.atEnd := by
  induction gap with
  | blank => exact List.not_mem_nil
  | line => exact List.not_mem_nil
  | block opened inner => simp [Gap.atEnd, lexical]
  | mark after ih => exact ih

theorem integerRange_notMem_step (gap : Gap) (g : Glyph) (next : Option Char) :
    lexical pos (.integerRange text) ∉ (gap.step g next).reports := by
  cases gap with
  | blank =>
    show _ ∉ (blankStep g next).reports
    unfold blankStep
    split_ifs <;> simp [GapStep.reports, lexical]
  | line => exact List.not_mem_nil
  | block opened inner =>
    show _ ∉ (blockStep opened inner g.char next).reports
    unfold blockStep
    split_ifs <;> exact List.not_mem_nil
  | mark after => exact List.not_mem_nil

theorem integerRange_notMem_skip (gap : Gap) (gs : List Glyph) :
    lexical pos (.integerRange text) ∉ (skip gap gs).1 := by
  induction gs generalizing gap with
  | nil => exact integerRange_notMem_atEnd gap
  | cons g gs ih =>
    have hstep : lexical pos (.integerRange text) ∉ (gap.step g (nextChar gs)).reports :=
      integerRange_notMem_step gap g (nextChar gs)
    rw [skip]
    split
    · exact List.not_mem_nil
    · next reports after hs =>
      rw [hs] at hstep
      exact List.not_mem_append hstep (ih after)

theorem integerRange_notMem_stringBody (stop : Position) (escaped : Bool) (gs : List Glyph) :
    lexical pos (.integerRange text) ∉ (stringBody stop escaped gs).2.1 := by
  induction gs generalizing escaped with
  | nil => simp [stringBody, lexical]
  | cons g gs ih =>
    rw [stringBody]
    split
    · simp [lexical]
    split
    · cases unescape g.char with
      | some c => exact ih false
      | none => exact List.not_mem_cons_of_ne_of_not_mem (by simp [lexical]) (ih false)
    split
    · exact List.not_mem_nil
    split
    · exact ih true
    · exact ih false

theorem integerRange_notMem_exponentPart (gs : List Glyph) :
    lexical pos (.integerRange text) ∉ (exponentPart gs).2.1 := by
  cases gs with
  | nil => exact List.not_mem_nil
  | cons g gs =>
    rw [exponentPart]
    split
    · dsimp only
      split_ifs
      · simp [lexical]
      · exact List.not_mem_nil
    · exact List.not_mem_nil

theorem integerRange_number (g : Glyph) (gs : List Glyph) :
    lexical pos (.integerRange text) ∈ (number g gs).1.reports ↔
      (number g gs).1.token = ⟨.literal .int, text, pos⟩ ∧ Numeral.int? text = none := by
  unfold number
  dsimp only
  cases fractionPart (afterDigits gs) with
  | none =>
    rw [mem_integerReports]
    constructor
    · rintro ⟨rfl, rfl, h⟩
      exact ⟨rfl, h⟩
    · rintro ⟨htoken, h⟩
      cases htoken
      exact ⟨rfl, rfl, h⟩
  | some p =>
    refine iff_of_false (integerRange_notMem_exponentPart p.2) ?_
    rintro ⟨htoken, -⟩
    cases htoken

theorem wordToken_ne_int (word : String) (start : Position) :
    (wordToken word start).kind ≠ .literal .int := by
  have hall : ∀ k ∈ TokenKind.keywords, k ≠ .literal .int := by decide
  unfold wordToken
  split
  · next kind hk => exact hall kind (List.mem_of_find?_eq_some hk)
  · nofun

theorem integerRange_scan (stop : Position) (g : Glyph) (gs : List Glyph) :
    lexical pos (.integerRange text) ∈ (scan stop g gs).1.reports ↔
      (scan stop g gs).1.token = ⟨.literal .int, text, pos⟩ ∧ Numeral.int? text = none := by
  have hother : ∀ {l : Lexeme}, lexical pos (.integerRange text) ∉ l.reports →
      l.token.kind ≠ .literal .int → (lexical pos (.integerRange text) ∈ l.reports ↔
        l.token = ⟨.literal .int, text, pos⟩ ∧ Numeral.int? text = none) :=
    fun hreports hkind => iff_of_false hreports fun h => hkind (congrArg Token.kind h.1)
  unfold scan
  split
  · next kind hkind =>
    have hall : ∀ k ∈ TokenKind.symbols, k ≠ .literal .int := by decide
    exact hother List.not_mem_nil (hall kind (List.mem_of_find?_eq_some hkind))
  split
  · exact hother (integerRange_notMem_stringBody stop false gs) nofun
  split
  · exact integerRange_number g gs
  · exact hother List.not_mem_nil (wordToken_ne_int _ _)

namespace Source

theorem integerRange_next (src : Source) :
    lexical pos (.integerRange text) ∈ src.next.1.reports ↔
      src.next.1.token = ⟨.literal .int, text, pos⟩ ∧ Numeral.int? text = none := by
  have hskip : lexical pos (.integerRange text) ∉ (skip .blank src.glyphs).1 :=
    integerRange_notMem_skip .blank src.glyphs
  cases hs : skip .blank src.glyphs with
  | mk reports rest =>
    rw [hs] at hskip
    cases rest with
    | nil =>
      rw [next_of_nil hs]
      exact iff_of_false hskip nofun
    | cons g gs =>
      rw [next_of_cons hs, ← integerRange_scan src.stop g gs]
      exact ⟨fun h => (List.mem_append.mp h).resolve_left hskip, List.mem_append_right _⟩

/-- The lexemes are read one after the other. -/
theorem next_of_mem_lexemesWithin (n : Nat) :
    ∀ src : Source, ∀ l ∈ src.lexemesWithin n, ∃ later : Source, l = later.next.1 := by
  induction n with
  | zero => exact fun _ => nofun
  | succ n ih =>
    intro src
    rw [lexemesWithin]
    dsimp only
    split
    · exact List.forall_mem_singleton.mpr ⟨src, rfl⟩
    · exact List.forall_mem_cons.mpr ⟨⟨src, rfl⟩, ih src.next.2⟩

/-- An integer is out of range if it is reported, and nothing else is reported so. -/
theorem integerRange_reported (src : Source) :
    lexical pos (.integerRange text) ∈ src.reports ↔
      ⟨.literal .int, text, pos⟩ ∈ src.tokens ∧ Numeral.int? text = none := by
  have hnext : ∀ l ∈ src.lexemes, lexical pos (.integerRange text) ∈ l.reports ↔
      l.token = ⟨.literal .int, text, pos⟩ ∧ Numeral.int? text = none := by
    intro l hl
    obtain ⟨later, rfl⟩ := next_of_mem_lexemesWithin _ src l hl
    exact later.integerRange_next
  constructor
  · intro h
    obtain ⟨l, hl, hr⟩ := List.mem_flatMap.mp h
    obtain ⟨htoken, hnone⟩ := (hnext l hl).mp hr
    exact ⟨List.mem_map.mpr ⟨l, hl, htoken⟩, hnone⟩
  · rintro ⟨h, hnone⟩
    obtain ⟨l, hl, htoken⟩ := List.mem_map.mp h
    exact List.mem_flatMap.mpr ⟨l, hl, (hnext l hl).mpr ⟨htoken, hnone⟩⟩

end Source

end Ranges

/-! ## Real numbers -/

/-- The number behind the `e`. -/
def Exponent.value (e : Exponent) : Int :=
  match e.sign with
  | some .minus => -(Numeral.digitsValue e.digits.chars)
  | _ => Numeral.digitsValue e.digits.chars

/-- What the characters of a real number write. -/
def realDecimal (whole fraction : Digits) (exponent : Option Exponent) : Binary64.Decimal where
  digits := Numeral.digitsValue (whole.chars ++ fraction.chars)
  places := (whole.chars ++ fraction.chars).length
  exponent := (exponent.map Exponent.value).getD 0 - fraction.chars.length

theorem Digits.takeWhile_append (digits : Digits) {rest : List Char}
    (h : ∀ c, rest.head? = some c → c.isDigit = false) :
    (digits.chars ++ rest).takeWhile Char.isDigit = digits.chars ∧
      (digits.chars ++ rest).dropWhile Char.isDigit = rest := by
  have hrest : rest.takeWhile Char.isDigit = [] ∧ rest.dropWhile Char.isDigit = rest := by
    cases rest with
    | nil => exact ⟨rfl, rfl⟩
    | cons c rest => simp [h c rfl]
  rw [List.takeWhile_append_of_pos digits.digits, List.dropWhile_append_of_pos digits.digits,
    hrest.1, hrest.2]
  exact ⟨List.append_nil _, rfl⟩

namespace Binary64

theorem readExponent_digits (front : List Char) (digits : Digits) {negative : Bool}
    (hsplit : Numeral.splitSign (front ++ digits.chars) = (negative, digits.chars)) :
    readExponent ('e' :: front ++ digits.chars) =
      some (if negative then -(Numeral.digitsValue digits.chars : Int) else Numeral.digitsValue digits.chars) := by
  have hall : digits.chars.all Char.isDigit = true := List.all_eq_true.mpr digits.digits
  simp [readExponent, hsplit, hall, digits.ne_nil]

theorem readExponent_chars (e : Exponent) : readExponent e.chars = some e.value := by
  obtain ⟨sign, digits⟩ := e
  rcases sign with _ | _ | _
  · exact readExponent_digits [] digits (Numeral.splitSign_digits digits.digits)
  · exact readExponent_digits ['+'] digits rfl
  · exact readExponent_digits ['-'] digits rfl

theorem readExponent_optional (exponent : Option Exponent) :
    readExponent ((exponent.map Exponent.chars).getD []) =
      some ((exponent.map Exponent.value).getD 0) := by
  cases exponent with
  | none => rfl
  | some e => exact readExponent_chars e

theorem readDecimal_real (whole fraction : Digits) (exponent : Option Exponent) :
    readDecimal (realChars whole fraction exponent) = some (realDecimal whole fraction exponent) := by
  have hexponent : ∀ c, ((exponent.map Exponent.chars).getD []).head? = some c → c.isDigit = false := by
    cases exponent with
    | none => exact nofun
    | some e =>
      intro c hc
      cases hc
      rfl
  have hdot : ∀ c, ('.' :: (fraction.chars ++ (exponent.map Exponent.chars).getD [])).head? = some c →
      c.isDigit = false := by
    intro c hc
    cases hc
    rfl
  obtain ⟨hwhole, hafter⟩ := whole.takeWhile_append hdot
  obtain ⟨hfraction, hrest⟩ := fraction.takeWhile_append hexponent
  have hchars : realChars whole fraction exponent =
      whole.chars ++ '.' :: (fraction.chars ++ (exponent.map Exponent.chars).getD []) := by
    simp [realChars]
  have hne : (whole.chars ++ fraction.chars).isEmpty = false := by
    simp [whole.ne_nil]
  rw [hchars]
  simp only [readDecimal, hwhole, hafter, hfraction, hrest, hne, readExponent_optional]
  rfl

theorem head_real (whole fraction : Digits) (exponent : Option Exponent) :
    ∃ c cs, realChars whole fraction exponent = c :: cs ∧ c.isDigit = true := by
  obtain ⟨c, cs, hcs⟩ := List.exists_cons_of_ne_nil whole.ne_nil
  refine ⟨c, _, by rw [realChars, hcs]; rfl, whole.digits c ?_⟩
  rw [hcs]
  exact List.mem_cons_self

/-- A word that starts with a digit is none of the words for infinity and for no number. -/
theorem readMagnitude_digit {c : Char} (hc : c.isDigit = true) (cs : List Char) :
    readMagnitude (c :: cs) = (readDecimal (c :: cs)).map Decimal.magnitude := by
  have hlower : c.toLower = c := by
    refine dif_neg fun hupper => ?_
    have hdigit := of_decide_eq_true (Bool.and_eq_true_iff.mp hc).2
    exact absurd (UInt32.le_trans hupper.1 hdigit) (by decide)
  have hne : ∀ {d : Char} {ds : List Char}, d.isDigit = false → (c :: cs).map Char.toLower ≠ d :: ds := by
    rintro d ds hd h
    rw [List.map_cons, hlower] at h
    rw [(List.cons.inj h).1, hd] at hc
    cases hc
  have hinf : ¬ ((c :: cs).map Char.toLower = "inf".toList ∨
      (c :: cs).map Char.toLower = "infinity".toList) :=
    fun h => h.elim (hne rfl) (hne rfl)
  have hnan : ¬ (c :: cs).map Char.toLower = "nan".toList := hne rfl
  unfold readMagnitude
  dsimp only
  rw [if_neg hinf, if_neg hnan]

theorem Decimal.magnitude_le (d : Decimal) : d.magnitude ≤ infinity := by
  unfold magnitude
  split_ifs
  · exact Nat.zero_le _
  · exact Nat.le_refl _
  · exact Nat.zero_le _
  · exact Nat.min_le_right _ _

/-- The text of a real number is read. -/
theorem ofString?_real (whole fraction : Digits) (exponent : Option Exponent) :
    ofString? (String.ofList (realChars whole fraction exponent)) =
      some (ofMagnitude false (realDecimal whole fraction exponent).magnitude) := by
  obtain ⟨c, cs, hchars, hc⟩ := head_real whole fraction exponent
  have hread := readDecimal_real whole fraction exponent
  rw [hchars] at hread ⊢
  simp only [ofString?, String.toList_ofList, Numeral.splitSign_digit hc, readMagnitude_digit hc, hread]
  rfl

end Binary64

end StackPascal
