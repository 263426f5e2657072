import Mathlib.Data.List.DropRight
import StackPascal.Proofs.NoRepeats

/-!
The line of a diagnostic and the caret below it.

* `textLines_around`: the line in which a character of a text stands;
* `Position.after_start`: a position counts the newlines before it, and the characters
  since the last one;
* `snippet_of_split`: the snippet of a diagnostic at a character shows its line, and as
  many characters before the caret as stand before it there, carriage returns apart;
* `position_of_diagnostic`: every diagnostic is at a character that counts, or at the end
  of the text;
* `caret_of_diagnostic`: both together. Where no carriage return stands before the
  character in the shown line, the caret points at it;
* `caret_after_return`: after one it need not.
-/

namespace StackPascal

/-! ## The line around a character -/

/-- What stands in the line of a character before it, given all that stands before it. -/
def lineBefore (before : List Char) : List Char := before.rtakeWhile (· ≠ '\n')

section

variable {before : List Char} {c : Char}

theorem lineBefore_newline : lineBefore (before ++ ['\n']) = [] :=
  List.rtakeWhile_concat_neg _ _ _ (by decide)

theorem lineBefore_concat (hc : c ≠ '\n') : lineBefore (before ++ [c]) = lineBefore before ++ [c] :=
  List.rtakeWhile_concat_pos _ _ _ (by simpa using hc)

theorem lineBefore_of_not_mem (h : '\n' ∉ before) : lineBefore before = before := by
  refine List.rtakeWhile_eq_self_iff.mpr fun c hc => ?_
  have hne : c ≠ '\n' := fun he => h (he ▸ hc)
  simpa using hne

theorem lineBefore_cons (h : c = '\n' ∨ '\n' ∈ before) :
    lineBefore (c :: before) = lineBefore before := by
  induction before using List.reverseRecOn with
  | nil =>
    rcases h with rfl | h
    · rfl
    · cases h
  | append_singleton before d ih =>
    by_cases hd : d = '\n'
    · rw [hd, ← List.cons_append, lineBefore_newline, lineBefore_newline]
    · have hmem : c = '\n' ∨ '\n' ∈ before := by
        refine h.imp_right fun h => ?_
        rcases List.mem_append.mp h with h | h
        · exact h
        · exact absurd (List.mem_singleton.mp h).symm hd
      rw [← List.cons_append, lineBefore_concat hd, lineBefore_concat hd, ih hmem]

end

theorem textLines_head {cs : List Char} (h : cs ≠ []) :
    (textLines cs).head? = some (cs.takeWhile (· ≠ '\n')) := by
  induction cs with
  | nil => exact absurd rfl h
  | cons c cs ih =>
    rw [textLines]
    by_cases hc : c = '\n'
    · rw [if_pos hc, List.takeWhile_cons_of_neg (by simpa using hc)]
      rfl
    · rw [if_neg hc, List.takeWhile_cons_of_pos (by simpa using hc)]
      cases cs with
      | nil => rfl
      | cons d cs =>
        have hrest := ih (List.cons_ne_nil d cs)
        cases hl : textLines (d :: cs) with
        | nil =>
          rw [hl] at hrest
          cases hrest
        | cons l ls =>
          rw [hl] at hrest
          obtain rfl := Option.some.inj hrest
          rfl

/-- The line of a character goes on up to the next newline; its number is that of the
newlines before it. -/
theorem textLines_around (before : List Char) (c : Char) (after : List Char) :
    (textLines (before ++ c :: after))[before.count '\n']? =
      some (lineBefore before ++ (c :: after).takeWhile (· ≠ '\n')) := by
  induction before with
  | nil =>
    rw [List.count_nil, ← List.head?_eq_getElem?]
    exact textLines_head (List.cons_ne_nil c after)
  | cons d before ih =>
    rw [List.cons_append, textLines]
    by_cases hd : d = '\n'
    · rw [if_pos hd, lineBefore_cons (.inl hd), hd, List.count_cons_self, List.getElem?_cons_succ, ih]
    · rw [if_neg hd, List.count_cons_of_ne hd]
      generalize textLines (before ++ c :: after) = lines at ih ⊢
      cases lines with
      | nil => cases ih
      | cons l ls =>
        by_cases hmem : '\n' ∈ before
        · obtain ⟨n, hn⟩ := Nat.exists_eq_succ_of_ne_zero (List.count_pos_iff.mpr hmem).ne'
          rw [hn] at ih ⊢
          rw [lineBefore_cons (.inr hmem)]
          exact ih
        · have hmore : '\n' ∉ d :: before := by
            rw [List.mem_cons, not_or]
            exact ⟨Ne.symm hd, hmem⟩
          rw [List.count_eq_zero_of_not_mem hmem] at ih ⊢
          rw [lineBefore_of_not_mem hmore]
          rw [lineBefore_of_not_mem hmem] at ih
          exact congrArg some (congrArg (d :: ·) (Option.some.inj ih))

/-! ## Lines and columns -/

/-- Lines and columns are counted from 1. -/
theorem Position.after_start (cs : List Char) :
    Position.start.after cs = ⟨cs.count '\n' + 1, (lineBefore cs).length + 1⟩ := by
  induction cs using List.reverseRecOn with
  | nil => rfl
  | append_singleton cs c ih =>
    rw [Position.after_append, ih]
    show Position.next _ c = _
    unfold Position.next
    by_cases hc : c = '\n'
    · rw [if_pos hc, hc, lineBefore_newline, List.count_append]
      rfl
    · rw [if_neg hc, lineBefore_concat hc, List.count_append, List.count_singleton, List.length_append]
      simp [hc]

/-! ## Carriage returns -/

/-- What counts of a piece of text. -/
def withoutReturns (cs : List Char) : List Char := cs.filter (· ≠ '\r')

theorem lineBefore_withoutReturns (cs : List Char) :
    lineBefore (withoutReturns cs) = withoutReturns (lineBefore cs) := by
  induction cs using List.reverseRecOn with
  | nil => rfl
  | append_singleton cs c ih =>
    unfold withoutReturns at ih ⊢
    rw [List.filter_append]
    by_cases hc : c = '\n'
    · rw [hc, lineBefore_newline]
      exact lineBefore_newline
    · rw [lineBefore_concat hc, List.filter_append, ← ih]
      by_cases hr : c = '\r'
      · simp [hr]
      · rw [List.filter_cons_of_pos (by simpa using hr), List.filter_nil, lineBefore_concat hc]

theorem length_withoutReturns (cs : List Char) :
    (withoutReturns cs).length + cs.count '\r' = cs.length := by
  induction cs with
  | nil => rfl
  | cons c cs ih =>
    unfold withoutReturns at ih ⊢
    by_cases hc : c = '\r'
    · rw [hc, List.filter_cons_of_neg (by decide), List.count_cons_self, List.length_cons]
      omega
    · rw [List.filter_cons_of_pos (by simpa using hc), List.count_cons_of_ne hc, List.length_cons,
        List.length_cons]
      omega

theorem trimReturns_eq (l : List Char) : trimReturns l = l.rdropWhile (· = '\r') := rfl

/-- Only what stands behind every other character is trimmed. -/
theorem trimReturns_append (l : List Char) {c : Char} (hc : c ≠ '\r') (rest : List Char) :
    trimReturns (l ++ c :: rest) = l ++ c :: trimReturns rest := by
  induction rest using List.reverseRecOn with
  | nil => exact List.rdropWhile_concat_neg _ _ _ (by simpa using hc)
  | append_singleton rest d ih =>
    rw [trimReturns_eq] at ih ⊢
    rw [← List.cons_append, ← List.append_assoc, trimReturns_eq]
    by_cases hd : d = '\r'
    · rw [List.rdropWhile_concat_pos _ _ _ (by simpa using hd),
        List.rdropWhile_concat_pos _ _ _ (by simpa using hd), ih]
      rfl
    · rw [List.rdropWhile_concat_neg _ _ _ (by simpa using hd),
        List.rdropWhile_concat_neg _ _ _ (by simpa using hd), List.append_assoc]
      rfl

theorem withoutReturns_trimReturns (l : List Char) :
    withoutReturns (trimReturns l) = withoutReturns l := by
  induction l using List.reverseRecOn with
  | nil => rfl
  | append_singleton l c ih =>
    rw [trimReturns_eq] at ih ⊢
    by_cases hc : c = '\r'
    · rw [List.rdropWhile_concat_pos _ _ _ (by simpa using hc), ih]
      simp [withoutReturns, hc]
    · rw [List.rdropWhile_concat_neg _ _ _ (by simpa using hc)]

/-! ## Snippets -/

namespace Snippet

/-- The character above the caret is `c`; the caret of a newline stands just past the line. -/
def PointsAt (s : Snippet) (c : Char) : Prop :=
  if c = '\n' then s.margin.length = s.line.length else s.line[s.margin.length]? = some c

instance (s : Snippet) (c : Char) : Decidable (s.PointsAt c) := by
  unfold PointsAt
  infer_instance

/-- What the shown line has before the character `c`; a newline stands behind all of it. -/
def left (s : Snippet) (before : List Char) (c : Char) : List Char :=
  if c = '\n' then s.line else lineBefore before

/-- The snippet shows the line of the character `c` between `before` and `after`. The caret
stands as far to the right as characters stand before `c` there that are no carriage
returns. -/
structure Marks (s : Snippet) (before : List Char) (c : Char) (after : List Char) : Prop where
  line : s.line = trimReturns (lineBefore before ++ (c :: after).takeWhile (· ≠ '\n'))
  char : c ≠ '\n' → s.line[(s.left before c).length]? = some c
  caret : s.margin.length + (s.left before c).count '\r' = (s.left before c).length

theorem Marks.pointsAt {s : Snippet} {before after : List Char} {c : Char}
    (h : s.Marks before c after) (hr : '\r' ∉ s.left before c) : s.PointsAt c := by
  have hcaret := h.caret
  rw [List.count_eq_zero_of_not_mem hr, Nat.add_zero] at hcaret
  unfold PointsAt
  split
  · next hc => rw [hcaret, left, if_pos hc]
  · next hc => rw [hcaret, h.char hc]

end Snippet

/-- The snippet of a diagnostic at a character. -/
theorem snippet_of_split {text : String} {before after : List Char} {c : Char} {d : Diagnostic}
    (hsplit : text.toList = before ++ c :: after) (hc : c ≠ '\r')
    (hpos : d.pos = Position.start.after (withoutReturns before)) :
    ∃ s, d.snippet? text = some s ∧ s.Marks before c after := by
  have hline := textLines_around before c after
  have hcount : (withoutReturns before).count '\n' = before.count '\n' :=
    List.count_filter (by decide)
  rw [Position.after_start, hcount, lineBefore_withoutReturns] at hpos
  generalize hshown : trimReturns (lineBefore before ++ (c :: after).takeWhile (· ≠ '\n')) = shown
  refine ⟨⟨shown, marginOf shown ((withoutReturns (lineBefore before)).length + 1)⟩, ?_, ?_⟩
  · unfold Diagnostic.snippet?
    rw [hpos]
    dsimp only
    rw [hsplit, hline, ← hshown]
    rfl
  · have hlength := length_withoutReturns (lineBefore before)
    have hmargin : (marginOf shown ((withoutReturns (lineBefore before)).length + 1)).length =
        min (withoutReturns (lineBefore before)).length shown.length := by
      rw [marginOf, List.length_map, List.length_take, Nat.add_sub_cancel]
    by_cases hn : c = '\n'
    · -- the line ends before the character
      rw [List.takeWhile_cons_of_neg (by simpa using hn), List.append_nil] at hshown
      have hkept : withoutReturns shown = withoutReturns (lineBefore before) := by
        rw [← hshown, withoutReturns_trimReturns]
      have hall := length_withoutReturns shown
      rw [hkept] at hall
      refine ⟨?_, fun hne => absurd hn hne, ?_⟩
      · rw [List.takeWhile_cons_of_neg (by simpa using hn), List.append_nil, hshown]
      · rw [Snippet.left, if_pos hn, hmargin]
        dsimp only
        omega
    · rw [List.takeWhile_cons_of_pos (by simpa using hn), trimReturns_append _ hc] at hshown
      have hlong : (lineBefore before).length < shown.length := by
        rw [← hshown]
        simp
      refine ⟨?_, fun _ => ?_, ?_⟩
      · rw [List.takeWhile_cons_of_pos (by simpa using hn), trimReturns_append _ hc, hshown]
      · rw [Snippet.left, if_neg hn, ← hshown]
        simp
      · rw [Snippet.left, if_neg hn, hmargin]
        omega

/-! ## Where diagnostics stand -/

/-- A placed character has others before it, which give it its position. -/
theorem split_of_mem_place {p q : Position} {cs : List Char} (h : q ∈ (place p cs).map Glyph.pos) :
    ∃ before c after, cs = before ++ c :: after ∧ q = p.after before := by
  induction cs generalizing p with
  | nil => cases h
  | cons c cs ih =>
    rcases List.mem_cons.mp h with rfl | h
    · exact ⟨[], c, cs, rfl, rfl⟩
    · obtain ⟨before, d, after, rfl, rfl⟩ := ih h
      exact ⟨c :: before, d, after, rfl, rfl⟩

/-- The report of a failed parse is about a token. -/
theorem Source.pos_of_error {src : Source} {r : Report} (h : src.parse.result = .error r) :
    r.pos ∈ src.tokens.map Token.pos := by
  have hresult : src.text.parse.1 = .error r := h
  unfold Tokens.parse at hresult
  split at hresult
  · cases hresult
  · next rest hrun =>
    cases hresult
    obtain ⟨htokens, hkinds⟩ := src.tokens_eq
    obtain ⟨before, hblames⟩ := Parser.blames_of_error hkinds hrun
    rw [htokens, hblames.pos]
    exact List.mem_map_of_mem (hblames.split.subset (by simp))

/-- Every diagnostic is at a character that counts, or at the end of the text. -/
theorem position_of_diagnostic {text : String} {d : Diagnostic}
    (h : d ∈ (compilation text).diagnostics) :
    d.pos ∈ (place .start (Source.kept text)).map Glyph.pos ++
      [Position.start.after (Source.kept text)] := by
  have hlexical : ∀ r ∈ reportsOf (Source.ofString text).parse.read,
      r.pos ∈ (place .start (Source.kept text)).map Glyph.pos ++
        [Position.start.after (Source.kept text)] := by
    intro r hr
    have hread := (Source.ofString text).read_begins
    obtain ⟨l, hl, hr⟩ := List.mem_flatMap.mp hr
    have hall : r ∈ reportsOf (Source.ofString text).lexemes :=
      List.mem_flatMap.mpr ⟨l, hread.subset hl, hr⟩
    exact (Source.positions_reports _ (Source.ofString text)).subset (List.mem_map_of_mem hall)
  have htokens := (Source.positions_tokens text).subset
  cases hp : (Source.ofString text).parse.result with
  | error r =>
    rw [compilation, Source.diagnostics_of_error hp] at h
    obtain ⟨q, hq, rfl⟩ := List.mem_map.mp h
    rcases List.mem_append.mp hq with hq | hq
    · exact hlexical q hq
    · obtain rfl := List.mem_singleton.mp hq
      exact htokens (Source.pos_of_error hp)
  | ok p =>
    rw [compilation, (Source.compile_of_ok hp).1] at h
    obtain ⟨q, hq, rfl⟩ := List.mem_map.mp h
    rcases List.mem_append.mp hq with hq | hq
    · exact hlexical q hq
    · have hwithin := (analyze_noted (places_nodup hp)).within q (List.mem_reverse.mpr hq)
      exact htokens ((places_sublist hp).subset hwithin)

/-- A diagnostic that is not at the end of the text is at a character. Its snippet shows
the line of the character and marks it: the caret stands under the character if no
carriage return stands before it in the shown line, and otherwise as many places to the
left of it as there are such carriage returns. -/
theorem caret_of_diagnostic (text : String) :
    ∀ d ∈ (compilation text).diagnostics,
      d.pos = Position.start.after (Source.kept text) ∨
      ∃ before c after, text.toList = before ++ c :: after ∧ c ≠ '\r' ∧
        d.pos = Position.start.after (withoutReturns before) ∧
        ∃ s, d.snippet? text = some s ∧ s.Marks before c after ∧
          ('\r' ∉ s.left before c → s.PointsAt c) := by
  intro d hd
  rcases List.mem_append.mp (position_of_diagnostic hd) with hmem | hend
  · obtain ⟨kept, c, more, hsplit, hpos⟩ := split_of_mem_place hmem
    obtain ⟨before, rest, hall, rfl, hrest⟩ := List.filter_eq_append_iff.mp hsplit
    obtain ⟨skipped, after, rfl, hskipped, hc, -⟩ := List.filter_eq_cons_iff.mp hrest
    have hnone : withoutReturns (before ++ skipped) = before.filter (· ≠ '\r') := by
      rw [withoutReturns, List.filter_append, List.filter_eq_nil_iff.mpr hskipped, List.append_nil]
    rw [← List.append_assoc] at hall
    have hreturn : c ≠ '\r' := by simpa using hc
    obtain ⟨s, hs, hmarks⟩ := snippet_of_split hall hreturn (hpos.trans (by rw [hnone]))
    exact .inr ⟨_, c, after, hall, hreturn, hpos.trans (by rw [hnone]), s, hs, hmarks,
      hmarks.pointsAt⟩
  · exact .inl (List.mem_singleton.mp hend)

theorem caret_of_diagnostic_unknown :
    let text := "program p;\r\nbegin\r\n\t@ end.\r\n"
    ∃ d ∈ (compilation text).diagnostics, d.message = "Unknown token '@'" ∧
      ∃ before c after, text.toList = before ++ c :: after ∧
        d.pos = Position.start.after (withoutReturns before) ∧
        ∃ s, d.snippet? text = some s ∧ s.Marks before c after := by
  intro text
  have hfound : ∃ d ∈ (compilation text).diagnostics, d.message = "Unknown token '@'" ∧
      d.pos ≠ Position.start.after (Source.kept text) := by
    decide +kernel
  obtain ⟨d, hd, hmessage, hplace⟩ := hfound
  obtain ⟨before, c, after, hall, _, hpos, s, hs, hmarks, _⟩ :=
    (caret_of_diagnostic text d hd).resolve_left hplace
  exact ⟨d, hd, hmessage, before, c, after, hall, hpos, s, hs, hmarks⟩

/-- After a carriage return the caret is too far to the left: it stands before the
character that the message is about. -/
theorem caret_after_return :
    let text := "program p; begin\r @ end."
    ∃ d ∈ (compilation text).diagnostics, ∃ s ∈ d.snippet? text,
      d.message = "Unknown token '@'" ∧
      text.toList = "program p; begin\r ".toList ++ '@' :: " end.".toList ∧
      d.pos = Position.start.after (withoutReturns "program p; begin\r ".toList) ∧
      ¬ s.PointsAt '@' := by
  decide +kernel

end StackPascal
