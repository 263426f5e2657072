import StackPascal.Proofs.Lexing.Rendering

/-!
What the lexer passes over between two tokens.

* `Between`: trivia, and characters in it that no token starts with;
* `Unclosed`: what ends a text inside a comment;
* `closes_of_skip`: a block comment is left only where it is closed;
* `skip_passed`: what is passed over is the one or, with nothing behind it, the other.
-/

namespace StackPascal

theorem Trivia.append {cs ds : List Char} (h : Trivia cs) (k : Trivia ds) : Trivia (cs ++ ds) := by
  induction h with
  | none => exact k
  | blank hc _ ih => exact .blank hc ih
  | line hbody _ ih =>
    rw [List.cons_append, List.cons_append, List.append_assoc]
    exact .line hbody ih
  | block hbody _ ih =>
    rw [List.cons_append, List.cons_append, List.append_assoc]
    exact .block hbody ih

/-- What may stand between two tokens. An unknown character is reported, but passed over. -/
inductive Between : List Char → Prop
  | trivia {cs : List Char} : Trivia cs → Between cs
  | unknown {front rest : List Char} {c : Char} : Trivia front → Text.isBlank c = false →
      startsToken c = false → Between rest → Between (front ++ c :: rest)

/-- What ends a text inside a comment: a line comment that no newline ends, or a block comment
that is not closed. -/
inductive Unclosed : List Char → Prop
  | line {front body : List Char} : Between front → '\n' ∉ body →
      Unclosed (front ++ '/' :: '/' :: body)
  | block {front body : List Char} : Between front → (∀ cs, cs <+: body → ¬ Comment cs) →
      Unclosed (front ++ '/' :: '*' :: body)

/-- What is passed over before the rest of a text. -/
def Passed (cs : List Char) (rest : List Glyph) : Prop := Between cs ∨ rest = [] ∧ Unclosed cs

section

variable {cs ds : List Char} {rest : List Glyph}

theorem Between.append (h : Between cs) (k : Between ds) : Between (cs ++ ds) := by
  induction h with
  | trivia h =>
    cases k with
    | trivia k => exact .trivia (h.append k)
    | unknown hfront hblank hstarts hrest =>
      rw [← List.append_assoc]
      exact .unknown (h.append hfront) hblank hstarts hrest
  | unknown hfront hblank hstarts _ ih =>
    rw [List.append_assoc, List.cons_append]
    exact .unknown hfront hblank hstarts ih

theorem Unclosed.behind (h : Between cs) (k : Unclosed ds) : Unclosed (cs ++ ds) := by
  cases k with
  | line hfront hbody =>
    rw [← List.append_assoc]
    exact .line (h.append hfront) hbody
  | block hfront hbody =>
    rw [← List.append_assoc]
    exact .block (h.append hfront) hbody

theorem Passed.behind (h : Between cs) (k : Passed ds rest) : Passed (cs ++ ds) rest := by
  rcases k with k | ⟨hrest, k⟩
  · exact .inl (h.append k)
  · exact .inr ⟨hrest, k.behind h⟩

end

/-! ## Comments that are closed -/

/-- What closes a comment and `n` comments around it. -/
inductive Closes : Nat → List Char → Prop
  | last {cs : List Char} : Comment cs → Closes 0 cs
  | more {n : Nat} {cs ds : List Char} : Comment cs → Closes n ds → Closes (n + 1) (cs ++ ds)

namespace Closes

variable {n : Nat} {c : Char} {cs : List Char}

theorem ne_nil (h : Closes n cs) : cs ≠ [] := by
  cases h with
  | last h => exact h.ne_nil
  | more h _ => exact List.append_ne_nil_of_left_ne_nil h.ne_nil _

theorem char (hopen : ¬ (c = '/' ∧ cs.head? = some '*')) (hclose : ¬ (c = '*' ∧ cs.head? = some '/'))
    (h : Closes n cs) : Closes n (c :: cs) := by
  cases h with
  | last h => exact .last (.char hopen hclose h)
  | more h k =>
    rw [List.head?_append_of_ne_nil _ h.ne_nil] at hopen hclose
    exact .more (.char hopen hclose h) k

/-- A comment inside the first one is part of it. -/
theorem nested (h : Closes (n + 1) cs) : Closes n ('/' :: '*' :: cs) := by
  cases h with
  | more h k =>
    cases k with
    | last k => exact .last (.nested h k)
    | more k l =>
      have hall := Closes.more (.nested h k) l
      rwa [List.cons_append, List.cons_append, List.append_assoc] at hall

theorem close (h : Closes n cs) : Closes (n + 1) ('*' :: '/' :: cs) := .more .close h

end Closes

theorem nextChar_eq_some {gs : List Glyph} {c : Char} (h : nextChar gs = some c) :
    ∃ g rest, gs = g :: rest ∧ g.char = c := by
  cases gs with
  | nil => cases h
  | cons g rest => exact ⟨g, rest, rfl, Option.some.inj h⟩

/-- Behind a block comment something is left only if the comment is closed. -/
theorem closes_of_skip (opened : Position) (inner : Nat) (gs : List Glyph)
    (h : (skip (.block opened inner) gs).2 ≠ []) : ∃ front, front <+: charsOf gs ∧ Closes inner front := by
  match gs with
  | [] => exact absurd rfl h
  | g :: gs =>
    rw [skip] at h
    simp only [Gap.step, blockStep] at h
    by_cases hopen : g.char = '/' ∧ nextChar gs = some '*'
    · rw [if_pos hopen] at h
      obtain ⟨g', gs', rfl, hg'⟩ := nextChar_eq_some hopen.2
      obtain ⟨front, hp, hcloses⟩ := closes_of_skip opened (inner + 1) gs' h
      refine ⟨'/' :: '*' :: front, ?_, hcloses.nested⟩
      rw [← hopen.1, ← hg']
      exact List.cons_prefix_cons.mpr ⟨rfl, List.cons_prefix_cons.mpr ⟨rfl, hp⟩⟩
    by_cases hclose : g.char = '*' ∧ nextChar gs = some '/'
    · rw [if_neg hopen, if_pos hclose] at h
      obtain ⟨g', gs', rfl, hg'⟩ := nextChar_eq_some hclose.2
      have hmark : ∀ front, front <+: charsOf gs' → '*' :: '/' :: front <+: charsOf (g :: g' :: gs') := by
        intro front hp
        rw [← hclose.1, ← hg']
        exact List.cons_prefix_cons.mpr ⟨rfl, List.cons_prefix_cons.mpr ⟨rfl, hp⟩⟩
      cases inner with
      | zero => exact ⟨['*', '/'], hmark [] List.nil_prefix, .last .close⟩
      | succ inner =>
        obtain ⟨front, hp, hcloses⟩ := closes_of_skip opened inner gs' h
        exact ⟨'*' :: '/' :: front, hmark front hp, hcloses.close⟩
    · rw [if_neg hopen, if_neg hclose] at h
      obtain ⟨front, hp, hcloses⟩ := closes_of_skip opened inner gs h
      have hhead : front.head? = nextChar gs := by
        obtain ⟨more, hmore⟩ := hp
        rw [nextChar_eq, ← hmore, List.head?_append_of_ne_nil _ hcloses.ne_nil]
      refine ⟨g.char :: front, List.cons_prefix_cons.mpr ⟨rfl, hp⟩, hcloses.char ?_ ?_⟩
      · rwa [hhead]
      · rwa [hhead]
termination_by gs.length

/-! ## Passing over -/

theorem skip_line_end {gs : List Glyph} (hgs : '\n' ∉ charsOf gs) : skip .line gs = ([], []) := by
  induction gs with
  | nil => rfl
  | cons g gs ih =>
    obtain ⟨hg, hrest⟩ := List.ne_and_not_mem_of_not_mem_cons hgs
    simp [skip, Gap.step, Ne.symm hg, ih hrest]

theorem charsOf_pair {g g' : Glyph} {c d : Char} (hg : g.char = c) (hg' : g'.char = d) (gs : List Glyph) :
    charsOf (g :: g' :: gs) = c :: d :: charsOf gs := by
  rw [← hg, ← hg']
  rfl

theorem skip_line_mark {g g' : Glyph} (hg : g.char = '/') (hg' : g'.char = '/') (gs : List Glyph) :
    skip .blank (g :: g' :: gs) = skip .line gs := by
  have hslash : Text.isBlank '/' = false := by decide
  simp [skip, Gap.step, blankStep, nextChar, hg, hg', hslash]

theorem skip_block_mark {g g' : Glyph} (hg : g.char = '/') (hg' : g'.char = '*') (gs : List Glyph) :
    skip .blank (g :: g' :: gs) = skip (.block g.pos 0) gs := by
  have hslash : Text.isBlank '/' = false := by decide
  simp [skip, Gap.step, blankStep, nextChar, hg, hg', hslash]

/-- A line comment ends with its line, or the text ends in it. -/
theorem line_passed {g g' : Glyph} (hg : g.char = '/') (hg' : g'.char = '/') (gs : List Glyph) :
    (∃ own more, gs = own ++ more ∧ Trivia (charsOf (g :: g' :: own)) ∧
      (skip .line gs).2 = (skip .blank more).2) ∨
    (skip .line gs).2 = [] ∧ Unclosed (charsOf (g :: g' :: gs)) := by
  by_cases hends : '\n' ∈ charsOf gs
  · obtain ⟨body, more, hsplit, hbody⟩ := List.eq_append_cons_of_mem hends
    obtain ⟨own, gs, rfl, hown, hgs⟩ := charsOf_eq_append hsplit
    obtain ⟨nl, more, rfl, hnl, -⟩ := charsOf_eq_cons hgs
    refine .inl ⟨own ++ [nl], more, by rw [List.append_assoc, List.singleton_append], ?_, ?_⟩
    · rw [charsOf_pair hg hg', show charsOf (own ++ [nl]) = _ from List.map_append,
        show own.map Glyph.char = body from hown, List.map_singleton, hnl]
      exact .line hbody .none
    · rw [skip_line (hown ▸ hbody) hnl]
  · refine .inr ⟨by rw [skip_line_end hends], ?_⟩
    rw [charsOf_pair hg hg']
    exact @Unclosed.line [] _ (.trivia .none) hends

/-- A block comment ends where it is closed, or the text ends in it. -/
theorem block_passed {g g' : Glyph} (hg : g.char = '/') (hg' : g'.char = '*') (gs : List Glyph) :
    (∃ own more, gs = own ++ more ∧ Trivia (charsOf (g :: g' :: own)) ∧
      (skip (.block g.pos 0) gs).2 = (skip .blank more).2) ∨
    (skip (.block g.pos 0) gs).2 = [] ∧ Unclosed (charsOf (g :: g' :: gs)) := by
  by_cases hcloses : ∃ cs, cs <+: charsOf gs ∧ Comment cs
  · obtain ⟨cs, ⟨more, hsplit⟩, hcomment⟩ := hcloses
    obtain ⟨own, more, rfl, hown, -⟩ := charsOf_eq_append hsplit.symm
    refine .inl ⟨own, more, rfl, ?_, ?_⟩
    · have htrivia := Trivia.block hcomment .none
      rwa [List.append_nil, ← hown, ← charsOf_pair hg hg'] at htrivia
    · rw [skip_comment hcomment _ _ own more hown]
      rfl
  · refine .inr ⟨?_, ?_⟩
    · by_contra hne
      obtain ⟨front, hp, hfront⟩ := closes_of_skip _ _ _ hne
      cases hfront with
      | last hcomment => exact hcloses ⟨front, hp, hcomment⟩
    · rw [charsOf_pair hg hg']
      exact @Unclosed.block [] _ (.trivia .none) fun cs hp hc => hcloses ⟨cs, hp, hc⟩

/-- What is passed over stands between tokens; or the text ends in a comment. -/
theorem skip_passed (gs : List Glyph) :
    ∃ front, gs = front ++ (skip .blank gs).2 ∧ Passed (charsOf front) (skip .blank gs).2 := by
  match gs with
  | [] => exact ⟨[], rfl, .inl (.trivia .none)⟩
  | g :: gs =>
    -- what follows the first characters is passed over in its turn
    have hlater : ∀ own more, gs = own ++ more → Between (charsOf (g :: own)) →
        (skip .blank (g :: gs)).2 = (skip .blank more).2 →
        ∃ front, g :: gs = front ++ (skip .blank (g :: gs)).2 ∧
          Passed (charsOf front) (skip .blank (g :: gs)).2 := by
      intro own more hgs hbetween hskip
      have hless : more.length ≤ gs.length := by
        rw [hgs, List.length_append]
        exact Nat.le_add_left ..
      obtain ⟨front, hfront, hpassed⟩ := skip_passed more
      rw [hskip]
      refine ⟨g :: own ++ front, by rw [List.append_assoc, ← hfront, hgs]; rfl, ?_⟩
      rw [show charsOf (g :: own ++ front) = _ from List.map_append]
      exact hpassed.behind hbetween
    have hopen : (skip .blank (g :: gs)).2 = [] ∧ Unclosed (charsOf (g :: gs)) →
        ∃ front, g :: gs = front ++ (skip .blank (g :: gs)).2 ∧
          Passed (charsOf front) (skip .blank (g :: gs)).2 := by
      rintro ⟨hend, hunclosed⟩
      rw [hend]
      exact ⟨g :: gs, (List.append_nil _).symm, .inr ⟨rfl, hunclosed⟩⟩
    by_cases hblank : Text.isBlank g.char = true
    · refine hlater [] gs rfl (.trivia (.blank hblank .none)) ?_
      simp [skip, Gap.step, blankStep, hblank]
    by_cases hline : g.char = '/' ∧ nextChar gs = some '/'
    · obtain ⟨g', gs, rfl, hg'⟩ := nextChar_eq_some hline.2
      have hpassed := line_passed hline.1 hg' gs
      rw [← skip_line_mark hline.1 hg' gs] at hpassed
      rcases hpassed with ⟨own, more, rfl, htrivia, hskip⟩ | hpassed
      · exact hlater (g' :: own) more rfl (.trivia htrivia) hskip
      · exact hopen hpassed
    by_cases hblock : g.char = '/' ∧ nextChar gs = some '*'
    · obtain ⟨g', gs, rfl, hg'⟩ := nextChar_eq_some hblock.2
      have hpassed := block_passed hblock.1 hg' gs
      rw [← skip_block_mark hblock.1 hg' gs] at hpassed
      rcases hpassed with ⟨own, more, rfl, htrivia, hskip⟩ | hpassed
      · exact hlater (g' :: own) more rfl (.trivia htrivia) hskip
      · exact hopen hpassed
    by_cases hstarts : startsToken g.char = true
    · refine ⟨[], ?_, .inl (.trivia .none)⟩
      simp [skip, Gap.step, blankStep, hblank, hline, hblock, hstarts]
    · have hunknown := @Between.unknown [] _ _ .none (eq_false_of_ne_true hblank)
        (eq_false_of_ne_true hstarts) (.trivia .none)
      refine hlater [] gs rfl hunknown ?_
      simp [skip, Gap.step, blankStep, hblank, hline, hblock, hstarts]
termination_by gs.length

end StackPascal
