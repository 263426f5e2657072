import Mathlib.Data.Stream.Init
import StackPascal.Proofs.Grammar.Moments

/-!
Looking ahead changes nothing.

Whenever the parser stands still, the current token, the tokens in the buffer and
the tokens that are still to be read follow one another as they do in the source.
Looking ahead moves a token from the last of the three to the second; only an
advance takes one from the first.

* `Source.stream`: the tokens of a source with the end token for ever behind them;
* `Scanner.upcoming`: the three parts in a row;
* `RunsAlong`: from moment to moment the upcoming tokens are the ones that have not
  been taken;
* `Script.runsAlong`, `Scanner.runsAlong_parses`: so it is in every run.
-/

namespace StackPascal

/-! ## The tokens to come -/

namespace Source

/-- The tokens that are read from a source one by one. -/
def stream (src : Source) : Stream' Token := fun n => (src.rest n).next.1.token

theorem stream_next (src : Source) :
    src.stream = Stream'.cons src.next.1.token src.next.2.stream := by
  funext n
  cases n <;> rfl

theorem stream_of_eof {src : Source} (h : src.next.1.token.kind = .eof) :
    src.next.2.stream = Stream'.const (.plain .eof src.stop) := by
  have hrest : ∀ n, src.next.2.rest n = ⟨[], src.stop⟩ := by
    intro n
    induction n with
    | zero => exact (next_of_eof h).2
    | succ n ih =>
      rw [← next_rest, ih]
      rfl
  funext n
  show (src.next.2.rest n).next.1.token = _
  rw [hrest]
  rfl

/-- Behind its tokens, the last of which is the end token, a source has nothing but
end tokens. -/
theorem stream_eq (src : Source) :
    src.stream = src.tokens ++ₛ Stream'.const (.plain .eof src.stop) := by
  induction h : src.tokens.length generalizing src with
  | zero => simp [src.tokens_eq.1] at h
  | succ n ih =>
    rw [stream_next]
    by_cases heof : src.next.1.token.kind = .eof
    · rw [stream_of_eof heof, tokens_of_eof heof]
      rfl
    · rw [tokens_of_token heof] at h ⊢
      rw [ih src.next.2 (Nat.succ.inj h), stop_next]
      rfl

end Source

namespace Scanner

/-- The current token, those in the buffer and those that are still to be read. -/
def upcoming (s : Scanner) : Stream' Token := (s.current :: s.ahead) ++ₛ s.unread.stream

theorem upcoming_ofSource (src : Source) : (ofSource src).upcoming = src.stream :=
  src.stream_next.symm

theorem upcoming_look (s : Scanner) : s.look.upcoming = s.upcoming := by
  unfold look
  split
  · next h =>
    show s.current :: [s.unread.next.1.token] ++ₛ s.unread.next.2.stream = _
    rw [upcoming, h, s.unread.stream_next]
    rfl
  · rfl

theorem upcoming_advance (s : Scanner) : s.advance.upcoming = s.upcoming.tail := by
  unfold advance
  split
  · next h =>
    show s.unread.next.1.token :: s.ahead ++ₛ s.unread.next.2.stream = _
    rw [upcoming, h, s.unread.stream_next]
    rfl
  · next h =>
    rw [upcoming, upcoming, h]
    rfl

end Scanner

/-! ## From moment to moment -/

namespace Parser

/-- The tokens are upcoming at the first moment, less those taken at each later one,
and in the end the last ones are left. -/
def RunsAlong (tokens : Stream' Token) : List Moment → Stream' Token → Prop
  | [], rest => rest = tokens
  | m :: ms, rest =>
    m.scanner.upcoming = tokens ∧ RunsAlong (tokens.drop (taken [m]).length) ms rest

namespace RunsAlong

variable {tokens mid rest : Stream' Token} {ms ns : List Moment}

theorem append (hm : RunsAlong tokens ms mid) (hn : RunsAlong mid ns rest) :
    RunsAlong tokens (ms ++ ns) rest := by
  induction ms generalizing tokens with
  | nil =>
    obtain rfl := hm
    exact hn
  | cons m ms ih => exact ⟨hm.1, ih hm.2⟩

theorem split (h : RunsAlong tokens (ms ++ ns) rest) :
    RunsAlong (tokens.drop (taken ms).length) ns rest := by
  induction ms generalizing tokens with
  | nil => exact h
  | cons m ms ih =>
    have hms := ih h.2
    rwa [Stream'.drop_drop, ← List.length_append, ← taken_append] at hms

/-- What is upcoming at a moment has not been taken before. -/
theorem upcoming {m : Moment} (h : RunsAlong tokens (ms ++ m :: ns) rest) :
    m.scanner.upcoming = tokens.drop (taken ms).length := h.split.1

/-- The tokens that become current are the ones after the first, in order. -/
theorem taken_eq (h : RunsAlong tokens ms rest) :
    taken ms = tokens.tail.take (taken ms).length := by
  induction ms generalizing tokens with
  | nil => rfl
  | cons m ms ih =>
    obtain ⟨hm, hms⟩ := h
    have hlater := ih hms
    rw [← List.singleton_append, taken_append]
    cases hstep : m.step with
    | advances =>
      have hone : taken [m] = [m.scanner.advance.current] := by
        simp [taken, Moment.next?, hstep]
      have hhead : m.scanner.advance.current = tokens.tail.head := by
        rw [← hm, ← m.scanner.upcoming_advance]
        rfl
      rw [hone] at hlater ⊢
      rw [hhead]
      exact congrArg (tokens.tail.head :: ·) hlater
    | looks | enters | leaves | spends | stops =>
      have hnone : taken [m] = [] := by simp [taken, Moment.next?, hstep]
      rwa [hnone] at hlater ⊢

end RunsAlong

theorem Script.runsAlong {α : Type} (sc : Script α) (around : List Entry) (s : Scanner) :
    RunsAlong s.upcoming (sc.moments around s) (Scanner.last (sc.run s)).upcoming := by
  induction sc generalizing around s with
  | ret | fail | current | remaining => rfl
  | followingKind => exact ⟨rfl, s.upcoming_look⟩
  | advance => exact ⟨rfl, s.upcoming_advance⟩
  | inside part body ih =>
    refine ⟨rfl, (ih (⟨part, s.remaining⟩ :: around) s).append ?_⟩
    show RunsAlong (Scanner.last (body.run s)).upcoming _ (Scanner.last (body.run s)).upcoming
    cases body.run s with
    | ok a t => exact ⟨rfl, rfl⟩
    | error r t => rfl
  | spent rest ih => exact ⟨rfl, ih around s⟩
  | seq first next ihfirst ihnext =>
    rw [moments, run]
    refine (ihfirst around s).append ?_
    cases first.run s with
    | ok a t => exact ihnext a around t
    | error r t => rfl

end Parser

/-! ## Parses in a row -/

namespace Scanner

open StackPascal.Parser

theorem runsAlong_parse (s : Scanner) :
    RunsAlong s.upcoming s.parse.moments s.parse.last.upcoming :=
  ((script program).runsAlong [] s).append ⟨rfl, rfl⟩

theorem runsAlong_parses (s : Scanner) (times : Nat) :
    ∃ rest, RunsAlong s.upcoming ((s.parses times).flatMap Parse.moments) rest := by
  induction times generalizing s with
  | zero => exact ⟨s.upcoming, rfl⟩
  | succ times ih =>
    obtain ⟨rest, hrest⟩ := ih s.parse.last
    exact ⟨rest, s.runsAlong_parse.append hrest⟩

end Scanner

open StackPascal.Parser in
/-- However often a source is parsed in a row, its tokens become current in their
order, none left out and none twice, and at every moment the upcoming tokens are
those of the source that have not been current before. The end token ends the
source again and again. A token of another kind than the one that is asked for
leaves everything as it is. -/
theorem lookahead_transparent (src : Source) (times : Nat) :
    let parses := (Scanner.ofSource src).parses times
    let moments := parses.flatMap Parse.moments
    parses.map Parse.outcome = ((Session.ofSource src).2.parseTimes times).map Parsing.result ∧
    src.stream = src.tokens ++ₛ Stream'.const (.plain .eof src.stop) ∧
    (Scanner.ofSource src).current :: taken moments = src.stream.take ((taken moments).length + 1) ∧
    (∀ before m after, moments = before ++ m :: after →
      m.scanner.upcoming = src.stream.drop (taken before).length) ∧
    ∀ (s : Scanner) (kind : TokenKind), s.current.kind ≠ kind →
      (script (consume kind)).run s =
        .error ⟨s.current.pos, .syntactic (.unexpected (.token kind) s.current)⟩ s ∧
      (script (accept kind)).run s = .ok false s := by
  obtain ⟨rest, hrest⟩ := (Scanner.ofSource src).runsAlong_parses times
  rw [Scanner.upcoming_ofSource] at hrest
  refine ⟨Scanner.outcomes_parses (i := 0) (Scanner.at_ofSource src) rfl times, src.stream_eq,
    congrArg (src.stream.head :: ·) hrest.taken_eq,
    fun before m after h => (h ▸ hrest).upcoming, fun s kind hkind => ?_⟩
  rw [Script.run_consume, Script.run_accept, if_neg hkind, if_neg hkind]
  exact ⟨rfl, rfl⟩

end StackPascal
