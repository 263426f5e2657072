import StackPascal.Proofs.Grammar.OnDemand
import StackPascal.Proofs.Grammar.Scripts

/-!
A parse from moment to moment.

A script is carried out on a scanner, and each step is noted together with how
things stand before it.

* `Script.run`, `Script.moments`: what a script does on a scanner;
* `Scanner.parse`, `Scanner.parses`: parses of a program, one after the other;
* `Script.run_onDemand`, `Scanner.outcomes_parses`: they are the parses of the
  source.
-/

namespace StackPascal

namespace Parser

/-- A part that has been entered and not been left; `tokens` were left when it was
entered. -/
structure Entry where
  part : Part
  tokens : Nat

inductive Step
  | looks
  | advances
  | enters (part : Part)
  | leaves (entry : Entry)
  | spends
  | stops

/-- A step that is about to be taken, and the parts around it, the innermost first. -/
structure Moment where
  step : Step
  scanner : Scanner
  around : List Entry

/-- The token that becomes the current one. -/
def Moment.next? (m : Moment) : Option Token :=
  match m.step with
  | .advances => some m.scanner.advance.current
  | _ => none

/-- The tokens that become current one after the other. -/
def taken (ms : List Moment) : List Token := ms.filterMap Moment.next?

@[simp] theorem taken_append (ms ns : List Moment) : taken (ms ++ ns) = taken ms ++ taken ns :=
  List.filterMap_append

namespace Script

variable {α β : Type}

def run {α : Type} : Script α → Scanner → EStateM.Result Report Scanner α
  | .ret a, s => .ok a s
  | .fail r, s => .error r s
  | .current, s => .ok s.current s
  | .followingKind, s => .ok s.followingKind s.look
  | .advance, s => .ok () s.advance
  | .remaining, s => .ok s.remaining s
  | .inside _ body, s => body.run s
  | .spent rest, s => rest.run s
  | .seq first next, s =>
    match first.run s with
    | .ok a t => (next a).run t
    | .error r t => .error r t

/-- What comes of a run that has succeeded. -/
def ifOk (r : EStateM.Result Report Scanner α) (next : α → Scanner → List Moment) : List Moment :=
  match r with
  | .ok a s => next a s
  | .error _ _ => []

/-- The moments of a run inside other parts. A failure does not leave the parts it is in. -/
def moments {α : Type} : Script α → List Entry → Scanner → List Moment
  | .ret _, _, _ => []
  | .fail _, _, _ => []
  | .current, _, _ => []
  | .followingKind, around, s => [⟨.looks, s, around⟩]
  | .advance, around, s => [⟨.advances, s, around⟩]
  | .remaining, _, _ => []
  | .inside part body, around, s =>
    ⟨.enters part, s, around⟩ :: body.moments (⟨part, s.remaining⟩ :: around) s ++
      ifOk (body.run s) fun _ t => [⟨.leaves ⟨part, s.remaining⟩, t, around⟩]
  | .spent rest, around, s => ⟨.spends, s, around⟩ :: rest.moments around s
  | .seq first next, around, s =>
    first.moments around s ++ ifOk (first.run s) fun a t => (next a).moments around t

theorem run_consume (kind : TokenKind) (s : Scanner) :
    (script (consume kind)).run s =
      if s.current.kind = kind then .ok s.current s.advance
      else .error ⟨s.current.pos, .syntactic (.unexpected (.token kind) s.current)⟩ s := by
  show run (if s.current.kind = kind then _ else _) s = _
  split <;> rfl

theorem run_accept (kind : TokenKind) (s : Scanner) :
    (script (accept kind)).run s =
      if s.current.kind = kind then .ok true s.advance else .ok false s := by
  show run (if s.current.kind = kind then _ else _) s = _
  split <;> rfl

/-- A script takes the steps of its parser. -/
theorem run_onDemand (sc : Script α) (s : Scanner) : OnDemand sc.toParser s (sc.run s) := by
  induction sc generalizing s with
  | ret a => exact .ret a s
  | fail r => exact .fail r s
  | current => exact .current s
  | followingKind => exact .followingKind s
  | advance => exact .advance s
  | remaining => exact .remaining s
  | inside part body ih => exact ih s
  | spent rest ih => exact ih s
  | seq first next ihfirst ihnext =>
    have hfirst := ihfirst s
    rw [run]
    cases h : first.run s with
    | ok a t =>
      rw [h] at hfirst
      exact .seq hfirst (ihnext a t)
    | error r t =>
      rw [h] at hfirst
      exact .stop hfirst

theorem run_agrees (m : Parser α) [hm : Scripted m] {s : Scanner} {src : Source} {i n : Nat}
    (hs : s.At (src.rest i) n) :
    Scanner.Agrees src ((script m).run s) (m.run (src.rest i).text) := by
  have hrun := (script m).run_onDemand s
  rw [hm.toParser_script] at hrun
  exact hrun.agrees hs

end Script

end Parser

/-! ## Parses in a row -/

/-- A parse with all its moments. -/
structure Parser.Parse where
  moments : List Moment
  outcome : Except Report Program
  last : Scanner

namespace Scanner

open StackPascal.Parser

def outcome {α : Type} : EStateM.Result Report Scanner α → Except Report α
  | .ok a _ => .ok a
  | .error r _ => .error r

/-- Parses a program from the current token on. At the last moment the parse stops. -/
def parse (s : Scanner) : Parse :=
  let r := (script program).run s
  ⟨(script program).moments [] s ++ [⟨.stops, last r, []⟩], outcome r, last r⟩

/-- Parses in a row, each from where the one before it stopped. -/
def parses (s : Scanner) : Nat → List Parse
  | 0 => []
  | n + 1 => s.parse :: s.parse.last.parses n

theorem parse_at {src : Source} {s : Scanner} {i n : Nat} (hs : s.At (src.rest i) n) :
    s.parse.outcome = (src.rest i).text.parse.1 ∧
      ∃ j m, s.parse.last.At (src.rest j) m ∧ (src.rest i).text.parse.2 = (src.rest j).text := by
  have hrun := Script.run_agrees program hs
  show outcome ((script program).run s) = _ ∧ ∃ j m, (last ((script program).run s)).At _ m ∧ _
  unfold Tokens.parse
  generalize program.run (src.rest i).text = run at hrun ⊢
  generalize (script program).run s = r at hrun ⊢
  cases hrun with
  | ok hat => exact ⟨rfl, _, _, hat, rfl⟩
  | error hat => exact ⟨rfl, _, _, hat, rfl⟩

theorem outcomes_parses {src : Source} {s : Scanner} {session : Session} {i n : Nat}
    (hs : s.At (src.rest i) n) (htokens : session.tokens = (src.rest i).text) (times : Nat) :
    (s.parses times).map Parse.outcome = (session.parseTimes times).map Parsing.result := by
  induction times generalizing s session i n with
  | zero => rfl
  | succ times ih =>
    obtain ⟨houtcome, j, m, hat, hrest⟩ := parse_at hs
    have hsession : session.parse.2.tokens = (src.rest j).text := by
      rw [← hrest, ← htokens]
      rfl
    have hresult : session.parse.1.result = (src.rest i).text.parse.1 := by
      rw [← htokens]
      rfl
    show s.parse.outcome :: (s.parse.last.parses times).map _ =
      session.parse.1.result :: (session.parse.2.parseTimes times).map _
    rw [houtcome, hresult, ih hat hsession]

end Scanner

end StackPascal
