import StackPascal.Analysis

/-!
Captures along calls.

Whoever calls a callable has to supply the variables that it captures: a caller
that does not own such a variable captures it too. `supplyAll` goes through the
calls again and again until nothing changes.
-/

namespace StackPascal

/-- Definitions and events while captures are extended; `changed` says whether
the present round has added any. -/
structure Supply where
  defs : Defs
  events : List Event
  changed : Bool

namespace Supply

/-- The caller captures a variable of the callee unless it owns it. -/
def one (caller callee : DefId) (s : Supply) (captured : DefId) : Supply :=
  if s.defs.owner captured ≠ some caller && s.defs.lacksCapture caller captured then
    { defs := s.defs.addCapture caller captured
      events := .capturedForCall (s.defs.nameOf caller) (s.defs.nameOf captured)
          (s.defs.nameOf callee) :: s.events
      changed := true }
  else s

def call (s : Supply) (c : DefId × DefId) : Supply :=
  (s.defs.capturesOf c.2).foldl (one c.1 c.2) s

/-- All calls once, in order. -/
def round (calls : List (DefId × DefId)) (s : Supply) : Supply :=
  calls.foldl call { s with changed := false }

/-- Rounds until one changes nothing, `n` at most. -/
def rounds (calls : List (DefId × DefId)) : Nat → Supply → Supply
  | 0, s => s
  | n + 1, s =>
    let t := round calls s
    if t.changed then rounds calls n t else t

/-- Every round but the last adds a pair of definitions, so the number of pairs
bounds the rounds. -/
def bound (ds : Defs) : Nat := ds.size * ds.size + 1

end Supply

/-- The captures closed under the calls. -/
def supplyAll (calls : List (DefId × DefId)) (ds : Defs) (events : List Event) : Supply :=
  Supply.rounds calls (Supply.bound ds) ⟨ds, events, false⟩

/-- A typed program with its definitions, the calls that were recorded, and
what was told to the log, in order. -/
structure Analysis where
  program : TypedProgram
  defs : Defs
  calls : List (DefId × DefId)
  events : List Event

namespace Analysis

def reports (a : Analysis) : List Report := reportsIn a.events

end Analysis

/-- Resolves names, checks types and closes the captures under the calls. -/
def Program.analyze (p : Program) : Analysis :=
  let (body, s) := Analyze.annotateProgram p
  let calls := s.calls.reverse
  let supplied := supplyAll calls s.defs s.events
  ⟨⟨p.name.text, Analyze.mainId, body⟩, supplied.defs, calls, supplied.events.reverse⟩

end StackPascal
