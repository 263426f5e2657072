import StackPascal.Builder
import StackPascal.Definition
import StackPascal.Diagnostic
import StackPascal.Lexeme

/-!
What the phases tell the log.

An event belongs to a phase and has a level and a text.
-/

namespace StackPascal

inductive Event
  | report (r : Report)
  | token (t : Token)
  | parsed (name : String) (statements : Nat)
  | bound (name : String) (id : DefId) (scope : ScopeId)
  | declared (kind : CallableKind) (name : String) (id : DefId)
  | captured (callable name : String) (id : DefId)
  | capturedForCall (caller name callee : String)
  | rejected (count : Nat)
  | captureParam (callable name : String) (param used : DefId)
  | emittingProgram (name : String) (routine : RoutineId)
  | emittingRoutine (name : String) (routine : RoutineId)
  | emitted (instr : Instr)
  deriving DecidableEq

/-- The parts of the compiler that keep a log. -/
inductive Phase
  | diagnosis | lexing | parsing | analysis | lifting | generation | building | control
  deriving DecidableEq

inductive Level
  | trace | debug
  deriving DecidableEq

def Level.render : Level → String
  | trace => "TRACE"
  | debug => "DEBUG"

def CallableKind.render : CallableKind → String
  | procedure => "Procedure"
  | function => "Function"

namespace Event

def phase : Event → Phase
  | report _ => .diagnosis
  | token _ => .lexing
  | parsed _ _ => .parsing
  | bound _ _ _ | declared _ _ _ | captured _ _ _ | capturedForCall _ _ _ => .analysis
  | rejected _ => .control
  | captureParam _ _ _ _ => .lifting
  | emittingProgram _ _ | emittingRoutine _ _ => .generation
  | emitted _ => .building

def level : Event → Level
  | report _ | token _ | bound _ _ _ | emitted _ => .trace
  | _ => .debug

def message : Event → String
  | report r => r.diagnostic.render
  | token t => t.pos.render ++ " " ++ t.kind.logName ++ " " ++ inQuotes t.text
  | parsed name n =>
    "parsed program " ++ inQuotes name ++ " with " ++ toString n ++ " top-level statements"
  | bound name id scope =>
    "bind " ++ inQuotes name ++ " -> " ++ id.render ++ " in scope " ++ scope.render
  | declared kind name id =>
    "declared " ++ kind.render ++ " " ++ inQuotes name ++ " as " ++ id.render
  | captured callable name id =>
    inQuotes callable ++ " captures " ++ inQuotes name ++ " (" ++ id.render ++ ")"
  | capturedForCall caller name callee =>
    inQuotes caller ++ " captures " ++ inQuotes name ++ " for its call to " ++ inQuotes callee
  | rejected n => "analysis reported " ++ toString n ++ " errors"
  | captureParam callable name param used =>
    inQuotes callable ++ " gets reference parameter " ++ inQuotes name ++ " (" ++ param.render
      ++ ") for " ++ used.render
  | emittingProgram name f => "emitting program " ++ inQuotes name ++ " as " ++ f.render
  | emittingRoutine name f => "emitting " ++ inQuotes name ++ " as " ++ f.render
  | emitted i => "emit " ++ i.render

def report? : Event → Option Report
  | report r => some r
  | _ => none

end Event

/-- The problems among the events, in order. -/
def reportsIn (es : List Event) : List Report := es.filterMap Event.report?

/-- What reading a lexeme tells the log; the end token is not mentioned. -/
def Lexeme.events (l : Lexeme) : List Event :=
  l.reports.map .report ++ if l.token.kind = .eof then [] else [.token l.token]

end StackPascal
