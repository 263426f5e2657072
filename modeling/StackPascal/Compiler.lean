import StackPascal.Generator
import StackPascal.Parser

/-!
The whole compiler: from a source text to a module or to what is wrong with it.

Closure conversion and code generation run only if the phases before them
reported nothing. `Compilation` keeps what every phase told the log.
-/

namespace StackPascal

inductive CompileError
  | diagnostics (ds : List Diagnostic)
  | internal (e : InternalError)
  deriving DecidableEq

namespace CompileError

def diagnosticsOf : CompileError → List Diagnostic
  | diagnostics ds => ds
  | internal _ => []

def message : CompileError → String
  | diagnostics ds => renderDiagnostics ds
  | internal e => "internal compiler error: " ++ e.message

end CompileError

structure Compilation where
  result : Except CompileError CodeModule
  events : List Event

/-- What a parse tells the log: the lexemes it read, and how it ended. -/
def Parsing.events (p : Parsing) : List Event :=
  p.read.flatMap Lexeme.events ++
    match p.result with
    | .ok program => [.parsed program.name.text program.body.length]
    | .error r => [.report r]

/-- The reports that count against a parsed program: those of its text and
those of its analysis. -/
def allReports (p : Parsing) (a : Analysis) : List Report := p.reports ++ a.reports

def Compilation.rejected (rs : List Report) (events : List Event) : Compilation :=
  ⟨.error (.diagnostics (rs.map Report.diagnostic)), events⟩

/-- Lifting and generation of a program without problems. -/
def Compilation.ofAnalysis (a : Analysis) (events : List Event) : Compilation :=
  let l := a.lift
  let g := generate l.defs l.program
  ⟨match g.error with
    | none => .ok g.result
    | some e => .error (.internal e),
   events ++ l.events ++ g.events⟩

def Source.compile (src : Source) : Compilation :=
  let p := src.parse
  match p.result with
  | .error _ => .rejected p.reports p.events
  | .ok program =>
    let a := program.analyze
    let rs := allReports p a
    if rs.isEmpty then .ofAnalysis a (p.events ++ a.events)
    else .rejected rs (p.events ++ a.events ++ [.rejected rs.length])

/-- Compiles a text, with the log. -/
def compilation (text : String) : Compilation := (Source.ofString text).compile

def compile (text : String) : Except CompileError CodeModule := (compilation text).result

end StackPascal
