import StackPascal.Problem

/-!
Diagnostics: reports in the words the user reads, and the line of the source
text they point at.

* `Diagnostic.render`: position, category and message in one line;
* `Diagnostic.snippet?`: the line, and a caret under the column.
-/

namespace StackPascal

inductive Category
  | lexical | syntactic | semantic
  deriving DecidableEq

def Category.render : Category → String
  | lexical => "Lexical"
  | syntactic => "Syntax"
  | semantic => "Semantic"

structure Diagnostic where
  pos : Position
  category : Category
  message : String
  deriving DecidableEq

def Problem.category : Problem → Category
  | lexical _ => .lexical
  | syntactic _ => .syntactic
  | semantic _ => .semantic

def Problem.message : Problem → String
  | lexical p => p.message
  | syntactic p => p.message
  | semantic p => p.message

def Report.diagnostic (r : Report) : Diagnostic := ⟨r.pos, r.problem.category, r.problem.message⟩

def Diagnostic.render (d : Diagnostic) : String :=
  d.pos.render ++ " " ++ d.category.render ++ ": " ++ d.message

/-- All diagnostics, each closed by a newline. -/
def renderDiagnostics (ds : List Diagnostic) : String :=
  String.join (ds.map fun d => d.render ++ "\n")

/-! ## The line of a diagnostic -/

/-- The pieces between newlines; an empty last piece does not count. -/
def textLines : List Char → List (List Char)
  | [] => []
  | c :: cs =>
    if c = '\n' then [] :: textLines cs
    else
      match textLines cs with
      | [] => [[c]]
      | l :: ls => (c :: l) :: ls

/-- A line without the carriage returns at its end. -/
def trimReturns (l : List Char) : List Char := (l.reverse.dropWhile (· = '\r')).reverse

/-- A source line, and what stands before the caret in the row below it. -/
structure Snippet where
  line : List Char
  margin : List Char
  deriving DecidableEq

def Snippet.render (s : Snippet) : String :=
  String.ofList (s.line ++ '\n' :: s.margin ++ ['^'])

/-- Tabs stay tabs, so that the caret stands under its character. -/
def marginOf (line : List Char) (column : Nat) : List Char :=
  (line.take (column - 1)).map fun c => if c = '\t' then '\t' else ' '

/-- There is no line 0, and none past the end of the text. -/
def Diagnostic.snippet? (d : Diagnostic) (text : String) : Option Snippet :=
  match d.pos.line with
  | 0 => none
  | n + 1 =>
    (textLines text.toList)[n]?.map fun l =>
      ⟨trimReturns l, marginOf (trimReturns l) d.pos.column⟩

end StackPascal
