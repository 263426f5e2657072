import StackPascal.Compiler

/-!
The command line as a function: from arguments, files and standard input to
what is written and the exit code.

With a file argument the file is compiled. Without one, standard input is
collected line by line, and compiled each time a line ends in `end.`.
-/

namespace StackPascal

structure Options where
  listing : Bool
  file : Option String

/-- Text for standard output and standard error, and the exit code. -/
structure Response where
  out : String
  err : String
  exit : UInt8

inductive FileProblem
  | missing
  | notText
  | unreadable (reason : String)

def FileProblem.message : FileProblem → String
  | missing => "No such file or directory (os error 2)"
  | notText => "stream did not contain valid UTF-8"
  | unreadable reason => reason

namespace Options

/-- `-l` or `--listing` asks for the listing; the first other argument is the
file, and so is whatever follows `--`. -/
def ofArgs : List String → Options
  | [] => ⟨false, none⟩
  | arg :: args =>
    if arg = "--" then ⟨false, args.head?⟩
    else if arg = "-l" ∨ arg = "--listing" then { ofArgs args with listing := true }
    else { ofArgs args with file := some arg }

end Options

/-- The text of a file with the given bytes. -/
def decodeFile (bytes : ByteArray) : Except FileProblem String :=
  match String.fromUTF8? bytes with
  | some text => .ok text
  | none => .error .notText

/-! ## One compilation -/

/-- A diagnostic with the source line under it, if there is one. -/
def explain (text : String) (d : Diagnostic) : String :=
  d.render ++ "\n" ++
    match d.snippet? text with
    | some s => s.render ++ "\n"
    | none => ""

def summary (m : CodeModule) : String :=
  "compiled " ++ toString m.routines.length ++ " functions, " ++ toString m.statics.length
    ++ " statics\n"

/-- Compiles a text and writes the module or what is wrong. -/
def respond (o : Options) (text : String) : Response :=
  match compile text with
  | .ok m => ⟨if o.listing then m.listing else summary m, "", 0⟩
  | .error (.internal e) => ⟨"", (CompileError.internal e).message ++ "\n", 1⟩
  | .error (.diagnostics ds) => ⟨"", String.join (ds.map (explain text)), 1⟩

def respondToFile (o : Options) (name : String) (content : Except FileProblem String) :
    Response :=
  match content with
  | .ok text => respond o text
  | .error p => ⟨"", "cannot read " ++ inQuotes name ++ ": " ++ p.message ++ "\n", 1⟩

/-! ## Prompt -/

/-- The lines of a text, each with the newline that ends it. -/
def linesWithEnds : List Char → List (List Char)
  | [] => []
  | c :: cs =>
    if c = '\n' then [c] :: linesWithEnds cs
    else
      match linesWithEnds cs with
      | [] => [[c]]
      | l :: ls => (c :: l) :: ls

/-- Whether a line, blanks at its end aside, ends the program. -/
def endsProgram (line : List Char) : Bool :=
  ['.', 'd', 'n', 'e'].isPrefixOf (line.reverse.dropWhile Text.isBlank)

/-- One more line at the prompt: the text collected after it, and the response
if the line ended a program. The line is followed by a further newline. -/
def promptStep (o : Options) (collected line : List Char) : List Char × Option Response :=
  let text := collected ++ line ++ ['\n']
  if endsProgram line then ([], some (respond o (String.ofList text))) else (text, none)

/-- The responses to all programs among the lines. What follows the last one
is not compiled. -/
def promptResponses (o : Options) (collected : List Char) : List (List Char) → List Response
  | [] => []
  | l :: ls =>
    let (text, r) := promptStep o collected l
    r.toList ++ promptResponses o text ls

/-- The response to a whole standard input; the prompt never fails. -/
def respondToPrompt (o : Options) (input : String) : Response :=
  let rs := promptResponses o [] (linesWithEnds input.toList)
  ⟨String.join (rs.map Response.out), String.join (rs.map Response.err), 0⟩

end StackPascal
