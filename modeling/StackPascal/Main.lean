import StackPascal.CommandLine

/-!
The program: reads the file or standard input, and writes the response.
-/

namespace StackPascal

def readSource (name : String) : IO (Except FileProblem String) := do
  try
    return decodeFile (← IO.FS.readBinFile name)
  catch
    | .noFileOrDirectory _ _ _ => return .error .missing
    | e => return .error (.unreadable (toString e))

def write (r : Response) : IO UInt32 := do
  IO.print r.out
  IO.eprint r.err
  return r.exit.toUInt32

/-- A program on standard input is answered as soon as it is complete. -/
partial def prompt (o : Options) (input : IO.FS.Stream) (collected : List Char) : IO UInt32 := do
  let line ← input.getLine
  if line.isEmpty then return 0
  let (text, response) := promptStep o collected line.toList
  if let some r := response then
    let _ ← write r
  prompt o input text

def run (args : List String) : IO UInt32 := do
  let o := Options.ofArgs args
  match o.file with
  | some name => write (respondToFile o name (← readSource name))
  | none => prompt o (← IO.getStdin) []

end StackPascal

def main (args : List String) : IO UInt32 := StackPascal.run args
