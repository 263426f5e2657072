import StackPascal.Text.Shown

/-!
Quoted text: in double quotes, with a backslash before a quote or a backslash,
short escapes for newline, tab, return and NUL, and the code point in hex for
every other character that is not shown as it is.
-/

namespace StackPascal.Text

def escape (c : Char) : List Char :=
  match c with
  | '\x00' => ['\\', '0']
  | '\t' => ['\\', 't']
  | '\r' => ['\\', 'r']
  | '\n' => ['\\', 'n']
  | '"' => ['\\', '"']
  | '\\' => ['\\', '\\']
  | c =>
    if isShown c then [c]
    else '\\' :: 'u' :: '\x7b' :: Nat.toDigits 16 c.toNat ++ ['\x7d']

def quoted (text : String) : String :=
  String.ofList ('"' :: text.toList.flatMap escape ++ ['"'])

end StackPascal.Text
