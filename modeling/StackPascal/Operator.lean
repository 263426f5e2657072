/-!
The operators of expressions and the sign in front of a term.
-/

namespace StackPascal

inductive BinOp
  | add | sub | mul | div | rem
  | eq | ne | lt | le | gt | ge
  | and | or
  deriving DecidableEq

namespace BinOp

def isComparison : BinOp → Bool
  | eq | ne | lt | le | gt | ge => true
  | _ => false

def render : BinOp → String
  | add => "+" | sub => "-" | mul => "*" | div => "/" | rem => "%"
  | eq => "=" | ne => "<>" | lt => "<" | le => "<=" | gt => ">" | ge => ">="
  | and => "and" | or => "or"

/-- The name of the operation in a listing. -/
def mnemonic : BinOp → String
  | add => "add" | sub => "sub" | mul => "mul" | div => "div" | rem => "rem"
  | eq => "eq" | ne => "ne" | lt => "lt" | le => "le" | gt => "gt" | ge => "ge"
  | and => "and" | or => "or"

end BinOp

inductive Sign
  | plus | minus
  deriving DecidableEq

namespace Sign

def toggle : Sign → Sign
  | plus => minus
  | minus => plus

theorem toggle_toggle (s : Sign) : s.toggle.toggle = s := by cases s <;> rfl

end Sign

end StackPascal
