/-!
Whole numbers in decimal: reading with a sign, and the range of the machine's
integers.
-/

namespace StackPascal.Numeral

def digitValue (c : Char) : Nat := c.toNat - '0'.toNat

/-- The number that the digits write, most significant first. -/
def digitsValue (ds : List Char) : Nat := ds.foldl (fun n d => 10 * n + digitValue d) 0

/-- Splits off a leading sign; `true` stands for a minus. -/
def splitSign : List Char → Bool × List Char
  | '-' :: cs => (true, cs)
  | '+' :: cs => (false, cs)
  | cs => (false, cs)

def maxInt : Int := 2147483647

def minInt : Int := -2147483648

/-- The integer of 32 bits that a text writes: an optional sign and digits,
with a value in range. -/
def int? (text : String) : Option Int :=
  let (negative, ds) := splitSign text.toList
  if ds.isEmpty || !ds.all Char.isDigit then none
  else
    let n : Int := if negative then -(digitsValue ds) else digitsValue ds
    if minInt ≤ n ∧ n ≤ maxInt then some n else none

end StackPascal.Numeral
