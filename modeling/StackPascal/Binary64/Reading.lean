import StackPascal.Binary64
import StackPascal.Numeral

/-!
Reading real numbers: an optional sign, then `inf`, `infinity` or `nan` in any
case, or decimal digits with at most one point and an optional exponent. The
result is the nearest number, ties to the even one.
-/

namespace StackPascal.Binary64

open StackPascal.Numeral

/-- A number written as `digits * 10 ^ exponent`; `places` bounds how many
decimal places `digits` has. -/
structure Decimal where
  digits : Nat
  places : Nat
  exponent : Int

/-- Numbers at least this many powers of ten away from one are infinite or
zero, whatever their digits. -/
def farExponent : Int := 400

def Decimal.magnitude (d : Decimal) : Nat :=
  if d.digits = 0 then 0
  else if farExponent < d.exponent then infinity
  else if d.exponent + d.places < -farExponent then 0
  else nearest (d.digits * Nat.pow 10 d.exponent.toNat) (Nat.pow 10 (-d.exponent).toNat)

/-- The exponent after the mantissa: nothing, or `e` with a signed number. -/
def readExponent : List Char → Option Int
  | [] => some 0
  | c :: cs =>
    if c = 'e' ∨ c = 'E' then
      let (negative, ds) := splitSign cs
      if ds.isEmpty || !ds.all Char.isDigit then none
      else some (if negative then -(digitsValue ds) else digitsValue ds)
    else none

/-- Digits, at most one point among them, and an exponent. -/
def readDecimal (cs : List Char) : Option Decimal :=
  let whole := cs.takeWhile Char.isDigit
  let afterWhole := cs.dropWhile Char.isDigit
  let (fraction, rest) :=
    match afterWhole with
    | '.' :: ds => (ds.takeWhile Char.isDigit, ds.dropWhile Char.isDigit)
    | ds => ([], ds)
  let digits := whole ++ fraction
  if digits.isEmpty then none
  else (readExponent rest).map fun e =>
    ⟨digitsValue digits, digits.length, e - fraction.length⟩

def readMagnitude (cs : List Char) : Option Nat :=
  let word := cs.map Char.toLower
  if word = "inf".toList ∨ word = "infinity".toList then some infinity
  else if word = "nan".toList then some notANumber
  else (readDecimal cs).map Decimal.magnitude

def ofString? (text : String) : Option Binary64 :=
  let (negative, cs) := splitSign text.toList
  (readMagnitude cs).map (ofMagnitude negative)

end StackPascal.Binary64
