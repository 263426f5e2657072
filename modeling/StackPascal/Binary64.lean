/-!
Real numbers as binary floating point words of 64 bits.

A word holds a sign, eleven bits of exponent and 52 bits of fraction. Its
finite magnitudes are the numbers `significand * 2 ^ (scale - 1074)`, in the
order of the words, so rounding a quotient to the nearest of them is rounding
it to a whole number of units. All arithmetic is on natural numbers, and powers
are written `Nat.pow`, which reads the same under every import.
-/

namespace StackPascal

structure Binary64 where
  bits : UInt64
  deriving DecidableEq

namespace Binary64

def zero : Binary64 := ⟨0⟩

/-- The magnitude of infinity; larger magnitudes are not numbers. -/
def infinity : Nat := 2047 * Nat.pow 2 52

def notANumber : Nat := infinity + Nat.pow 2 51

def ofMagnitude (negative : Bool) (magnitude : Nat) : Binary64 :=
  ⟨UInt64.ofNat (if negative then Nat.pow 2 63 + magnitude else magnitude)⟩

def negative (x : Binary64) : Bool := Nat.pow 2 63 ≤ x.bits.toNat

def magnitude (x : Binary64) : Nat := x.bits.toNat % Nat.pow 2 63

/-- Significand and scale of a finite magnitude. -/
def decode (magnitude : Nat) : Nat × Nat :=
  if magnitude < Nat.pow 2 52 then (magnitude, 0)
  else (Nat.pow 2 52 + magnitude % Nat.pow 2 52, magnitude / Nat.pow 2 52 - 1)

/-- The quotient rounded to a whole number, an exact half to the even one. -/
def roundHalfEven (num den : Nat) : Nat :=
  let q := num / den
  let r := num % den
  if 2 * r < den then q else if den < 2 * r then q + 1 else q + q % 2

/-- The least scale at which the quotient needs at most 53 bits. -/
def scaleOf (num den : Nat) : Nat :=
  let s := num.log2 + 1021 - den.log2
  if den * Nat.pow 2 (s + 53) ≤ num * Nat.pow 2 1074 then s + 1 else s

/-- The magnitude nearest to `num / den`. -/
def nearest (num den : Nat) : Nat :=
  let s := scaleOf num den
  min (s * Nat.pow 2 52 + roundHalfEven (num * Nat.pow 2 1074) (den * Nat.pow 2 s)) infinity

end Binary64

end StackPascal
