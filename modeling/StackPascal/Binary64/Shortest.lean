import StackPascal.Binary64

/-!
Writing real numbers with the fewest digits that read back.

A finite magnitude is the middle of an interval of numbers that round to it.
`shortest` tests decimal grids from coarse to fine; the first grid with a point
in the interval gives the digits, of two points the nearer one, and the upper
one if both are equally near. `Layout` says how the digits are set out.
-/

namespace StackPascal.Binary64

/-- The numbers that round to a magnitude, all over the denominator `unit`;
the ends belong to it exactly if `closed`. -/
structure Interval where
  low : Nat
  value : Nat
  high : Nat
  closed : Bool

def unit : Nat := Nat.pow 2 1076

/-- Below a power of two the neighbours are twice as close. -/
def Interval.around (magnitude : Nat) : Interval :=
  let (m, s) := decode magnitude
  let gap := if m = Nat.pow 2 52 ∧ 0 < s then 1 else 2
  ⟨(4 * m - gap) * Nat.pow 2 s, 4 * m * Nat.pow 2 s, (4 * m + 2) * Nat.pow 2 s, m % 2 = 0⟩

/-- Whether `num` lies in the interval with its ends scaled by `factor`. -/
def Interval.holds (i : Interval) (factor num : Nat) : Bool :=
  if i.closed then i.low * factor ≤ num ∧ num ≤ i.high * factor
  else i.low * factor < num ∧ num < i.high * factor

def placesOf (n : Nat) : Nat := (Nat.toDigits 10 n).length

/-- The exponent `e` with `10 ^ (e - 1) ≤ value / unit < 10 ^ e`. -/
def Interval.point (i : Interval) : Int :=
  if unit ≤ i.value then placesOf (i.value / unit)
  else 1 - (placesOf ((unit - 1) / i.value) : Int)

/-- The point of the grid of step `10 ^ exponent` that is in the interval and
nearest to its middle. -/
def Interval.onGrid (i : Interval) (exponent : Int) : Option Nat :=
  let factor := Nat.pow 10 (-exponent).toNat
  let step := unit * Nat.pow 10 exponent.toNat
  let num := i.value * factor
  let below := num / step
  let lower := i.holds factor (below * step)
  let upper := i.holds factor ((below + 1) * step)
  if lower && (!upper || 2 * num < (2 * below + 1) * step) then some below
  else if upper then some (below + 1)
  else none

/-- The first grid that has a point in the interval, the coarsest first; the
last one of `n` grids gives its point below the middle. -/
def Interval.search (i : Interval) : Nat → Int → Nat × Int
  | 0, e => (i.value * Nat.pow 10 (-e).toNat / (unit * Nat.pow 10 e.toNat), e)
  | n + 1, e =>
    match i.onGrid e with
    | some d => (d, e)
    | none => i.search n (e - 1)

/-- Decimal digits without zeros at the end, and the position of the point
relative to their start. -/
def shortest (magnitude : Nat) : List Char × Int :=
  let i := Interval.around magnitude
  let (d, e) := i.search 17 (i.point - 1)
  let digits := Nat.toDigits 10 d
  ((digits.reverse.dropWhile (· = '0')).reverse, e + digits.length)

/-! ## Layout -/

/-- Numbers `x` with `10 ^ (least - 1) ≤ x < 10 ^ greatest` are set out
without an exponent. -/
structure Layout where
  least : Int
  greatest : Int

/-- Plain notation from `1e-4` up to, but not including, `1e16`. -/
def Layout.listing : Layout := ⟨-3, 16⟩

/-- Plain notation always shows a digit on either side of the point. -/
def plain (digits : List Char) (point : Int) : List Char :=
  if point ≤ 0 then '0' :: '.' :: List.replicate (-point).toNat '0' ++ digits
  else if digits.length ≤ point.toNat then
    digits ++ List.replicate (point.toNat - digits.length) '0' ++ ['.', '0']
  else digits.take point.toNat ++ '.' :: digits.drop point.toNat

/-- One digit stands before the point, and the point only before further ones. -/
def scientific (digits : List Char) (point : Int) : List Char :=
  let mantissa :=
    match digits with
    | d :: e :: ds => d :: '.' :: e :: ds
    | ds => ds
  mantissa ++ 'e' :: (toString (point - 1)).toList

def Layout.magnitude (l : Layout) (m : Nat) : List Char :=
  if m = 0 then ['0', '.', '0']
  else if m = infinity then ['i', 'n', 'f']
  else
    let (digits, point) := shortest m
    let exact := (Interval.around m).point
    if l.least ≤ exact ∧ exact ≤ l.greatest then plain digits point
    else scientific digits point

/-- What is not a number is written without its sign. -/
def Layout.render (l : Layout) (x : Binary64) : String :=
  if infinity < x.magnitude then "NaN"
  else String.ofList (if x.negative then '-' :: l.magnitude x.magnitude else l.magnitude x.magnitude)

def render (x : Binary64) : String := Layout.listing.render x

end StackPascal.Binary64
