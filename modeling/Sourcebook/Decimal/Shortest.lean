-- The fewest decimal digits that read back as the same binary number, and the
-- text made from them.
import Sourcebook.Decimal.Double

namespace Sourcebook.Decimal

/-! ## The digits -/

/-- The values that round to one binary number. They lie between two bounds,
counted in quarters of the unit; the bounds count when the mantissa is even. -/
structure Interval where
  low : Nat
  value : Nat
  high : Nat
  /-- The exponent of two of a quarter of the unit. -/
  quarter : Int
  closed : Bool

/-- Below a power of two the next number is only half a unit away. -/
def Interval.around (mantissa : Nat) (exponent : Int) : Interval where
  low := if mantissa == Nat.pow 2 52 && -1074 < exponent then 4 * mantissa - 1 else 4 * mantissa - 2
  value := 4 * mantissa
  high := 4 * mantissa + 2
  quarter := exponent - 2
  closed := mantissa % 2 == 0

/-- Compares the whole number a times ten to the s with b times two to the q. -/
def compareScaled (a : Nat) (s : Int) (b : Nat) (q : Int) : Ordering :=
  let left := a * Nat.pow 10 s.toNat * Nat.pow 2 (-q).toNat
  let right := b * Nat.pow 2 q.toNat * Nat.pow 10 (-s).toNat
  compare left right

def Interval.holds (i : Interval) (a : Nat) (s : Int) : Bool :=
  let below := compareScaled a s i.low i.quarter
  let above := compareScaled a s i.high i.quarter
  if i.closed then below != .lt && above != .gt else below == .gt && above == .lt

/-- The value divided by ten to the s, rounded down. -/
def Interval.floorAt (i : Interval) (s : Int) : Nat :=
  (i.value * Nat.pow 2 i.quarter.toNat * Nat.pow 10 (-s).toNat)
    / (Nat.pow 10 s.toNat * Nat.pow 2 (-i.quarter).toNat)

/-- The neighbour that is nearer to the value; the lower one in a tie with an even
digit there. -/
def Interval.nearer (i : Interval) (a : Nat) (s : Int) : Nat :=
  match compareScaled (2 * a + 1) s (2 * i.value) i.quarter with
  | .lt => a + 1
  | .gt => a
  | .eq => if a % 2 == 0 then a else a + 1

/-- The point of the grid of step ten to the s that reads back, if one does. -/
def Interval.onGrid (i : Interval) (s : Int) : Option Nat :=
  let a := i.floorAt s
  match i.holds a s, i.holds (a + 1) s with
  | true, true => some (i.nearer a s)
  | true, false => some a
  | false, true => some (a + 1)
  | false, false => none

/-- Tries ever finer grids: the first that holds a point has the fewest digits. -/
def Interval.search (i : Interval) : Nat → Int → Nat × Int
  | 0, s => (i.floorAt s, s)
  | tries + 1, s =>
    match i.onGrid s with
    | some a => (a, s)
    | none => i.search tries (s - 1)

/-- The exponent of ten of the first digit of the value. -/
def Interval.magnitude (i : Interval) : Int :=
  let rough : Int := ((Nat.log2 i.value : Int) + i.quarter) * 30103 / 100000
  if compareScaled 1 (rough + 1) i.value i.quarter != .gt then rough + 1
  else if compareScaled 1 rough i.value i.quarter == .gt then rough - 1
  else rough

/-- Drops the zeros at the end of a positive number and counts them. -/
def dropZeros : Nat → Nat → Int → Nat × Int
  | 0, a, s => (a, s)
  | fuel + 1, a, s => if a % 10 == 0 && a != 0 then dropZeros fuel (a / 10) (s + 1) else (a, s)

/-- The shortest decimal number that reads back: its digits, and the exponent of
ten of the last one. -/
def shortest (mantissa : Nat) (exponent : Int) : Nat × Int :=
  if mantissa == 0 then (0, 0)
  else
    let i := Interval.around mantissa exponent
    let (a, s) := i.search 18 i.magnitude
    dropZeros 20 a s

/-! ## The text -/

/-- How a number is laid out: where positional writing begins and ends, and how an
exponent is written. -/
structure Layout where
  /-- Smaller leading exponents than this are written with an exponent. -/
  least : Int
  /-- Leading exponents from here on are written with an exponent. -/
  bound : Int
  exponentDigits : Nat
  infinity : String
  undefined : String

/-- Positional from a ten-thousandth up to ten to the sixteenth, with at least one
digit after the point; two digits at least in an exponent. -/
def plainLayout : Layout := ⟨-4, 16, 2, "inf", "nan"⟩

def digitsText (n : Nat) : List Char := Nat.toDigits 10 n

def padLeft (width : Nat) (s : List Char) : List Char := List.replicate (width - s.length) '0' ++ s

/-- Digits with a point after the given count of them, filled up with zeros. -/
def placePoint (ds : List Char) (whole : Int) : List Char :=
  if whole ≤ 0 then '0' :: '.' :: (List.replicate (-whole).toNat '0' ++ ds)
  else
    let n := whole.toNat
    if ds.length ≤ n then ds ++ List.replicate (n - ds.length) '0' ++ ['.', '0']
    else ds.take n ++ '.' :: ds.drop n

def exponentText (l : Layout) (e : Int) : List Char :=
  'e' :: (if e < 0 then '-' else '+') :: padLeft l.exponentDigits (digitsText e.natAbs)

def Layout.write (l : Layout) (digits : Nat) (last : Int) : List Char :=
  let ds := digitsText digits
  let lead : Int := last + ds.length - 1
  if digits == 0 then ['0', '.', '0']
  else if l.least ≤ lead && lead < l.bound then placePoint ds (lead + 1)
  else
    match ds with
    | [d] => d :: exponentText l lead
    | d :: more => d :: '.' :: (more ++ exponentText l lead)
    | [] => []

def signed (negative : Bool) (s : List Char) : List Char := if negative then '-' :: s else s

def Double.text (l : Layout) : Double → List Char
  | .undefined => l.undefined.toList
  | .infinite s => signed s l.infinity.toList
  | .finite s m e =>
    let (digits, last) := shortest m e
    signed s (l.write digits last)

end Sourcebook.Decimal
