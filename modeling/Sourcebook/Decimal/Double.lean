-- Fractional numbers as data files hold them: binary numbers of 53 bits. They
-- are kept as exact integers, so that rounding is plain arithmetic.

namespace Sourcebook.Decimal

/-- A binary number of 53 bits, an infinity, or the value that is no number. -/
inductive Double where
  /-- The mantissa times a power of two, and a sign that zero has too. -/
  | finite (negative : Bool) (mantissa : Nat) (exponent : Int)
  | infinite (negative : Bool)
  | undefined
  deriving Repr, DecidableEq

/-- The quotient rounded to the nearest whole number; of two, the even one. -/
def roundDiv (num den : Nat) : Nat :=
  let q := num / den
  let r := num % den
  if 2 * r < den then q
  else if den < 2 * r then q + 1
  else if q % 2 == 0 then q else q + 1

/-- The power of two that leaves a mantissa of 53 bits, or the least there is. -/
def unitExponent (num den : Nat) : Int :=
  let rough : Int := (Nat.log2 num : Int) - (Nat.log2 den : Int) - 53
  let fits (e : Int) : Bool :=
    if 0 ≤ e then num < den * Nat.pow 2 (53 + e.toNat)
    else num * Nat.pow 2 (-e).toNat < den * Nat.pow 2 53
  max (-1074) (if fits rough then rough else rough + 1)

/-- The nearest binary number to a positive quotient. -/
def nearest (negative : Bool) (num den : Nat) : Double :=
  let e := unitExponent num den
  let m :=
    if 0 ≤ e then roundDiv num (den * Nat.pow 2 e.toNat)
    else roundDiv (num * Nat.pow 2 (-e).toNat) den
  let (m, e) := if m == Nat.pow 2 53 then (Nat.pow 2 52, e + 1) else (m, e)
  if 971 < e then .infinite negative else .finite negative m e

/-- The nearest binary number to the whole number of the digits times a power of
ten. Far outside the range of exponents the answer is known at once. -/
def ofDecimal (negative : Bool) (digits : Nat) (exponent : Int) : Double :=
  if digits == 0 then .finite negative 0 (-1074)
  else
    let size : Int := (Nat.log2 digits : Int) / 3 + exponent
    if 400 < exponent && 400 < size then .infinite negative
    else if size < -800 then .finite negative 0 (-1074)
    else if 0 ≤ exponent then nearest negative (digits * Nat.pow 10 exponent.toNat) 1
    else nearest negative digits (Nat.pow 10 (-exponent).toNat)

/-- Zero of either sign. Every other value counts as true. -/
def Double.isZero : Double → Bool
  | .finite _ m _ => m == 0
  | _ => false

/-- The whole number that a binary number is, if it is one. -/
def Double.whole? : Double → Option Int
  | .finite s m e =>
    let value? : Option Nat :=
      if 0 ≤ e then some (m * Nat.pow 2 e.toNat)
      else if m % Nat.pow 2 (-e).toNat == 0 then some (m / Nat.pow 2 (-e).toNat) else none
    value?.map (fun n => if s then -(n : Int) else n)
  | _ => none

/-! ## Arithmetic -/

/-- The nearest binary number to a whole number times a power of two. -/
def rounded (negative : Bool) (n : Nat) (exponent : Int) : Double :=
  if n == 0 then .finite negative 0 (-1074)
  else nearest negative (n * Nat.pow 2 exponent.toNat) (Nat.pow 2 (-exponent).toNat)

def ofNat (n : Nat) : Double := rounded false n 0

def Double.negate : Double → Double
  | .finite s m e => .finite (!s) m e
  | .infinite s => .infinite (!s)
  | .undefined => .undefined

/-- The rounded product. An infinity times zero is no number. -/
def Double.mul : Double → Double → Double
  | .undefined, _ => .undefined
  | _, .undefined => .undefined
  | .finite s m e, .finite t n f => rounded (s != t) (m * n) (e + f)
  | .finite s m _, .infinite t => if m == 0 then .undefined else .infinite (s != t)
  | .infinite s, .finite t n _ => if n == 0 then .undefined else .infinite (s != t)
  | .infinite s, .infinite t => .infinite (s != t)

/-- The mantissa of a binary number at a smaller exponent. -/
def mantissaAt (negative : Bool) (m : Nat) (e least : Int) : Int :=
  let n : Int := (m * Nat.pow 2 (e - least).toNat : Nat)
  if negative then -n else n

/-- The rounded sum. Zero comes out negative only from two negative ones, and opposite
infinities add up to no number. -/
def Double.add : Double → Double → Double
  | .undefined, _ => .undefined
  | _, .undefined => .undefined
  | .infinite s, .infinite t => if s == t then .infinite s else .undefined
  | .infinite s, .finite .. => .infinite s
  | .finite .., .infinite t => .infinite t
  | .finite s m e, .finite t n f =>
    let least := min e f
    let sum := mantissaAt s m e least + mantissaAt t n f least
    if sum == 0 then .finite (s && t) 0 (-1074) else rounded (sum < 0) sum.natAbs least

end Sourcebook.Decimal
