-- Decimal digits of every script, and the reading of a whole number in them.

namespace Sourcebook.Text

/-- The zeros of the decimal digits. Each script has its ten digits in a row. -/
def digitZeros : List Nat := [
  0x30, 0x660, 0x6f0, 0x7c0, 0x966, 0x9e6, 0xa66, 0xae6, 0xb66, 0xbe6, 0xc66, 0xce6, 0xd66,
  0xde6, 0xe50, 0xed0, 0xf20, 0x1040, 0x1090, 0x17e0, 0x1810, 0x1946, 0x19d0, 0x1a80, 0x1a90,
  0x1b50, 0x1bb0, 0x1c40, 0x1c50, 0xa620, 0xa8d0, 0xa900, 0xa9d0, 0xa9f0, 0xaa50, 0xabf0,
  0xff10, 0x104a0, 0x10d30, 0x11066, 0x110f0, 0x11136, 0x111d0, 0x112f0, 0x11450, 0x114d0,
  0x11650, 0x116c0, 0x11730, 0x118e0, 0x11950, 0x11c50, 0x11d50, 0x11da0, 0x16a60, 0x16ac0,
  0x16b50, 0x1d7ce, 0x1d7d8, 0x1d7e2, 0x1d7ec, 0x1d7f6, 0x1e140, 0x1e2f0, 0x1e950, 0x1fbf0]

/-- The value of a decimal digit of any script. -/
def digitValue? (c : Char) : Option Nat :=
  (digitZeros.find? (fun z => z ≤ c.toNat && c.toNat < z + 10)).map (c.toNat - ·)

/-- A whole number is not read from more digits than this. -/
def maxDigits : Nat := 4300

/-- What is said of a number that has too many digits. -/
def tooManyDigitsText (limit count : Nat) : String :=
  "Exceeds the limit (" ++ toString limit ++ " digits) for integer string conversion: value has "
    ++ toString count ++ " digits; use sys.set_int_max_str_digits() to increase the limit"

/-- The values of the digits of a text that is made of digits, with at most one
underscore between two of them. -/
def digitRun? : List Char → Option (List Nat)
  | [] => none
  | [c] => (digitValue? c).map (fun d => [d])
  | c :: '_' :: s => do
    let d ← digitValue? c
    let rest ← digitRun? s
    return d :: rest
  | c :: s => do
    let d ← digitValue? c
    let rest ← digitRun? s
    return d :: rest

/-- The number that digits spell in a base, the most significant first. -/
def ofDigits (base : Nat) (ds : List Nat) : Nat := ds.foldl (fun n d => n * base + d) 0

def readNatural? (s : List Char) : Option Nat := do
  let ds ← digitRun? s
  if ds.length ≤ maxDigits then some (ofDigits 10 ds) else none

/-- A whole number: an optional sign, then digits. The caller trims. -/
def readInteger? : List Char → Option Int
  | '-' :: s => (readNatural? s).map (fun n => -(n : Int))
  | '+' :: s => (readNatural? s).map Int.ofNat
  | s => (readNatural? s).map Int.ofNat

end Sourcebook.Text
