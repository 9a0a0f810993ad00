-- Whole numbers in any base, as data files may write them: blanks around them, a sign,
-- the mark of the base, and digits of every script.
import Sourcebook.Text.Blank
import Sourcebook.Text.Digits

namespace Sourcebook.Text

/-- A character as a number takes it: a digit of any script is the common one, and a
blank beyond the common ones is a space. -/
def numeralChar (c : Char) : Char :=
  if c.toNat < 0x80 then c
  else
    match digitValue? c with
    | some d => Char.ofNat ('0'.toNat + d)
    | none => if isBlank c then ' ' else c

/-- The blanks that may stand around a number. -/
def isNumeralSpace (c : Char) : Bool := c = ' ' || ('\t' ≤ c && c ≤ '\r')

def dropSpaceEnd (s : List Char) : List Char := (s.reverse.dropWhile isNumeralSpace).reverse

/-- The characters of a number without the blanks around them. -/
def numeralChars (s : List Char) : List Char :=
  dropSpaceEnd ((s.map numeralChar).dropWhile isNumeralSpace)

/-- The value of a digit or letter, as far as bases reach. -/
def baseDigit? (c : Char) : Option Nat :=
  if '0' ≤ c && c ≤ '9' then some (c.toNat - '0'.toNat)
  else if 'a' ≤ c && c ≤ 'z' then some (c.toNat - 'a'.toNat + 10)
  else if 'A' ≤ c && c ≤ 'Z' then some (c.toNat - 'A'.toNat + 10)
  else none

def isBaseDigit (base : Nat) (c : Char) : Bool :=
  match baseDigit? c with
  | some d => d < base
  | none => false

/-- The letters that mark a base behind a zero. -/
def baseMarks (base : Nat) : List Char :=
  if base = 2 then ['b', 'B'] else if base = 8 then ['o', 'O'] else if base = 16 then ['x', 'X'] else []

def dropBaseMark (base : Nat) (s : List Char) : List Char :=
  match s with
  | '0' :: c :: rest => if (baseMarks base).contains c then rest else s
  | s => s

/-- A base in which the count of digits does not matter. -/
def isUnlimited (base : Nat) : Bool := base = 2 || base = 8 || base = 16

/-- Why a text is no whole number. -/
inductive WholeFault where
  | malformed
  | tooMany (digits : Nat)
  deriving Repr, DecidableEq

/-- The number of digits that start a text; nothing may follow them. -/
def readDigits (base : Nat) (s : List Char) : Except WholeFault Nat :=
  let ds := s.takeWhile (isBaseDigit base)
  if !isUnlimited base && maxDigits < ds.length then .error (.tooMany ds.length)
  else if ds.isEmpty || !(s.dropWhile (isBaseDigit base)).isEmpty then .error .malformed
  else .ok (ofDigits base (ds.filterMap baseDigit?))

/-- A whole number in a base. -/
def readWhole (base : Nat) (s : List Char) : Except WholeFault Int :=
  match numeralChars s with
  | '-' :: rest => (readDigits base (dropBaseMark base rest)).map fun n => -(n : Int)
  | '+' :: rest => (readDigits base (dropBaseMark base rest)).map Int.ofNat
  | rest => (readDigits base (dropBaseMark base rest)).map Int.ofNat

end Sourcebook.Text
