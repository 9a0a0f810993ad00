-- Fractional numbers as they are written: digits of every script with a point and an
-- exponent, or a word for what has no digits.
import Sourcebook.Decimal.Double
import Sourcebook.Text.Numeral

namespace Sourcebook.Decimal

def isDigitChar (c : Char) : Bool := '0' ≤ c && c ≤ '9'

def digitsOf (ds : List Char) : Nat := Text.ofDigits 10 (ds.filterMap Text.baseDigit?)

/-- A sign, and what follows it. -/
def takeSign : List Char → Bool × List Char
  | '-' :: s => (true, s)
  | '+' :: s => (false, s)
  | s => (false, s)

/-- The word that starts a text in letters of either case, and what follows it. -/
def takeWord? (word : List Char) (s : List Char) : Option (List Char) :=
  if (s.take word.length).map Char.toLower = word then some (s.drop word.length) else none

/-- An infinity, or the value that is no number, and what follows it. -/
def takeSpecial? (negative : Bool) (s : List Char) : Option (Double × List Char) :=
  match takeWord? ['i', 'n', 'f'] s, takeWord? ['n', 'a', 'n'] s with
  | some rest, _ =>
    some (.infinite negative, (takeWord? ['i', 'n', 'i', 't', 'y'] rest).getD rest)
  | none, some rest => some (.undefined, rest)
  | none, none => none

/-- An exponent where one is written, and what follows it. A mark without digits behind
it is not read. -/
def takeExponent (s : List Char) : Int × List Char :=
  match s with
  | c :: rest =>
    let (negative, ds) := takeSign rest
    let digits := ds.takeWhile isDigitChar
    if (c = 'e' || c = 'E') && !digits.isEmpty then
      (if negative then -(digitsOf digits : Int) else digitsOf digits, ds.dropWhile isDigitChar)
    else (0, s)
  | [] => (0, s)

/-- Digits behind a point, and what follows them. -/
def takeFraction : List Char → List Char × List Char
  | '.' :: s => (s.takeWhile isDigitChar, s.dropWhile isDigitChar)
  | s => ([], s)

/-- The number that a text starts with, and what follows it. -/
def takeNumber? (s : List Char) : Option (Double × List Char) :=
  let (negative, s) := takeSign s
  let whole := s.takeWhile isDigitChar
  let (fraction, rest) := takeFraction (s.dropWhile isDigitChar)
  if whole.isEmpty && fraction.isEmpty then takeSpecial? negative s
  else
    let (exponent, rest) := takeExponent rest
    some (ofDecimal negative (digitsOf (whole ++ fraction)) (exponent - fraction.length), rest)

/-- A number with blanks around it. -/
def read? (s : List Char) : Option Double :=
  match takeNumber? (Text.numeralChars s) with
  | some (x, []) => some x
  | _ => none

/-! ## Numbers with two parts -/

/-- The letter at the end of an imaginary part. -/
def isImaginaryEnd : List Char → Bool
  | [c] => c = 'j' || c = 'J'
  | _ => false

/-- What follows the first number of a text that may have an imaginary part. -/
def isSecondPart (s : List Char) : Bool :=
  match s with
  | [] => true
  | c :: rest =>
    if c = '+' || c = '-' then
      match takeNumber? s with
      | some (_, rest) => isImaginaryEnd rest
      | none => isImaginaryEnd rest
    else isImaginaryEnd s

/-- Underscores may stand between two digits. -/
def dropGaps : Bool → List Char → Option (List Char)
  | _, [] => some []
  | behindDigit, '_' :: s =>
    match s with
    | d :: _ => if behindDigit && isDigitChar d then dropGaps false s else none
    | [] => none
  | _, c :: s => (dropGaps (isDigitChar c) s).map (c :: ·)

/-- A text is a number, perhaps with an imaginary part. -/
def isNumeral (s : List Char) : Bool :=
  match dropGaps false (Text.numeralChars s) with
  | none => false
  | some s =>
    match takeNumber? s with
    | some (_, rest) => isSecondPart rest
    | none => isImaginaryEnd (takeSign s).2

end Sourcebook.Decimal
