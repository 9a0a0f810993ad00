-- Reading a JSON text. Each reader takes what is left of the text and gives a
-- value with what is left after it; a fault keeps the place where it was found.
import Sourcebook.Data.Value
import Sourcebook.Json.Error
import Sourcebook.Text.Digits

namespace Sourcebook.Json

open Data (Value)

def isSpace (c : Char) : Bool := c = ' ' || c = '\t' || c = '\n' || c = '\r'

def skipSpace (s : List Char) : List Char := s.dropWhile isSpace

/-! ## Strings -/

def hexValue? (c : Char) : Option Nat :=
  if '0' ≤ c && c ≤ '9' then some (c.toNat - '0'.toNat)
  else if 'a' ≤ c && c ≤ 'f' then some (c.toNat - 'a'.toNat + 10)
  else if 'A' ≤ c && c ≤ 'F' then some (c.toNat - 'A'.toNat + 10)
  else none

/-- The number that four hexadecimal digits spell. -/
def hexUnit? (a b c d : Char) : Option Nat := do
  return Text.ofDigits 16 [← hexValue? a, ← hexValue? b, ← hexValue? c, ← hexValue? d]

def isHighHalf (n : Nat) : Bool := 0xD800 ≤ n && n ≤ 0xDBFF
def isLowHalf (n : Nat) : Bool := 0xDC00 ≤ n && n ≤ 0xDFFF

/-- A half of a pair that stands alone is no character, and is replaced. -/
def unitChar (n : Nat) : Char := if 0xD800 ≤ n && n ≤ 0xDFFF then '\uFFFD' else Char.ofNat n

def joinHalves (high low : Nat) : Char :=
  Char.ofNat (0x10000 + (high - 0xD800) * 0x400 + (low - 0xDC00))

def shortEscape? : Char → Option Char
  | '"' => some '"'
  | '\\' => some '\\'
  | '/' => some '/'
  | 'b' => some '\x08'
  | 'f' => some '\x0c'
  | 'n' => some '\n'
  | 'r' => some '\r'
  | 't' => some '\t'
  | _ => none

/-- The character after a backslash and a u, and how many characters it takes. Four
digits must stand there with one more character behind them. Two halves in a row are
one character. -/
def unicodeEscape (r : List Char) : Except Fault (Char × Nat) :=
  match r with
  | a :: b :: c :: d :: r' =>
    if r'.isEmpty then .error (.found .badUnicodeEscape ('u' :: r))
    else
      match hexUnit? a b c d, r' with
      | none, _ => .error (.found .badUnicodeEscape ('u' :: r))
      | some n, '\\' :: 'u' :: e :: f :: g :: h :: after =>
        if isHighHalf n && !after.isEmpty then
          match hexUnit? e f g h with
          | none => .error (.found .badUnicodeEscape ('u' :: e :: f :: g :: h :: after))
          | some m => .ok (if isLowHalf m then (joinHalves n m, 10) else (unitChar n, 4))
        else .ok (unitChar n, 4)
      | some n, _ => .ok (unitChar n, 4)
  | _ => .error (.found .badUnicodeEscape ('u' :: r))

/-- The character that stands behind a backslash, and how many characters after the
backslash it takes. -/
def escape (opening : List Char) (r : List Char) : Except Fault (Char × Nat) :=
  match r with
  | [] => .error (.found .unterminatedString opening)
  | 'u' :: r => (unicodeEscape r).map fun p => (p.1, p.2 + 1)
  | c :: _ =>
    match shortEscape? c with
    | some d => .ok (d, 1)
    | none => .error (.found .badEscape ('\\' :: r))

/-- The text up to the closing quote, past the characters that an escape took. The
opening is the rest of the text from the opening quote on. -/
def stringFrom (opening : List Char) : Nat → List Char → Except Fault (List Char × List Char)
  | _, [] => .error (.found .unterminatedString opening)
  | taken + 1, _ :: r => stringFrom opening taken r
  | 0, c :: r =>
    if c = '"' then .ok ([], r)
    else if c = '\\' then do
      let (d, taken) ← escape opening r
      let (s, r) ← stringFrom opening taken r
      return (d :: s, r)
    else if c.toNat < 0x20 then .error (.found .controlCharacter (c :: r))
    else do
      let (s, r) ← stringFrom opening 0 r
      return (c :: s, r)

/-! ## Numbers -/

def isDigit (c : Char) : Bool := '0' ≤ c && c ≤ '9'

def digitsOf (s : List Char) : List Nat := s.map (fun c => c.toNat - '0'.toNat)

/-- A zero alone, or digits that do not start with a zero. -/
def wholePart (s : List Char) : List Char × List Char :=
  match s with
  | '0' :: r => (['0'], r)
  | s => (s.takeWhile isDigit, s.dropWhile isDigit)

/-- A point with digits after it. Without digits the point is left. -/
def fractionPart (s : List Char) : Option (List Char) × List Char :=
  match s with
  | '.' :: r =>
    match r.takeWhile isDigit with
    | [] => (none, s)
    | ds => (some ds, r.dropWhile isDigit)
  | s => (none, s)

/-- An exponent mark, a sign at will, and digits. -/
def exponentPart (s : List Char) : Option Int × List Char :=
  match s with
  | c :: r =>
    if c = 'e' || c = 'E' then
      let (negative, ds) :=
        match r with
        | '-' :: t => (true, t)
        | '+' :: t => (false, t)
        | t => (false, t)
      match ds.takeWhile isDigit with
      | [] => (none, s)
      | es =>
        let n : Int := Text.ofDigits 10 (digitsOf es)
        (some (if negative then -n else n), ds.dropWhile isDigit)
    else (none, s)
  | [] => (none, s)

/-- A number is the longest text that is one. The start is the whole rest of the
text, with the sign. -/
def numberFrom (start : List Char) (negative : Bool) (s : List Char) :
    Except Fault (Value × List Char) :=
  match wholePart s with
  | ([], _) => .error (.found .expectingValue start)
  | (whole, r) =>
    match fractionPart r with
    | (fraction, r) =>
      match exponentPart r with
      | (exponent, r) =>
        if fraction.isNone && exponent.isNone then
          if Text.maxDigits < whole.length then .error (.digits whole.length)
          else
            let n : Int := Text.ofDigits 10 (digitsOf whole)
            .ok (.int (if negative then -n else n), r)
        else
          let after := fraction.getD []
          let x := Decimal.ofDecimal negative (Text.ofDigits 10 (digitsOf (whole ++ after)))
            (exponent.getD 0 - after.length)
          .ok (.number x, r)

def number (s : List Char) : Except Fault (Value × List Char) :=
  match s with
  | '-' :: r => numberFrom s true r
  | _ => numberFrom s false s

/-! ## Values -/

/-- The words that stand for a value. -/
def word? : List Char → Option (Value × List Char)
  | 'n' :: 'u' :: 'l' :: 'l' :: r => some (.null, r)
  | 't' :: 'r' :: 'u' :: 'e' :: r => some (.bool true, r)
  | 'f' :: 'a' :: 'l' :: 's' :: 'e' :: r => some (.bool false, r)
  | 'N' :: 'a' :: 'N' :: r => some (.number .undefined, r)
  | 'I' :: 'n' :: 'f' :: 'i' :: 'n' :: 'i' :: 't' :: 'y' :: r => some (.number (.infinite false), r)
  | '-' :: 'I' :: 'n' :: 'f' :: 'i' :: 'n' :: 'i' :: 't' :: 'y' :: r =>
    some (.number (.infinite true), r)
  | _ => none

mutual

/-- One value, without space before it. Each step reads at least one character, so
fuel as long as the text never runs out. -/
def value : Nat → List Char → Except Fault (Value × List Char)
  | 0, s => .error (.found .expectingValue s)
  | fuel + 1, s =>
    match s with
    | '"' :: r => (stringFrom s 0 r).map fun p => (.text (String.ofList p.1), p.2)
    | '{' :: r =>
      match skipSpace r with
      | '}' :: r => .ok (.map [], r)
      | r => entries fuel [] r
    | '[' :: r =>
      match skipSpace r with
      | ']' :: r => .ok (.list [], r)
      | r => items fuel [] r
    | s =>
      match word? s with
      | some p => .ok p
      | none => number s

/-- The entries of an object from a name on. -/
def entries : Nat → List (Value × Value) → List Char → Except Fault (Value × List Char)
  | 0, _, s => .error (.found .expectingName s)
  | fuel + 1, done, s =>
    match s with
    | '"' :: r => do
      let (name, r) ← stringFrom s 0 r
      match skipSpace r with
      | ':' :: r =>
        let (v, r) ← value fuel (skipSpace r)
        let done := Data.insertEntry done (.text (String.ofList name)) v
        match skipSpace r with
        | '}' :: r => .ok (.map done, r)
        | ',' :: r => entries fuel done (skipSpace r)
        | r => .error (.found .expectingComma r)
      | r => .error (.found .expectingColon r)
    | s => .error (.found .expectingName s)

/-- The items of an array from a value on. -/
def items : Nat → List Value → List Char → Except Fault (Value × List Char)
  | 0, _, s => .error (.found .expectingValue s)
  | fuel + 1, done, s => do
    let (v, r) ← value fuel s
    match skipSpace r with
    | ']' :: r => .ok (.list (done ++ [v]), r)
    | ',' :: r => items fuel (done ++ [v]) (skipSpace r)
    | r => .error (.found .expectingComma r)

end

/-- The value of a whole text: nothing but space may stand around it. -/
def document (s : List Char) : Except Fault Value :=
  match s with
  | '\uFEFF' :: _ => .error (.found .byteOrderMark s)
  | s => do
    let (v, r) ← value (s.length + 1) (skipSpace s)
    match skipSpace r with
    | [] => .ok v
    | r => .error (.found .extraData r)

def Fault.error (text : List Char) : Fault → Error
  | .found p left => .at text p left.length
  | .digits count => .tooManyDigits Text.maxDigits count

def read (s : List Char) : Except Error Value := (document s).mapError (Fault.error s)

end Sourcebook.Json
