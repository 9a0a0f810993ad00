-- The values of single texts: numbers, truth values, bytes and dates. A text may be read
-- as a kind of value because of its form or because of its tag.
import Sourcebook.Data.Value
import Sourcebook.Decimal.Reader
import Sourcebook.Text.Base64
import Sourcebook.Text.Case
import Sourcebook.Yaml.Schema

namespace Sourcebook.Yaml

open Data (Value)

def withoutGaps (s : List Char) : List Char := s.filter (· != '_')

/-- The sign of a number that has at least one character. -/
def signOf : List Char → Reading (Bool × List Char)
  | [] => .error .emptyNumber
  | '-' :: s => .ok (true, s)
  | '+' :: s => .ok (false, s)
  | s => .ok (false, s)

/-! ## Whole numbers -/

/-- A whole number in a base. -/
def wholeIn (base : Nat) (s : List Char) : Reading Int :=
  match Text.readWhole base s with
  | .ok n => .ok n
  | .error .malformed => .error (.noWhole base s)
  | .error (.tooMany n) => .error (.tooManyDigits n)

/-- A number whose places are counted in sixties. -/
def sixtiesOf (s : List Char) : Reading Int := do
  let parts ← (Text.splitOn ':' s).mapM (wholeIn 10)
  return parts.foldl (fun n part => n * 60 + part) 0

/-- A whole number behind its sign. In the older version a zero marks the base of eight. -/
def wholeOf (v : Version) (s : List Char) : Reading Int :=
  match s with
  | '0' :: 'b' :: ds => wholeIn 2 ds
  | '0' :: 'x' :: ds => wholeIn 16 ds
  | '0' :: 'o' :: ds => wholeIn 8 ds
  | [] => if v = .older then .error .emptyNumber else wholeIn 10 []
  | '0' :: ds => if v = .older && !ds.isEmpty then wholeIn 8 ('0' :: ds) else wholeIn 10 ('0' :: ds)
  | ds => if v = .older && ds.contains ':' then sixtiesOf ds else wholeIn 10 ds

def intValue (v : Version) (s : List Char) : Reading Value := do
  let (negative, r) ← signOf (withoutGaps s)
  let n ← wholeOf v r
  return .int (if negative then -n else n)

/-! ## Fractional numbers -/

def numberIn (s : List Char) : Reading Decimal.Double :=
  match Decimal.read? s with
  | some x => .ok x
  | none => .error (.noNumber s)

/-- The places of a number that is counted in sixties, the last first. A factor that is
too large for a number is an error. -/
def sixtiesSum (factor : Nat) (sum : Decimal.Double) :
    List Decimal.Double → Reading Decimal.Double
  | [] => .ok sum
  | part :: rest =>
    match Decimal.ofNat factor with
    | .infinite _ => .error .wideNumber
    | f => sixtiesSum (factor * 60) (sum.add (part.mul f)) rest

def sixtiesNumber (s : List Char) : Reading Decimal.Double := do
  let parts ← (Text.splitOn ':' s).mapM numberIn
  sixtiesSum 1 (Decimal.ofNat 0) parts.reverse

/-- A number behind its sign, in small letters. -/
def numberOf (v : Version) (s : List Char) : Reading Decimal.Double :=
  if s = ['.', 'i', 'n', 'f'] then .ok (.infinite false)
  else if v = .older && s.contains ':' then sixtiesNumber s
  else if v = .older && 1 < s.count 'e' then .error .manyExponents
  else numberIn s

/-- The word for the value that is no number, which is the same value wherever it
stands. -/
def isUndefinedWord (s : List Char) : Bool :=
  withoutSign (Text.lower (withoutGaps s)) = ['.', 'n', 'a', 'n']

def numberValue (v : Version) (s : List Char) : Reading Value := do
  let (negative, r) ← signOf (Text.lower (withoutGaps s))
  if r = ['.', 'n', 'a', 'n'] then return .number .undefined
  else
    let x ← numberOf v r
    return .number (if negative then x.negate else x)

/-! ## Other values -/

/-- The words for true and false that a tag asks for, in small letters. -/
def truthWords : List (String × Bool) :=
  [("yes", true), ("no", false), ("y", true), ("n", false), ("true", true), ("false", false),
    ("on", true), ("off", false)]

def boolValue (s : List Char) : Reading Value :=
  let word := String.ofList (Text.lower s)
  match truthWords.lookup word with
  | some b => .ok (.bool b)
  | none => .error (.noTruth word)

def bytesValue (s : List Char) : Reading Value :=
  if !s.all (·.toNat < 0x80) then fault "bytes that are not written in common characters"
  else
    match Text.decodeBase64 s with
    | some bs => .ok (.bytes bs)
    | none => fault "bytes that are not written to their end"

def timeValue (s : List Char) : Reading Value :=
  match stamp? (withoutLastBreak s) with
  | none => fault "not a date"
  | some ⟨d, some t⟩ => (momentOf d t).map .moment
  | some ⟨d, none⟩ =>
    match dateFault? d with
    | some fault => .error (.date fault)
    | none => .ok (.date d)

/-- The value of a text that is read as a kind. The kinds of collections and marks have
no value as texts. -/
def valueOf (v : Version) (kind : Kind) (s : String) : Reading Value :=
  match kind with
  | .text => .ok (.text s)
  | .null => .ok .null
  | .bool => boolValue s.toList
  | .int => intValue v s.toList
  | .number => numberValue v s.toList
  | .time => timeValue s.toList
  | .bytes => bytesValue s.toList
  | _ => fault "a tag that a text cannot have"

end Sourcebook.Yaml
