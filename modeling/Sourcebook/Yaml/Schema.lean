-- Which texts without quotes stand for something else than themselves: numbers, dates,
-- truth values, nothing, and the two marks of mappings.
import Sourcebook.Text.Lines
import Sourcebook.Yaml.Plain
import Sourcebook.Yaml.Timestamp

namespace Sourcebook.Yaml

/-- What a node is read as. -/
inductive Kind where
  | null
  | bool
  | int
  | number
  | time
  | bytes
  | text
  | list
  | map
  | set
  | ordered
  | pairs
  /-- The key that takes over the entries of other mappings. -/
  | merge
  /-- The key of a default value. -/
  | default
  | unknown
  deriving Repr, DecidableEq

/-! ## Forms -/

def withoutSign : List Char → List Char
  | '-' :: s => s
  | '+' :: s => s
  | s => s

def isSpaced (p : Char → Bool) (s : List Char) : Bool := s.all (fun c => p c || c = '_')

/-- An exponent: a mark, a sign that may be left out unless it is demanded, digits. -/
def isExponent (signDemanded : Bool) : List Char → Bool
  | [] => false
  | c :: s =>
    (c = 'e' || c = 'E') &&
      match s with
      | '-' :: ds => !ds.isEmpty && ds.all isDigit
      | '+' :: ds => !ds.isEmpty && ds.all isDigit
      | ds => !signDemanded && !ds.isEmpty && ds.all isDigit

def isDigitOrGap (c : Char) : Bool := isDigit c || c = '_'

/-- Places of sixty behind a first number: one digit, or two of which the first is at
most five. -/
def isSixtieth (part : List Char) : Bool :=
  match part with
  | [d] => isDigit d
  | [t, d] => '0' ≤ t && t ≤ '5' && isDigit d
  | _ => false

/-- A number whose places are counted in sixties, between colons. -/
def isSixties (first : List Char → Bool) (s : List Char) : Bool :=
  match Text.splitOn ':' s with
  | head :: second :: rest => first head && (second :: rest).all isSixtieth
  | _ => false

/-- Places of sixty with a point behind them. -/
def isSixtiesNumber (s : List Char) : Bool :=
  match s.dropWhile (· != '.') with
  | _ :: fraction =>
    fraction.all isDigitOrGap &&
      isSixties (fun head => (head.head?.map isDigit).getD false && head.all isDigitOrGap)
        (s.takeWhile (· != '.'))
  | [] => false

/-- Digits with a point or an exponent, a point with digits, or a word for a value that
has no digits. -/
def isNumber (v : Version) (s : List Char) : Bool :=
  let r := withoutSign s
  let unsigned := r == s
  match r with
  | '.' :: t =>
    let ds := t.takeWhile isDigitOrGap
    let e := t.dropWhile isDigitOrGap
    (!ds.isEmpty && (e.isEmpty || isExponent true e) && (unsigned || v = .core))
      || [['i', 'n', 'f'], ['I', 'n', 'f'], ['I', 'N', 'F']].contains t
      || (unsigned && [['n', 'a', 'n'], ['N', 'a', 'N'], ['N', 'A', 'N']].contains t)
  | c :: _ =>
    (v = .older && isSixtiesNumber r) ||
      (isDigit c &&
        match r.dropWhile isDigitOrGap with
        | '.' :: t =>
          let e := t.dropWhile isDigitOrGap
          e.isEmpty || isExponent false e
        | e => isExponent false e)
  | [] => false

/-- Digits of a base behind its mark. -/
def isBased (mark : Char) (p : Char → Bool) : List Char → Bool
  | '0' :: c :: s => c = mark && !s.isEmpty && isSpaced p s
  | _ => false

def isOctal (c : Char) : Bool := '0' ≤ c && c ≤ '7'

/-- A digit that may start a number of the older version. -/
def isLeading : List Char → Bool
  | c :: s => '1' ≤ c && c ≤ '9' && isSpaced isDigit s
  | [] => false

def isInt (v : Version) (s : List Char) : Bool :=
  let r := withoutSign s
  isBased 'b' (fun c => c = '0' || c = '1') r
    || isBased 'x' isHexDigit r
    || match v with
      | .core => (!r.isEmpty && isSpaced isDigit r) || isBased 'o' isOctal r
      | .older => (!r.isEmpty && isSpaced isOctal r) || isLeading r || isSixties isLeading r

def nullWords : List String := ["~", "null", "Null", "NULL", ""]

def trueWords : Version → List String
  | .core => ["true", "True", "TRUE"]
  | .older => ["true", "True", "TRUE", "yes", "Yes", "YES", "on", "On", "ON", "y", "Y"]

def falseWords : Version → List String
  | .core => ["false", "False", "FALSE"]
  | .older => ["false", "False", "FALSE", "no", "No", "NO", "off", "Off", "OFF", "n", "N"]

/-- Marks of other nodes, which stand for nothing. -/
def strayMarks : List String := ["!", "&", "*"]

/-- A line feed at the end of a text does not keep a form from fitting, where the text
does not start with it. -/
def withoutLastBreak (s : List Char) : List Char :=
  if 1 < s.length && s.getLast? == some '\n' then s.dropLast else s

/-- What a text without quotes is read as. The first form that fits counts. -/
def kindOf (v : Version) (s : String) : Kind :=
  let cs := withoutLastBreak s.toList
  let word := String.ofList cs
  if (trueWords v ++ falseWords v).contains word then .bool
  else if isNumber v cs then .number
  else if isInt v cs && cs.head? != some '_' then .int
  else if word == "<<" then .merge
  else if nullWords.contains word then .null
  else if isStamp cs then .time
  else if word == "=" then .default
  else if strayMarks.contains word then .unknown
  else .text

/-! ## Tags -/

def standardTag (name : String) : String := "tag:yaml.org,2002:" ++ name

/-- The tags that are known. -/
def tagKinds : List (String × Kind) :=
  [("str", .text), ("int", .int), ("float", .number), ("bool", .bool), ("null", .null),
    ("timestamp", .time), ("binary", .bytes), ("seq", .list), ("map", .map), ("set", .set),
    ("omap", .ordered), ("pairs", .pairs), ("merge", .merge), ("value", .default)].map
    fun t => (standardTag t.1, t.2)

def tagKind (tag : String) : Kind := (tagKinds.lookup tag).getD .unknown

end Sourcebook.Yaml
