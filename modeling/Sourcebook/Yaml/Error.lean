-- Why a text is not read. Most faults are faults of form; the others belong to a number,
-- a date, a key or an entry that has no value.
import Sourcebook.Data.Moment
import Sourcebook.Text.Digits
import Sourcebook.Text.Utf8

namespace Sourcebook.Yaml

/-- What is wrong with a date. -/
inductive DateFault where
  | year
  | month
  | day
  | hour
  | minute
  | second
  deriving Repr, DecidableEq

def DateFault.message : DateFault → String
  | .year => "year 0 is out of range"
  | .month => "month must be in 1..12"
  | .day => "day is out of range for month"
  | .hour => "hour must be in 0..23"
  | .minute => "minute must be in 0..59"
  | .second => "second must be in 0..59"

/-- A collection that cannot be compared, and so is no part of a key. -/
inductive KeyFault where
  | list
  | map
  | set
  | ordered
  deriving Repr, DecidableEq

def KeyFault.name : KeyFault → String
  | .list => "list"
  | .map => "dict"
  | .set => "set"
  | .ordered => "ordereddict"

inductive Error where
  /-- The text is not well formed. -/
  | malformed (reason : String)
  /-- The text ends inside of quotes. -/
  | unclosed
  /-- The file is no text from some place on. -/
  | undecodable (u : Text.Undecodable)
  /-- An escape that is beyond the last character. -/
  | noCharacter
  /-- An escape that is beyond the numbers of characters. -/
  | wideCode
  | tooManyDigits (count : Nat)
  /-- A version of the format that is not known. -/
  | minorVersion (minor : Nat)
  | noWhole (base : Nat) (written : List Char)
  | noNumber (written : List Char)
  /-- A number without any character. -/
  | emptyNumber
  /-- A number with more than one mark of an exponent. -/
  | manyExponents
  /-- More places of sixty than a number can hold. -/
  | wideNumber
  /-- A word that is neither true nor false. -/
  | noTruth (word : String)
  | date (fault : DateFault)
  /-- A zone that is a day or more away. -/
  | farZone (minutes : Int)
  /-- A time beyond the last day. -/
  | lastDay
  | key (fault : KeyFault)
  /-- Two entries with one key where entries are listed. -/
  | repeatedEntry
  deriving Repr, DecidableEq

/-- A message shows at most this many characters of a number. -/
def shownLimit : Nat := 200

def Error.message : Error → String
  | .malformed reason => reason
  | .unclosed => "quotes that are not closed"
  | .undecodable u => u.message
  | .noCharacter => "chr() arg not in range(0x110000)"
  | .wideCode => "Python int too large to convert to C int"
  | .tooManyDigits count => Text.tooManyDigitsText Text.maxDigits count
  | .minorVersion minor => "version minor part can only be 2 or 1, got (1, " ++ toString minor ++ ")"
  | .noWhole base s =>
    "invalid literal for int() with base " ++ toString base ++ ": "
      ++ String.ofList ((Text.quoted s).take shownLimit)
  | .noNumber s => "could not convert string to float: " ++ String.ofList (Text.quoted s)
  | .emptyNumber => "string index out of range"
  | .manyExponents => "too many values to unpack (expected 2)"
  | .wideNumber => "int too large to convert to float"
  | .noTruth word => Text.quotedText word
  | .date fault => fault.message
  | .farZone minutes =>
    "offset must be a timedelta strictly between -timedelta(hours=24) and timedelta(hours=24), not "
      ++ Data.spanShown minutes ++ "."
  | .lastDay => "date value out of range"
  | .key fault => "unhashable type: '" ++ fault.name ++ "'"
  | .repeatedEntry => ""

/-- What is read, or why it is not. -/
abbrev Reading (α : Type) := Except Error α

/-- A fault of form. -/
def fault {α : Type} (reason : String) : Reading α := .error (.malformed reason)

end Sourcebook.Yaml
