-- What can be wrong with a JSON text, where, and how it is said.
import Sourcebook.Text.Digits

namespace Sourcebook.Json

inductive Problem where
  | expectingValue
  | expectingName
  | expectingColon
  | expectingComma
  | extraData
  | unterminatedString
  | controlCharacter
  | badEscape
  | badUnicodeEscape
  | byteOrderMark
  deriving Repr, DecidableEq

def Problem.text : Problem → String
  | .expectingValue => "Expecting value"
  | .expectingName => "Expecting property name enclosed in double quotes"
  | .expectingColon => "Expecting ':' delimiter"
  | .expectingComma => "Expecting ',' delimiter"
  | .extraData => "Extra data"
  | .unterminatedString => "Unterminated string starting at"
  | .controlCharacter => "Invalid control character at"
  | .badEscape => "Invalid \\escape"
  | .badUnicodeEscape => "Invalid \\uXXXX escape"
  | .byteOrderMark => "Unexpected UTF-8 BOM (decode using utf-8-sig)"

/-- A text that is not JSON, or a whole number with too many digits to be read. -/
inductive Error where
  | malformed (problem : Problem) (line column offset : Nat)
  | tooManyDigits (limit count : Nat)
  deriving Repr, DecidableEq

/-- Lines and columns count from one, the offset from zero. -/
def Error.message : Error → String
  | .malformed p line column offset =>
    p.text ++ ": line " ++ toString line ++ " column " ++ toString column ++ " (char "
      ++ toString offset ++ ")"
  | .tooManyDigits limit count => Text.tooManyDigitsText limit count

/-- A problem before the place in the text is counted out: what is left to read
from the place on. -/
inductive Fault where
  | found (problem : Problem) (left : List Char)
  | digits (count : Nat)

/-- The place at which a given number of characters is left. -/
def Error.at (text : List Char) (p : Problem) (left : Nat) : Error :=
  let offset := text.length - left
  let before := text.take offset
  .malformed p (before.count '\n' + 1) ((before.reverse.takeWhile (· != '\n')).length + 1) offset

end Sourcebook.Json
