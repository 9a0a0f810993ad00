-- Texts in quotes. Breaks in them are folded: one break is a space, more breaks are
-- one less.
import Sourcebook.Text.Digits
import Sourcebook.Yaml.Characters
import Sourcebook.Yaml.Error

namespace Sourcebook.Yaml

/-! ## Breaks -/

/-- The breaks of blank lines, and what follows them. A document may not end here. -/
def blankLines : Bool → List Char → Reading (List Char × List Char)
  | _, [] => .ok ([], [])
  | lineStart, c :: s =>
    if lineStart && atDocumentMark (c :: s) then fault "unexpected document mark"
    else if c = ' ' || c = '\t' then blankLines false s
    else if c = '\r' && s.head? == some '\n' then blankLines false s
    else if isBreak c then do
      let (breaks, rest) ← blankLines true s
      return (breakChar c :: breaks, rest)
    else .ok ([], c :: s)

/-- The folded text of a break and the breaks of the blank lines after it. -/
def folded (first : Char) (breaks : List Char) : List Char :=
  if first != '\n' then first :: breaks else if breaks.isEmpty then [' '] else breaks

/-- Spaces and tabs, or the folded breaks after them, and what follows. -/
def quotedSpace (s : List Char) : Reading (List Char × List Char) :=
  let blank (c : Char) : Bool := c = ' ' || c = '\t'
  match s.dropWhile blank with
  | [] => .error .unclosed
  | c :: rest =>
    if isBreak c then do
      let (breaks, rest) ← blankLines true (dropBreak (c :: rest))
      return (folded (breakChar c) breaks, rest)
    else .ok (s.takeWhile blank, c :: rest)

/-! ## Escapes -/

def escapeChar? : Char → Option Char
  | '0' => some '\x00'
  | 'a' => some '\x07'
  | 'b' => some '\x08'
  | 't' => some '\t'
  | '\t' => some '\t'
  | 'n' => some '\n'
  | 'v' => some '\x0b'
  | 'f' => some '\x0c'
  | 'r' => some '\r'
  | 'e' => some '\x1b'
  | ' ' => some ' '
  | '"' => some '"'
  | '/' => some '/'
  | '\\' => some '\\'
  | 'N' => some '\x85'
  | '_' => some '\xA0'
  | 'L' => some '\u2028'
  | 'P' => some '\u2029'
  | _ => none

def escapeWidth? : Char → Option Nat
  | 'x' => some 2
  | 'u' => some 4
  | 'U' => some 8
  | _ => none

/-- The character of a code point that is written with a number of digits. -/
def codePoint (width : Nat) (s : List Char) : Reading Char :=
  let ds := s.take width
  let n := Text.ofDigits 16 (ds.map hexDigit)
  if ds.length < width || !ds.all isHexDigit then fault "digits missing in an escape"
  else if n < 0x110000 then .ok (Char.ofNat n)
  else .error (if n < 0x80000000 then .noCharacter else .wideCode)

/-- What stands behind a backslash, and what follows it. A break there is dropped with
the blanks after it. -/
def escape (s : List Char) : Reading (List Char × List Char) :=
  match s with
  | [] => .error .unclosed
  | c :: rest =>
    match escapeChar? c, escapeWidth? c with
    | some d, _ => .ok ([d], rest)
    | none, some width => do
      let d ← codePoint width rest
      return ([d], rest.drop width)
    | none, none =>
      if isBreak c then blankLines true (dropBreak s) else fault "unknown escape"

/-! ## Quoted texts -/

/-- A text in single quotes from behind the opening quote on. A quote inside is
written twice. Each step reads at least one character. -/
def singleQuoted : Nat → List Char → Reading (List Char × List Char)
  | 0, _ => .error .unclosed
  | _ + 1, [] => .error .unclosed
  | fuel + 1, c :: s =>
    if c = '\'' then
      match s with
      | '\'' :: s => do
        let (text, rest) ← singleQuoted fuel s
        return ('\'' :: text, rest)
      | s => .ok ([], s)
    else if c = ' ' || c = '\t' || isBreak c then do
      let (space, s) ← quotedSpace (c :: s)
      let (text, rest) ← singleQuoted fuel s
      return (space ++ text, rest)
    else do
      let (text, rest) ← singleQuoted fuel s
      return (c :: text, rest)

/-- A text in double quotes from behind the opening quote on. -/
def doubleQuoted : Nat → List Char → Reading (List Char × List Char)
  | 0, _ => .error .unclosed
  | _ + 1, [] => .error .unclosed
  | fuel + 1, c :: s =>
    if c = '"' then .ok ([], s)
    else if c = '\\' then do
      let (piece, s) ← escape s
      let (text, rest) ← doubleQuoted fuel s
      return (piece ++ text, rest)
    else if c = ' ' || c = '\t' || isBreak c then do
      let (space, s) ← quotedSpace (c :: s)
      let (text, rest) ← doubleQuoted fuel s
      return (space ++ text, rest)
    else do
      let (text, rest) ← doubleQuoted fuel s
      return (c :: text, rest)

end Sourcebook.Yaml
