-- The character classes of YAML, and a place in a text that is read.
namespace Sourcebook.Yaml

/-- What ends a line of text: a line feed, a return, a next-line mark, and the two
separators. -/
def isBreak (c : Char) : Bool :=
  c = '\n' || c = '\r' || c = '\x85' || c = '\u2028' || c = '\u2029'

/-- The break that a text keeps: all but the two separators become line feeds. -/
def breakChar (c : Char) : Char := if c = '\u2028' || c = '\u2029' then c else '\n'

/-- What may follow an indicator: a space, a tab, or a break. -/
def isGap (c : Char) : Bool := c = ' ' || c = '\t' || isBreak c

/-- The end of the text counts as a gap. -/
def gapAhead : List Char → Bool
  | [] => true
  | c :: _ => isGap c

/-- The end of the text counts as a break. -/
def breakAhead : List Char → Bool
  | [] => true
  | c :: _ => isBreak c

/-- The end of the text counts as a break; a space does as well. -/
def lineAhead (s : List Char) : Bool := breakAhead s || s.head? == some ' '

/-- The text behind its first break. A return and a line feed are one break. -/
def dropBreak : List Char → List Char
  | '\r' :: '\n' :: s => s
  | _ :: s => s
  | [] => []

/-- The text from its next break on. -/
def toBreak (s : List Char) : List Char := s.dropWhile (fun c => !isBreak c)

/-- The characters that a file may hold. -/
def isAllowed (c : Char) : Bool :=
  c = '\t' || c = '\n' || c = '\r' || (' ' ≤ c && c ≤ '~') || c = '\x85'
    || ('\xA0' ≤ c && c ≤ '\uFFFD') || 0x10000 ≤ c.toNat

def isDigit (c : Char) : Bool := '0' ≤ c && c ≤ '9'

def isLetter (c : Char) : Bool := ('a' ≤ c && c ≤ 'z') || ('A' ≤ c && c ≤ 'Z')

def isHexDigit (c : Char) : Bool :=
  isDigit c || ('a' ≤ c && c ≤ 'f') || ('A' ≤ c && c ≤ 'F')

def hexDigit (c : Char) : Nat :=
  if isDigit c then c.toNat - '0'.toNat
  else if 'a' ≤ c then c.toNat - 'a'.toNat + 10
  else c.toNat - 'A'.toNat + 10

/-- The characters of the name of an anchor. -/
def isAnchorChar (c : Char) : Bool :=
  ('!' ≤ c && c ≤ '~' || '\xA0' ≤ c && c ≤ '\uFFFD' || 0x10000 ≤ c.toNat)
    && c != ',' && c != '[' && c != ']' && c != '\x7b' && c != '\x7d' && c != '\uFEFF'

/-- A line of three dashes or dots, or the start of one, ends a document. -/
def documentMark (mark : Char) : List Char → Bool
  | a :: b :: c :: rest => a = mark && b = mark && c = mark && gapAhead rest
  | _ => false

def atDocumentMark (s : List Char) : Bool := documentMark '-' s || documentMark '.' s

/-! ## Places -/

/-- What is left of a text, and where that is. -/
structure Cursor where
  rest : List Char
  index : Nat
  line : Nat
  column : Nat
  deriving Repr

namespace Cursor

def start (s : List Char) : Cursor := ⟨s, 0, 0, 0⟩

/-- A character that starts a line of the file. Breaks of other kinds stand in a line. -/
def endsFileLine (x : Char) (rest : List Char) : Bool :=
  x = '\n' || (x = '\r' && rest.head? != some '\n')

/-- One character further. A mark of byte order takes no column. -/
def next (c : Cursor) : Cursor :=
  match c.rest with
  | [] => c
  | x :: rest =>
    if endsFileLine x rest then ⟨rest, c.index + 1, c.line + 1, 0⟩
    else ⟨rest, c.index + 1, c.line, if x = '\uFEFF' then c.column else c.column + 1⟩

def skip : Nat → Cursor → Cursor
  | 0, c => c
  | n + 1, c => c.next.skip n

/-- The place at which a given rest of the text is left. -/
def leaving (c : Cursor) (rest : List Char) : Cursor := c.skip (c.rest.length - rest.length)

end Cursor

end Sourcebook.Yaml
