-- How code is made ready for a page: captured lines lose what they share at the left,
-- and included files may lose their comments.
import Sourcebook.Text.Blank
import Sourcebook.Text.Lines

namespace Sourcebook.Snippet

open Text

/-! ## Indentation -/

/-- The number of blanks that a line starts with. -/
def indentOf (line : List Char) : Nat := (line.takeWhile isBlank).length

/-- The lines from the first to the last that is not blank. -/
def core (lines : List (List Char)) : List (List Char) :=
  ((lines.dropWhile allBlank).reverse.dropWhile allBlank).reverse

/-- The blanks that every line has at its start. Blank lines do not count. -/
def sharedIndent (lines : List (List Char)) : Nat :=
  (((lines.filter (!allBlank ·)).map indentOf).min?).getD 0

/-- A line without its first characters; a blank line becomes empty. -/
def moveLeft (indent : Nat) (line : List Char) : List Char :=
  if allBlank line then [] else line.drop indent

/-- Drops the blank lines at both ends and the indentation that the lines share. -/
def dedentLines (lines : List (List Char)) : List (List Char) :=
  let body := core lines
  body.map (moveLeft (sharedIndent body))

def dedent (lines : List (List Char)) : List Char := joinLines (dedentLines lines)

/-! ## Comments -/

/-- A block comment that has begun is closed further on. -/
def closes : List Char → Bool
  | '*' :: '/' :: _ => true
  | _ :: s => closes s
  | [] => false

/-- Leaves out block comments. One that is never closed stays. The flag says whether
the text begins inside of one. -/
def dropBlocks : Bool → List Char → List Char
  | _, [] => []
  | true, '*' :: '/' :: s => dropBlocks false s
  | true, _ :: s => dropBlocks true s
  | false, '/' :: '*' :: s =>
    if closes s then dropBlocks true s else '/' :: '*' :: dropBlocks false s
  | false, c :: s => c :: dropBlocks false s

/-- The part of a line in front of its comment. Two slashes after a colon belong to an
address. -/
def cutLineComment (before : Char) : List Char → List Char
  | [] => []
  | c :: s => if c = '/' && s.head? == some '/' && before != ':' then [] else c :: cutLineComment c s

/-- A line without its comment and the blanks at its end. -/
def cleanLine (line : List Char) : List Char := trimEnd (cutLineComment ' ' line)

/-- A line goes when only its comment kept it from being blank. -/
def keptLine (line : List Char) : Option (List Char) :=
  let clean := cleanLine line
  if !allBlank clean || allBlank line then some clean else none

def stripComments (content : List Char) : List Char :=
  joinLines ((splitLines (dropBlocks false content)).filterMap keptLine)

end Sourcebook.Snippet
