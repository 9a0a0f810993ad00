-- Texts without quotes. A plain text ends at a comment, at a colon before a gap, and
-- where the indentation ends; its breaks are folded.
import Sourcebook.Yaml.Quote

namespace Sourcebook.Yaml

/-- The version of the format. The older one reads more words as values. -/
inductive Version where
  | older
  | core
  deriving Repr, DecidableEq

/-- The characters that end a plain text inside brackets. -/
def endsInside (v : Version) (c : Char) : Bool :=
  c = ',' || c = '[' || c = ']' || c = '\x7b' || c = '\x7d' || (c = '?' && v = .older)

/-- A character, with what follows it, that ends a word of a plain text. -/
def endsWord (inside : Bool) (v : Version) (c : Char) (rest : List Char) : Bool :=
  isGap c || (c = ':' && gapAhead rest) || (inside && endsInside v c)

/-- The longest word that a text starts with. -/
def plainWord (inside : Bool) (v : Version) : List Char → List Char
  | [] => []
  | c :: s => if endsWord inside v c s then [] else c :: plainWord inside v s

/-- The breaks of blank lines before a word, and how many characters they take. A document
mark on a new line leaves no text. -/
def plainBreaks : Bool → List Char → Option (List Char) × Nat
  | _, [] => (some [], 0)
  | lineStart, c :: s =>
    if lineStart && atDocumentMark (c :: s) then (none, 0)
    else if c = ' ' || (c = '\r' && s.head? == some '\n') then
      let (breaks, n) := plainBreaks false s
      (breaks, n + 1)
    else if isBreak c then
      let (breaks, n) := plainBreaks true s
      (breaks.map (breakChar c :: ·), n + 1)
    else (some [], 0)

/-- What lies between two words: its folded text, and whether a line ended in it. -/
structure PlainGap where
  text : List Char
  broken : Bool
  /-- How many characters it takes. -/
  size : Nat

def plainGap (s : List Char) : PlainGap :=
  let blanks := s.takeWhile (· = ' ')
  match s.dropWhile (· = ' ') with
  | [] => ⟨blanks, false, blanks.length⟩
  | c :: rest =>
    if isBreak c then
      let after := dropBreak (c :: rest)
      let (breaks, n) := plainBreaks true after
      ⟨((breaks.map (folded (breakChar c))).getD []), true, s.length - after.length + n⟩
    else ⟨blanks, false, blanks.length⟩

/-- A plain text as far as it is read, the place behind it, and whether a line ended
behind its last word. -/
structure PlainPart where
  text : List Char
  cursor : Cursor
  broken : Bool

/-- The words from here on with the gaps between them. The gap before them comes with
the first. -/
def plainFrom (inside : Bool) (v : Version) (indent : Nat) : Nat → PlainGap → Cursor → PlainPart
  | 0, gap, c => ⟨[], c, gap.broken⟩
  | fuel + 1, gap, c =>
    match plainWord inside v c.rest with
    | [] => ⟨[], c, gap.broken⟩
    | word =>
      let behind := c.skip word.length
      let g := plainGap behind.rest
      let next := behind.skip g.size
      if g.text.isEmpty || next.rest.head? == some '#' || (!inside && next.column < indent) then
        ⟨gap.text ++ word, next, g.broken⟩
      else
        let part := plainFrom inside v indent fuel g next
        { part with text := gap.text ++ word ++ part.text }

def plainText (inside : Bool) (v : Version) (indent : Nat) (c : Cursor) : PlainPart :=
  plainFrom inside v indent (c.rest.length + 1) ⟨[], false, 0⟩ c

/-- A character that a plain text may start with. -/
def startsPlain (inside : Bool) (v : Version) (c : Char) (rest : List Char) : Bool :=
  let indicators := [',', '[', ']', '\x7b', '\x7d', '#', '&', '*', '!', '|', '>', '\'', '"', '%',
    '@', '\x60']
  let spaceAhead := match rest with
    | d :: _ => d = ' ' || d = '\t'
    | [] => false
  if c = '-' then !gapAhead rest
  else if c = ':' then
    if inside then v = .core && !spaceAhead else !gapAhead rest
  else if c = '?' then !inside && !gapAhead rest
  else !(c = ' ' || c = '\t' || isBreak c || indicators.contains c)

end Sourcebook.Yaml
