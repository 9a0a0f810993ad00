-- Writing one text as the value of a key: without quotes where it reads back as
-- itself, in single quotes where they are enough, and else in double quotes.
import Sourcebook.Yaml.Schema

namespace Sourcebook.Yaml

/-- What an indicator may not stand beside. -/
def isWhite (c : Char) : Bool := c = '\x00' || c = ' ' || c = '\t' || isBreak c

/-- The characters that only double quotes can hold. Breaks are looked at apart. -/
def needsEscape (c : Char) : Bool :=
  (c.toNat < 0x20 && c != '\n') || (0x7F ≤ c.toNat && c.toNat < 0xA0 && c != '\x85')
    || c = '\uFEFF' || c = '\uFFFE' || c = '\uFFFF'

/-- The breaks that a written text may hold. -/
def isTextBreak (c : Char) : Bool := isBreak c && c != '\r'

def whiteAhead : List Char → Bool
  | [] => true
  | c :: _ => isWhite c

/-- A colon before white space or the end, or a number sign behind white space. -/
def hasIndicator : Bool → List Char → Bool
  | _, [] => false
  | behindWhite, c :: s =>
    (c = ':' && whiteAhead s) || (c = '#' && behindWhite) || hasIndicator (isWhite c) s

def startsIndicator : List Char → Bool
  | [] => false
  | c :: s =>
    ("#,[]&*!|>'%@\"\x7b\x7d\x60".toList.contains c) || ((c = '-' || c = '?' || c = ':') && whiteAhead s)

def startsMark : List Char → Bool
  | '-' :: '-' :: '-' :: _ => true
  | '.' :: '.' :: '.' :: _ => true
  | _ => false

/-- A text that reads back as itself without quotes. -/
def isPlainText (s : String) : Bool :=
  let cs := s.toList
  !cs.isEmpty && cs.head? != some ' ' && cs.getLast? != some ' '
    && !cs.any (fun c => needsEscape c || isTextBreak c)
    && !startsMark cs && !startsIndicator cs && !hasIndicator true cs
    && kindOf .core s = .text

/-- A space next to a break, which single quotes would lose. -/
def hasBrokenSpace : List Char → Bool
  | a :: b :: s => (a = ' ' && isTextBreak b) || (isTextBreak a && b = ' ') || hasBrokenSpace (b :: s)
  | _ => false

inductive Style where
  | plain
  | single
  | double
  deriving Repr, DecidableEq

def styleOf (s : String) : Style :=
  let cs := s.toList
  if isPlainText s then .plain
  else if cs.any (fun c => c = '\'' || c = '\n') then .double
  else if cs.any needsEscape || hasBrokenSpace cs then .double
  else .single

/-! ## Lines -/

/-- How wide a line may be, and how far the lines after the first are indented. -/
structure Width where
  columns : Nat
  indent : Nat

/-- Titles are hardly ever cut. -/
def titleWidth : Width := ⟨4096, 2⟩

def Width.newLine (w : Width) : List Char := '\n' :: List.replicate w.indent ' '

/-- The runs of characters that are alike under a test. -/
def runs (p : Char → Bool) : List Char → List (List Char)
  | [] => []
  | c :: s =>
    match runs p s with
    | (d :: run) :: rest => if p d == p c then (c :: d :: run) :: rest else [c] :: (d :: run) :: rest
    | rest => [c] :: rest

/-- A plain text by its words and the spaces between them. A word that goes beyond the
width starts a line, and a single space at the width becomes one. -/
def plainLines (w : Width) : Nat → List (List Char) → List Char
  | _, [] => []
  | column, piece :: rest =>
    if piece.head? == some ' ' then
      if piece.length = 1 && w.columns ≤ column then w.newLine ++ plainLines w w.indent rest
      else piece ++ plainLines w (column + piece.length) rest
    else if w.columns < column + piece.length && w.indent < column then
      w.newLine ++ piece ++ plainLines w (w.indent + piece.length) rest
    else piece ++ plainLines w (column + piece.length) rest

/-- What a piece of a single quoted text is made of. -/
def pieceClass (c : Char) : Nat := if c = ' ' then 0 else if isTextBreak c then 1 else 2

/-- The runs of spaces, of breaks, and of everything else. -/
def pieces : List Char → List (List Char)
  | [] => []
  | c :: s =>
    match pieces s with
    | (d :: run) :: rest =>
      if pieceClass d == pieceClass c then (c :: d :: run) :: rest else [c] :: (d :: run) :: rest
    | rest => [c] :: rest

/-- A single quoted text by its pieces. A run of breaks is followed by the indentation,
and a single space beyond the width becomes a break unless it is the last. -/
def singleLines (w : Width) : Nat → List (List Char) → List Char
  | _, [] => []
  | column, piece :: rest =>
    match piece with
    | [] => singleLines w column rest
    | c :: more =>
      if isTextBreak c then
        piece ++ List.replicate w.indent ' ' ++ singleLines w w.indent rest
      else if c = ' ' && more.isEmpty && w.columns < column && !rest.isEmpty then
        w.newLine ++ singleLines w w.indent rest
      else piece ++ singleLines w (column + piece.length) rest

/-! ## Double quotes -/

def hexUpper (width n : Nat) : List Char :=
  let ds := (Nat.toDigits 16 n).map Char.toUpper
  List.replicate (width - ds.length) '0' ++ ds

/-- The letter of an escape that has one. -/
def escapeLetter? (c : Char) : Option Char :=
  [('\x00', '0'), ('\x07', 'a'), ('\x08', 'b'), ('\t', 't'), ('\n', 'n'), ('\x0b', 'v'),
    ('\x0c', 'f'), ('\r', 'r'), ('\x1b', 'e'), ('"', '"'), ('\\', '\\'), ('\x85', 'N'),
    ('\u2028', 'L'), ('\u2029', 'P')].lookup c

def doubleChar (c : Char) : List Char :=
  match escapeLetter? c with
  | some d => ['\\', d]
  | none =>
    if !needsEscape c then [c]
    else if c.toNat ≤ 0xFF then '\\' :: 'x' :: hexUpper 2 c.toNat
    else if c.toNat ≤ 0xFFFF then '\\' :: 'u' :: hexUpper 4 c.toNat
    else '\\' :: 'U' :: hexUpper 8 c.toNat

/-! ## The text -/

/-- A text as it is written behind a key that ends in a column. The space behind the key
is part of it. -/
def writeText (w : Width) (column : Nat) (s : String) : List Char :=
  let cs := s.toList
  match styleOf s with
  | .plain => ' ' :: plainLines w (column + 1) (runs (· = ' ') cs)
  | .single => ' ' :: '\'' :: (singleLines w (column + 2) (pieces cs) ++ ['\''])
  | .double => ' ' :: '"' :: (cs.flatMap doubleChar ++ ['"'])

/-- One entry of a mapping of texts, with its line end. -/
def entryText (w : Width) (key : String) (value : String) : List Char :=
  key.toList ++ ':' :: (writeText w (key.length + 1) value ++ ['\n'])

end Sourcebook.Yaml
