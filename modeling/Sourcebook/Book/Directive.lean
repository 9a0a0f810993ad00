-- What one line of an annotated file says. The forms are tried in a fixed order, and
-- the first that fits counts.
import Sourcebook.Text.Blank

namespace Sourcebook

open Text

/-- The meaning of a line. Everything but prose and plain code is read from the line
without the blanks around it. -/
inductive Directive where
  /-- Starts or continues a chapter. -/
  | declare (id title : List Char)
  /-- Switches to a section. -/
  | enter (title : List Char)
  /-- Sets the priority of the chapter. -/
  | rank (raw : List Char)
  /-- Embeds a file. -/
  | embed (target : List Char) (options : Option (List Char))
  | start (id : List Char)
  | finish (id : List Char)
  /-- A line that is left out. -/
  | ignored
  | prose
  | plain
  deriving Repr, DecidableEq

namespace Directive

/-! ## Pieces of a line -/

/-- What follows an expected text. -/
def expect : List Char → List Char → Option (List Char)
  | [], s => some s
  | c :: w, d :: s => if c = d then expect w s else none
  | _ :: _, [] => none

/-- The characters of an identifier: small letters, digits, underscores and dashes. -/
def isIdChar (c : Char) : Bool :=
  ('a' ≤ c && c ≤ 'z') || ('0' ≤ c && c ≤ '9') || c = '_' || c = '-'

/-- The part of a text in front of the last place of a character. -/
def beforeLast (c : Char) (s : List Char) : Option (List Char) :=
  match s.reverse.dropWhile (· != c) with
  | _ :: before => some before.reverse
  | [] => none

/-- What follows the slashes and the name of a directive, without blanks. -/
def afterName (slashes name : List Char) (s : List Char) : Option (List Char) := do
  let s ← expect slashes s
  let s ← expect name (trimStart s)
  return trimStart s

def chapter? (s : List Char) : Option Directive := do
  let s ← afterName ['/', '/', '/'] "@chapter:".toList s
  let id := s.takeWhile isIdChar
  match s.dropWhile isIdChar with
  | b :: rest =>
    if id.isEmpty || !isBlank b then none
    else
      match trimStart rest with
      | '"' :: rest =>
        match beforeLast '"' rest with
        | none => none
        | some title => if title.isEmpty then none else some (.declare id title)
      | _ => none
  | [] => none

def section? (s : List Char) : Option Directive := do
  match ← afterName ['/', '/', '/'] "@section:".toList s with
  | '"' :: rest => (beforeLast '"' rest).map .enter
  | _ => none

def priority? (s : List Char) : Option Directive :=
  (afterName ['/', '/', '/'] "@priority:".toList s).map .rank

/-- Options stand behind blanks and reach from a brace to the last brace that closes. -/
def options? (s : List Char) : Option (List Char) :=
  match s with
  | b :: rest =>
    if !isBlank b then none
    else
      match trimStart rest with
      | '{' :: rest => (beforeLast '}' rest).map fun inner => '{' :: (inner ++ ['}'])
      | _ => none
  | [] => none

def include? (s : List Char) : Option Directive := do
  match ← afterName ['/', '/', '/'] "@include:".toList s with
  | '"' :: rest =>
    let target := rest.takeWhile (· != '"')
    match rest.dropWhile (· != '"') with
    | _ :: rest => if target.isEmpty then none else some (.embed target (options? rest))
    | [] => none
  | _ => none

/-- An identifier behind a directive of code. -/
def marker? (name : List Char) (s : List Char) : Option (List Char) := do
  let s ← afterName ['/', '/'] name s
  match s.takeWhile isIdChar with
  | [] => none
  | id => some id

def start? (s : List Char) : Option Directive := (marker? "@start:".toList s).map .start

def finish? (s : List Char) : Option Directive := (marker? "@end:".toList s).map .finish

def ignoreMark : List Char := "// @ignore".toList

/-! ## The whole line -/

/-- The meaning of a line that has been trimmed. -/
def ofTrimmed (s : List Char) : Directive :=
  ((chapter? s).or <| (section? s).or <| (priority? s).or <| (include? s).or <|
    (start? s).or (finish? s)).getD <|
      if ignoreMark.isPrefixOf s then .ignored
      else if ['/', '/', '/'].isPrefixOf s then .prose
      else .plain

def ofLine (line : List Char) : Directive := ofTrimmed (trim line)

/-- The text of a line of prose: what follows the slashes, without one blank. -/
def proseText (line : List Char) : List Char :=
  match (trimStart line).drop 3 with
  | b :: rest => if isBlank b then rest else b :: rest
  | [] => []

/-- A line of code that asks to be left out of a capture. -/
def isMarked (line : List Char) : Bool := ignoreMark.isSuffixOf (trim line)

end Directive

end Sourcebook
