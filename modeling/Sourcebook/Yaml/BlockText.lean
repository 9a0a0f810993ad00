-- Texts set off by their indentation: literal ones keep their lines, folded ones join
-- lines that start at the indentation.
import Sourcebook.Yaml.Quote

namespace Sourcebook.Yaml

/-- What happens to the breaks at the end of a block. -/
inductive Chomp where
  | clip
  | strip
  | keep
  deriving Repr, DecidableEq

structure BlockHeader where
  chomp : Chomp
  /-- The indentation, where it is written. -/
  width : Option Nat

def chomp? : Char → Option Chomp
  | '+' => some .keep
  | '-' => some .strip
  | _ => none

/-- The digit of an indentation, where one is written. -/
def blockWidth (s : List Char) : Reading (Option Nat × List Char) :=
  match s with
  | c :: rest =>
    if !isDigit c then .ok (none, s)
    else if c = '0' then fault "an indentation of zero"
    else .ok (some (c.toNat - '0'.toNat), rest)
  | [] => .ok (none, s)

/-- The indicators of a block: a sign and a digit in any order. -/
def blockIndicators (s : List Char) : Reading (BlockHeader × List Char) :=
  match s with
  | [] => .ok (⟨.clip, none⟩, [])
  | c :: rest =>
    match chomp? c with
    | some chomp => do
      let (w, rest) ← blockWidth rest
      return (⟨chomp, w⟩, rest)
    | none => do
      let (w, rest) ← blockWidth s
      match w, rest with
      | some w, d :: more =>
        match chomp? d with
        | some chomp => return (⟨chomp, some w⟩, more)
        | none => return (⟨.clip, some w⟩, rest)
      | w, rest => return (⟨.clip, w⟩, rest)

/-- The rest of the line of a header: spaces and a comment. -/
def headerEnd (s : List Char) : Reading (List Char) :=
  if !lineAhead s then fault "unexpected text after a block indicator"
  else
    let s := s.dropWhile (· = ' ')
    let s := if s.head? == some '#' then toBreak s else s
    if breakAhead s then .ok (dropBreak s) else fault "unexpected text after a block indicator"

/-! ## Blank lines -/

/-- Blank lines before a block: their breaks, the place behind them, the column of the
first break and the widest column of a space. -/
structure BlockStart where
  breaks : List Char
  cursor : Cursor
  first : Option Nat
  widest : Nat

def blockStart (first : Option Nat) (widest : Nat) : Nat → Cursor → BlockStart
  | 0, c => ⟨[], c, first, widest⟩
  | fuel + 1, c =>
    match c.rest with
    | [] => ⟨[], c, first, widest⟩
    | x :: rest =>
      if x = ' ' then blockStart first (max widest c.next.column) fuel c.next
      else if x = '\r' && rest.head? == some '\n' then
        blockStart (first.or (some c.column)) widest fuel c.next
      else if isBreak x then
        let b := blockStart (first.or (some c.column)) widest fuel c.next
        { b with breaks := breakChar x :: b.breaks }
      else ⟨[], c, first, widest⟩

/-- Blank lines inside a block. Spaces count up to the indentation. -/
def blockBreaks (indent : Nat) : Nat → Cursor → List Char × Cursor
  | 0, c => ([], c)
  | fuel + 1, c =>
    match c.rest with
    | [] => ([], c)
    | x :: rest =>
      if x = ' ' && c.column < indent then blockBreaks indent fuel c.next
      else if x = '\r' && rest.head? == some '\n' then blockBreaks indent fuel c.next
      else if isBreak x then
        let (breaks, c) := blockBreaks indent fuel c.next
        (breakChar x :: breaks, c)
      else ([], c)

def breaksAt (indent : Nat) (c : Cursor) : List Char × Cursor :=
  blockBreaks indent (c.rest.length + 1) c

/-! ## Lines -/

def startsBlank (s : List Char) : Bool := s.head? == some ' ' || s.head? == some '\t'

/-- What stands between two lines: in a folded block the break between two lines that
start at the indentation is a space, or is dropped where blank lines follow it. -/
def blockJoint (isFolded : Bool) (line next breaks ending : List Char) : List Char :=
  if isFolded && ending == ['\n'] && !startsBlank line && !startsBlank next then
    (if breaks.isEmpty then [' '] else []) ++ breaks
  else ending ++ breaks

/-- The lines of a block: their text, the break of the last one, the breaks after it, and
the place behind them. -/
structure BlockLines where
  text : List Char
  ending : List Char
  trailing : List Char
  cursor : Cursor

/-- A line of a block stands here. -/
def atBlockLine (top : Bool) (indent : Nat) (c : Cursor) : Bool :=
  !c.rest.isEmpty && c.column = indent && !(top && c.column = 0 && atDocumentMark c.rest)

/-- The lines of a block from one that stands at the indentation. -/
def blockLines (isFolded top : Bool) (indent : Nat) : Nat → Cursor → BlockLines
  | 0, c => ⟨[], [], [], c⟩
  | fuel + 1, c =>
    let line := c.rest.takeWhile (fun x => !isBreak x)
    let behind := c.skip line.length
    let ending := (behind.rest.take 1).map breakChar
    let (breaks, next) := breaksAt indent (behind.leaving (dropBreak behind.rest))
    if !atBlockLine top indent next then ⟨line, ending, breaks, next⟩
    else
      let more := blockLines isFolded top indent fuel next
      { more with text := line ++ blockJoint isFolded line next.rest breaks ending ++ more.text }

/-- The text of a block that starts with blank lines. -/
def blockBody (isFolded top : Bool) (indent : Nat) (chomp : Chomp) (breaks : List Char)
    (c : Cursor) : List Char × Cursor :=
  let lines : BlockLines :=
    if c.column = indent && !c.rest.isEmpty then
      let lines := blockLines isFolded top indent (c.rest.length + 1) c
      { lines with text := breaks ++ lines.text }
    else ⟨[], [], breaks, c⟩
  (match chomp with
    | .clip => lines.text ++ lines.ending
    | .strip => lines.text
    | .keep => lines.text ++ lines.ending ++ lines.trailing,
    lines.cursor)

/-- A block from behind its indicator on. The surrounding indentation is one less than
the least that the block may have. -/
def blockText (isFolded : Bool) (least : Nat) (c : Cursor) : Reading (List Char × Cursor) := do
  let (header, s) ← blockIndicators c.rest
  let c := c.leaving (← headerEnd s)
  match header.width with
  | none =>
    let b := blockStart none 0 (c.rest.length + 1) c
    if (b.first.getD 0) != 0 && b.first.getD 0 < b.widest then
      fault "a first line that is indented less than a later one"
    else return blockBody isFolded (least == 0) (max least b.widest) header.chomp b.breaks b.cursor
  | some width =>
    let indent := max 1 least + width - 1
    let (breaks, c) := breaksAt indent c
    return blockBody isFolded false indent header.chomp breaks c

end Sourcebook.Yaml
