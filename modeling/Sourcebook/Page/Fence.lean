-- Blocks as Markdown: prose as it is, code between fences, and code blocks as tabs.
import Sourcebook.Book.Chapter
import Sourcebook.Disk.Path
import Sourcebook.Text.Lines

namespace Sourcebook

/-- The mark that fences are made of. -/
def fenceMark : Char := '\x60'

namespace Fence

/-- The length of the longest run of marks, when a run of some marks comes before. -/
def longestRun (current : Nat) : List Char → Nat
  | [] => current
  | c :: s => if c = fenceMark then longestRun (current + 1) s else max current (longestRun 0 s)

/-- A fence has three marks at least, and one more than any run of marks inside. -/
def size (content : List Char) : Nat := max 3 (longestRun 0 content + 1)

def marks (content : List Char) : List Char := List.replicate (size content) fenceMark

/-- Code between fences, with its language behind the first. -/
def write (language content : List Char) : List Char :=
  marks content ++ language ++ '\n' :: (content ++ '\n' :: marks content)

/-! ## Reading -/

/-- A line of marks and nothing else closes a fence when it has enough of them. -/
def isClosing (n : Nat) (line : List Char) : Bool := n ≤ line.length && line.all (· = fenceMark)

/-- The lines up to the one that closes a fence, and the lines after it. -/
def body (n : Nat) : List (List Char) → Option (List (List Char) × List (List Char))
  | [] => none
  | line :: rest =>
    if isClosing n line then some ([], rest)
    else (body n rest).map fun p => (line :: p.1, p.2)

/-- The language and the content of the fenced code that lines start with, and the lines
after it. -/
def read : List (List Char) → Option (List Char × List Char × List (List Char))
  | [] => none
  | line :: rest =>
    let n := (line.takeWhile (· = fenceMark)).length
    if n < 3 then none
    else (body n rest).map fun p => (line.drop n, Text.joinLines p.1, p.2)

end Fence

namespace Tabs

def opening : List Char := "\x7b% tabs %\x7d".toList
def ending : List Char := "\x7b% endtabs %\x7d".toList
def tabStart : List Char := "\x7b% tab title=\"".toList
def tabStartEnd : List Char := "\" %\x7d".toList
def tabEnd : List Char := "\x7b% endtab %\x7d".toList

/-- A label cannot hold a double quote. -/
def label (title : List Char) : List Char := title.map fun c => if c = '"' then '\'' else c

/-- The title of a tab: its own, or the name of its file. -/
def titleOf (c : Code) : List Char :=
  match c.title with
  | none => (Path.ofString c.sourceFile).name.toList
  | some t => if t.isEmpty then (Path.ofString c.sourceFile).name.toList else t.toList

def writeTab (c : Code) : List (List Char) :=
  [tabStart ++ label (titleOf c) ++ tabStartEnd,
    Fence.write c.language.toList c.content.toList, tabEnd]

def write (tabs : List Code) : List Char :=
  Text.joinLines (opening :: (tabs.flatMap writeTab ++ [ending]))

/-! ## Reading -/

/-- What is read of a tab. -/
structure Tab where
  label : List Char
  language : List Char
  content : List Char
  deriving Repr, DecidableEq

/-- What follows a text at the front of another one. -/
def after? (front s : List Char) : Option (List Char) :=
  if front.isPrefixOf s then some (s.drop front.length) else none

/-- The label that a tab starts with, and what follows its line. A label goes on to the next
double quote, on whatever line that stands. -/
def readLabel (s : List Char) : Option (List Char × List Char) := do
  let s ← after? tabStart s
  let rest ← after? (tabStartEnd ++ ['\n']) (s.dropWhile (· != '"'))
  return (s.takeWhile (· != '"'), rest)

/-- A tab, and what follows the line that ends it. -/
def readTab (s : List Char) : Option (Tab × List Char) := do
  let (label, s) ← readLabel s
  let (language, content, rest) ← Fence.read (Text.splitLines s)
  match rest with
  | [] => none
  | line :: rest =>
    if line = tabEnd then some (⟨label, language, content⟩, Text.joinLines rest) else none

/-- The tabs up to the end of the container. The number bounds how many there can be. -/
def readTabs : Nat → List Char → Option (List Tab)
  | 0, _ => none
  | n + 1, s =>
    if s = ending then some []
    else do
      let (tab, s) ← readTab s
      return tab :: (← readTabs n s)

/-- The tabs of a container. -/
def read (s : List Char) : Option (List Tab) := do
  let s ← after? (opening ++ ['\n']) s
  readTabs s.length s

end Tabs

/-- A block as Markdown, without a line feed at its end. -/
def Block.render : Block → String
  | .prose content => content
  | .code c => String.ofList (Fence.write c.language.toList c.content.toList)
  | .tabs _ members => String.ofList (Tabs.write members)

end Sourcebook
