-- A book is what the events of all its files add up to.
import Sourcebook.Book.Event

namespace Sourcebook

structure Book where
  /-- Chapters in the order in which they were first declared. -/
  chapters : List Chapter
  notices : List Notice
  /-- The files that were read to their end. -/
  files : List Location
  deriving Repr, DecidableEq

namespace Book

def empty : Book := ⟨[], [], []⟩

def warnings (b : Book) : List String := b.notices.filterMap Notice.warning?

def find? (b : Book) (id : String) : Option Chapter := b.chapters.find? (·.id == id)

/-- Chapters by priority. Chapters of one priority keep their order. -/
def ordered (b : Book) : List Chapter := b.chapters.mergeSort (fun x y => x.priority ≤ y.priority)

def remark (b : Book) (n : Notice) : Book := { b with notices := b.notices ++ [n] }

def warn (b : Book) (text : String) : Book := b.remark (.warning text)

def updateChapter (b : Book) (id : String) (f : Chapter → Chapter) : Book :=
  { b with chapters := b.chapters.map fun c => if c.id = id then f c else c }

def updateBlocks (b : Book) (id heading : String) (f : List Block → List Block) : Book :=
  b.updateChapter id fun c => { c with sections := Section.update heading f c.sections }

/-! ## Declarations -/

/-- The directory of a file as seen from the root; empty outside of it. -/
def sourceDir (root source : Location) : String :=
  match Location.below? root (Location.parent source) with
  | some names => "/".intercalate names
  | none => ""

def newChapter (root source : Location) (id title : String) : Chapter :=
  ⟨id, title, Location.text source, sourceDir root source, defaultPriority, [], none⟩

/-- Another file declares the chapter, under another title. -/
def conflicts (c : Chapter) (source : Location) (title : String) : Bool :=
  c.sourceFile != Location.text source && c.title != title

def conflictText (c : Chapter) (source : Location) (line : Nat) : String :=
  Location.text source ++ ":" ++ toString line ++ ": chapter '" ++ c.id ++ "' already declared as '"
    ++ c.title ++ "' in " ++ c.sourceFile ++ "; keeping the first"

/-- The first declaration of a chapter counts. One that conflicts with it is an error
when the book is strict, and a warning otherwise. -/
def declare (b : Book) (s : Settings) (source : Location) (line : Nat) (id title : String) :
    Except String Book :=
  match b.find? id with
  | none => .ok { b with chapters := b.chapters ++ [newChapter s.root source id title] }
  | some c =>
    if !conflicts c source title then .ok b
    else if s.strict then .error (conflictText c source line)
    else .ok (b.warn (conflictText c source line))

/-! ## Events -/

/-- What one event adds. An error is the text of a conflict between declarations. -/
def apply (s : Settings) (b : Book) : Event → Except String Book
  | .declare source line id title => b.declare s source line id title
  | .enter id heading => .ok (b.updateBlocks id heading (fun blocks => blocks))
  | .rank id n => .ok (b.updateChapter id fun c => { c with priority := n })
  | .prose id heading text => .ok (b.updateBlocks id heading (Block.addProse · text))
  | .code id heading code group => .ok (b.updateBlocks id heading (Block.addCode · code group))
  | .notice n => .ok (b.remark n)
  | .listed _ => .ok b

end Book

/-! ## Reading files -/

/-- Why the reading of a file ends early. -/
inductive ScanError where
  | conflict (text : String)
  | lookup (error : LookupError)
  deriving Repr, DecidableEq

def ScanError.message : ScanError → String
  | .conflict text => text
  | .lookup e => e.message

/-- A book in the making, with the list of files that includes are sought in. -/
structure Desk where
  book : Book
  listed : Option (List Location)

namespace Desk

def start : Desk := ⟨.empty, none⟩

def apply (s : Settings) (d : Desk) (e : Event) : Except String Desk := do
  let book ← d.book.apply s e
  let listed := match e with
    | .listed files => some files
    | _ => d.listed
  return ⟨book, listed⟩

/-- Applies events up to the first conflict. -/
def applyAll (s : Settings) (d : Desk) : List Event → Desk × Option String
  | [] => (d, none)
  | e :: rest =>
    match d.apply s e with
    | .error text => (d, some text)
    | .ok d => d.applyAll s rest

/-- Reads a text that stands at a place. The place is listed when the text was read to
its end. -/
def readText (disk : Disk) (s : Settings) (d : Desk) (source : Location) (text : List Char) :
    Desk × Option ScanError :=
  let (events, stop) := Event.ofText ⟨disk, s, d.listed⟩ source text
  match d.applyAll s events with
  | (d, some conflict) => (d, some (.conflict conflict))
  | (d, none) =>
    match stop with
    | some e => (d, some (.lookup e))
    | none => ({ d with book := { d.book with files := d.book.files ++ [source] } }, none)

/-- Why a file is not read at all. -/
inductive FileError where
  | trouble (t : Trouble)
  | undecodable (u : Text.Undecodable)
  | scan (e : ScanError)
  deriving Repr, DecidableEq

/-- Reads a text as if it stood at a path. -/
def readTextAt (disk : Disk) (s : Settings) (d : Desk) (p : Path) (text : List Char) :
    Desk × Option ScanError :=
  if p.hasNull then (d, some (.lookup .nullInPath)) else d.readText disk s (p.normal []) text

/-- A search that runs into trouble is trouble with the file that needs it. -/
def FileError.ofScan : ScanError → FileError
  | .lookup (.trouble t) => .trouble t
  | .lookup (.glob (.trouble t)) => .trouble t
  | e => .scan e

def readSource (disk : Disk) (s : Settings) (d : Desk) (p : Path) : Desk × Option FileError :=
  if p.hasNull then (d, some (.scan (.lookup .nullInPath)))
  else
    match disk.read p with
    | .error t => (d, some (.trouble t))
    | .ok bytes =>
      match Text.decodeFile bytes with
      | .error u => (d, some (.undecodable u))
      | .ok text =>
        let (d, e) := d.readTextAt disk s p text
        (d, e.map FileError.ofScan)

/-- Reads files in turn. A file that cannot be read to its end is reported and not
listed; what it added before stays. -/
def readSources (disk : Disk) (s : Settings) (d : Desk) : List Location → Desk × Option ScanError
  | [] => (d, none)
  | l :: rest =>
    let unread (d : Desk) (reason : String) : Desk :=
      { d with book := d.book.warn (Location.text l ++ ": cannot read file: " ++ reason) }
    match d.readSource disk s (Path.ofLocation l) with
    | (d, none) => d.readSources disk s rest
    | (d, some (.trouble t)) => (unread d t.message).readSources disk s rest
    | (d, some (.undecodable u)) => (unread d u.message).readSources disk s rest
    | (d, some (.scan e)) => (d, some e)

end Desk

namespace Book

/-- The book of a project: every selected file is read, in order. With an error comes
the book as far as it was made. -/
def ofProject (disk : Disk) (s : Settings) : Except GlobError (List Location × Desk × Option ScanError) := do
  let files ← Discovery.files disk s
  return (files, Desk.readSources disk s ⟨.empty, some files⟩ files)

end Book

end Sourcebook
