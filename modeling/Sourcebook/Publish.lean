-- A run: the book of a project is gathered, its tree arranged, the directory of the
-- pages cleared, and the pages and the table of contents are written.
import Sourcebook.Book.Basic
import Sourcebook.Contents.Arrange
import Sourcebook.Contents.Outline
import Sourcebook.Contents.Reference
import Sourcebook.Page.Basic

namespace Sourcebook

/-- A line of the log. -/
inductive LogLine where
  | detail (text : String)
  | progress (text : String)
  | warning (text : String)
  deriving Repr, DecidableEq

def Notice.log : Notice → LogLine
  | .detail text => .detail text
  | .warning text => .warning text

/-- Why a run fails. -/
inductive RunError where
  | glob (e : GlobError)
  | scan (e : ScanError)
  /-- The directory of the pages may not be cleared, or cannot be made. -/
  | output (message : String)
  | trouble (t : Trouble)
  | nullInPath
  deriving Repr, DecidableEq

def RunError.message : RunError → String
  | .glob e => e.message
  | .scan e => e.message
  | .output text => text
  | .trouble t => t.message
  | .nullInPath => LookupError.nullInPath.message

/-- What a run leaves: the file system, the paths that were written, the warnings that
it reports, and its log. -/
structure Run where
  disk : Disk
  result : Except RunError (List Path)
  warnings : List String
  log : List LogLine

namespace Publish

/-! ## The directory of the pages -/

def refusal (l : Location) : String :=
  "Refusing to clear '" ++ Location.text l ++ "': it contains the project root."

def unprepared (l : Location) (t : Trouble) : RunError :=
  .output ("Cannot prepare output directory '" ++ Location.text l ++ "': " ++ t.message)

/-- A file that stands where a directory is to be cleared. -/
def notCleared (l : Location) : Trouble :=
  ⟨.notDirectory, "PosixPath(" ++ Text.quotedText (Location.text l) ++ ")"⟩

/-- Clears the directory of the pages and makes it again. The root of the project and
what contains it is never cleared. The disk is that after the last step that was done. -/
def clear (d : Disk) (s : Settings) : Disk × Option RunError :=
  if s.outDir.hasNull then (d, some .nullInPath)
  else
    let l := s.outDir.normal []
    let remake (d : Disk) : Disk × Option RunError :=
      let (d, stop) := d.layDirectories (Path.ofLocation l)
      (d, stop.map (unprepared l))
    if l.isPrefixOf s.root then (d, some (.output (refusal l)))
    else
      match d.find? (Path.ofLocation l) with
      | .error t => (d, some (unprepared l t))
      | .ok (some (.file _)) => (d, some (unprepared l (notCleared l)))
      | .ok (some .directory) => remake (d.removeTree l)
      | .ok none => remake d

def prepare (d : Disk) (s : Settings) : Except RunError Disk := Disk.outcome (clear d s)

/-! ## Writing -/

/-- Writes a text, in a directory that is made if it is missing, also where the name of the
file can then not be written. The disk is that after the last step that was done. -/
def writeText (d : Disk) (p : Path) (text : String) : Disk × Except RunError Unit :=
  if p.parent.hasNull then (d, .error .nullInPath)
  else
    match d.layDirectories p.parent with
    | (d, some t) => (d, .error (.trouble t))
    | (d, none) =>
      if p.hasNull then (d, .error .nullInPath)
      else
        match d.write p (Text.encode text) with
        | .error t => (d, .error (.trouble t))
        | .ok d => (d, .ok ())

/-- Writes texts in turn, up to the first that fails. With the disk come the paths that
were written. -/
def writeTexts (d : Disk) : List (Path × String) → Disk × List Path × Option RunError
  | [] => (d, [], none)
  | (p, text) :: rest =>
    match writeText d p text with
    | (d, .error e) => (d, [], some e)
    | (d, .ok ()) =>
      let (d, written, stop) := writeTexts d rest
      (d, p :: written, stop)

/-- The page of a chapter as the tree left it. -/
def pageOf (s : Settings) (c : Chapter) : Path := s.outDir.join (Path.ofString (Tree.pagePath c))

def pageTexts (s : Settings) (chapters : List Chapter) : List (Path × String) :=
  chapters.map fun c => (pageOf s c, c.render)

def generated (p : Path) : LogLine := .progress ("Generated guide " ++ p.name)

/-! ## The tree -/

/-- The arranged tree of a book, the reference pages, and what was remarked on them. -/
def treeOf (d : Disk) (s : Settings) (chapters : List Chapter) :
    Except Trouble (Tree × List ReferencePage) × List Notice :=
  let tree := Tree.ofChapters (Path.ofLocation s.root) s.metaName chapters
  match ReferencePage.collect d s.apiDir with
  | .error t => (.error t, [])
  | .ok (pages, warnings) =>
    let tree := if s.apiInTree then ReferencePage.attach tree s.apiDir pages else tree
    let (tree, notices, stop) := tree.arrange d
    (match stop with
      | some t => .error t
      | none => .ok (tree, pages),
      warnings.map .warning ++ notices)

/-- Reference pages that come in a section of their own. -/
def pagesApart (s : Settings) (pages : List ReferencePage) : List ReferencePage :=
  if s.apiInTree then [] else pages

/-- The chapters as the tree left them, in the order of the pages. -/
def finished (tree : Tree) (chapters : List Chapter) : List Chapter :=
  chapters.map fun c => (tree.chapter? c.id).getD c

def counted (n : Nat) (before after : String) : String := before ++ toString n ++ after

/-- Writes everything that belongs to a tree. -/
def writeAll (d : Disk) (s : Settings) (tree : Tree) (pages : List ReferencePage)
    (chapters : List Chapter) : Disk × Except RunError (List Path) × List LogLine :=
  match clear d s with
  | (d, some e) => (d, .error e, [])
  | (d, none) =>
    match writeTexts d (pageTexts s (finished tree chapters)) with
    | (d, written, some e) => (d, .error e, written.map generated)
    | (d, written, none) =>
      match writeText d s.summaryFile (Outline.page s tree (pagesApart s pages)) with
      | (d, .error e) => (d, .error e, written.map generated)
      | (d, .ok ()) =>
        (d, .ok (written ++ [s.summaryFile]),
          written.map generated
            ++ [.progress (counted chapters.length ("Updated " ++ s.summaryFile.name ++ " with ")
              " chapters")])

def noChapters : String := "No chapters found. Did you add @chapter tags to your sources?"

/-- A run. A book that cannot be gathered reports no warnings, and a book without
chapters writes nothing. -/
def run (d : Disk) (s : Settings) : Run :=
  match Book.ofProject d s with
  | .error e => ⟨d, .error (.glob e), [], []⟩
  | .ok (files, desk, stop) =>
    let book := desk.book
    let log := .progress (counted files.length "Found " " files to scan.") :: book.notices.map Notice.log
    match stop with
    | some e => ⟨d, .error (.scan e), [], log⟩
    | none =>
      let chapters := book.ordered
      if chapters.isEmpty then ⟨d, .ok [], book.warnings, log ++ [.warning noChapters]⟩
      else
        let (arranged, notices) := treeOf d s chapters
        let (d, result, writing) := match arranged with
          | .error t => (d, .error (.trouble t), [])
          | .ok (tree, pages) => writeAll d s tree pages chapters
        ⟨d, result, book.warnings ++ notices.filterMap Notice.warning?,
          log ++ notices.map Notice.log ++ writing⟩

end Publish

end Sourcebook
