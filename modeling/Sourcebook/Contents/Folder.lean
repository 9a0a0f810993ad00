-- The tree of folders that the table of contents is made from. Folders hold chapters
-- by their identifiers, and reference pages.
import Sourcebook.Book.Chapter
import Sourcebook.Disk.Path

namespace Sourcebook

/-- A reference page that is there already. -/
structure ReferencePage where
  id : String
  title : String
  /-- The path below the directory of the reference. -/
  path : String
  deriving Repr, DecidableEq

/-- What a folder lists. -/
inductive Item where
  /-- A folder inside of it, by its name. -/
  | folder (segment : String)
  | chapter (id : String)
  | page (page : ReferencePage)
  | separator (title : String)
  deriving Repr, DecidableEq

/-- A folder without the folders inside of it. -/
structure FolderInfo where
  /-- The name in paths and links. It never changes. -/
  segment : String
  /-- The name that is shown. -/
  label : String
  /-- The directory whose override file counts. -/
  source : Path
  chapters : List String
  pages : List ReferencePage
  /-- What is listed, in order, once the folder was arranged. -/
  items : List Item
  deriving Repr, DecidableEq

/-- Folders inside of folders, in the order in which they were made. -/
inductive Folder where
  | mk (info : FolderInfo) (children : List Folder)
  deriving Repr

namespace Folder

def info : Folder → FolderInfo
  | .mk i _ => i

def children : Folder → List Folder
  | .mk _ cs => cs

def segment (f : Folder) : String := f.info.segment

def withInfo (f : Folder) (g : FolderInfo → FolderInfo) : Folder := .mk (g f.info) f.children

/-- A folder with nothing in it. -/
def new (segment : String) (source : Path) : Folder := .mk ⟨segment, segment, source, [], [], []⟩ []

/-- The directory of a folder inside, unless it is set otherwise. -/
def sourceInside (f : Folder) (segment : String) : Path :=
  ⟨f.info.source.root, f.info.source.parts ++ [segment]⟩

def child? (f : Folder) (segment : String) : Option Folder :=
  f.children.find? (·.segment == segment)

/-- Replaces the folder of a name. -/
def putChild (c : Folder) : List Folder → List Folder
  | [] => []
  | d :: rest => if d.segment = c.segment then c :: rest else d :: putChild c rest

/-- The folder at the end of a way down. -/
def find? : List String → Folder → Option Folder
  | [], f => some f
  | segment :: rest, f => (f.child? segment).bind (find? rest)

/-- Changes the folder at the end of a way down, and makes the folders on the way that
are missing. -/
def change (g : Folder → Folder) : List String → Folder → Folder
  | [], f => g f
  | segment :: rest, f =>
    match f.child? segment with
    | some c => .mk f.info (putChild (change g rest c) f.children)
    | none => .mk f.info (f.children ++ [change g rest (new segment (f.sourceInside segment))])

/-! ## Walks over the whole tree -/

mutual

/-- No chapter and no page, here or further down. -/
def isEmpty : Folder → Bool
  | .mk info children => info.chapters.isEmpty && info.pages.isEmpty && allEmpty children

def allEmpty : List Folder → Bool
  | [] => true
  | c :: rest => c.isEmpty && allEmpty rest

end

mutual

/-- Every folder with the way that leads to it, a folder before those inside. -/
def nodes (way : List String) : Folder → List (List String × Folder)
  | .mk info children => (way, .mk info children) :: nodesOf way children

def nodesOf (way : List String) : List Folder → List (List String × Folder)
  | [] => []
  | c :: rest => nodes (way ++ [c.segment]) c ++ nodesOf way rest

end

end Folder

/-- A tree of folders, its chapters, and what was remarked while it was arranged. -/
structure Tree where
  root : Folder
  /-- Each chapter once, in the order in which they came. -/
  chapters : List Chapter
  /-- Folders that stand for a directory of their own. The first mount of a folder
  fixes its place among the mounts, the last its directory. -/
  mounts : List (List String × Path)
  metaName : String

namespace Tree

/-- The segments of a path below the root of the tree. -/
def segments (path : String) : List String := Path.partsOf path.toList

def pathText (way : List String) : String := "/".intercalate way

def empty (source : Path) (metaName : String) : Tree := ⟨.new "root" source, [], [], metaName⟩

def nodes (t : Tree) : List (List String × Folder) := t.root.nodes []

/-- The folder with a path that is written as the tree writes it. -/
def node? (t : Tree) (path : String) : Option Folder :=
  (t.nodes.find? (fun n => pathText n.1 == path)).map (·.2)

def chapter? (t : Tree) (id : String) : Option Chapter := t.chapters.find? (·.id == id)

/-- Adds a chapter, or replaces the one of that identifier. -/
def putChapter (chapters : List Chapter) (c : Chapter) : List Chapter :=
  if chapters.any (·.id == c.id) then chapters.map (fun d => if d.id = c.id then c else d)
  else chapters ++ [c]

/-- Puts a chapter into a folder. -/
def addChapter (t : Tree) (c : Chapter) (way : List String) : Tree :=
  let add (i : FolderInfo) : FolderInfo :=
    if i.chapters.contains c.id then i else { i with chapters := i.chapters ++ [c.id] }
  { t with
    root := t.root.change (·.withInfo add) way
    chapters := putChapter t.chapters c }

def addPage (t : Tree) (p : ReferencePage) (way : List String) : Tree :=
  { t with root := t.root.change (·.withInfo fun i => { i with pages := i.pages ++ [p] }) way }

/-- Lets a folder stand for a directory. Folders that are made inside it afterwards
look for their override files there. -/
def mount (t : Tree) (way : List String) (dir : Path) : Tree :=
  { t with
    root := t.root.change (·.withInfo fun i => { i with source := dir }) way
    mounts :=
      if t.mounts.any (·.1 == way) then t.mounts.map (fun m => if m.1 = way then (way, dir) else m)
      else t.mounts ++ [(way, dir)] }

/-- The page of a chapter below the directory of the pages. -/
def pagePath (c : Chapter) : String :=
  let name := c.id ++ ".md"
  let dir := c.folder.getD ""
  if name.toList.head? == some '/' || dir.isEmpty then name
  else if dir.toList.getLast? == some '/' then dir ++ name
  else dir ++ "/" ++ name

/-! ## The tree of a book -/

/-- The longest way that two ways share from their start. -/
def sharedWay : List String → List String → List String
  | a :: as, b :: bs => if a = b then a :: sharedWay as bs else []
  | _, _ => []

/-- The longest way that all directories share from their start. -/
def commonWay : List (List String) → List String
  | [] => []
  | [way] => way
  | way :: rest => sharedWay way (commonWay rest)

def commonRoot (directories : List String) : String :=
  pathText (commonWay (directories.map segments))

/-- The tree of chapters below the directory that all of them share. -/
def ofChapters (root : Path) (metaName : String) (chapters : List Chapter) : Tree :=
  let common := commonRoot (chapters.map (·.sourceDir))
  let depth := (segments common).length
  chapters.foldl (fun t c => t.addChapter c ((segments c.sourceDir).drop depth))
    (empty (root.join (Path.ofString common)) metaName)

end Tree

end Sourcebook
