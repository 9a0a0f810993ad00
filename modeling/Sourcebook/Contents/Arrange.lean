-- Arranging the tree: every folder, those inside before it, lists what it holds by
-- its override file. Keys rename and order; a key with slashes hoists a chapter out of
-- a folder further down; what no key names comes sorted.
import Sourcebook.Contents.Folder
import Sourcebook.Contents.Override
import Sourcebook.Book.Event
import Sourcebook.Text.Case

namespace Sourcebook

namespace Arrange

/-- What all folders share while the tree is arranged. -/
structure Work where
  chapters : List Chapter
  notices : List Notice
  /-- Why the work stopped, if it did. What was arranged before stays. -/
  stop : Option Trouble

namespace Work

def remark (w : Work) (n : Notice) : Work := { w with notices := w.notices ++ [n] }

def warn (w : Work) (text : String) : Work := w.remark (.warning text)

def chapter? (w : Work) (id : String) : Option Chapter := w.chapters.find? (·.id == id)

def updateChapter (w : Work) (id : String) (f : Chapter → Chapter) : Work :=
  { w with chapters := w.chapters.map fun c => if c.id = id then f c else c }

/-- Gives a chapter the folder of its page, unless it has one. -/
def settle (w : Work) (folder : String) (id : String) : Work :=
  w.updateChapter id fun c => if c.folder.isNone then { c with folder := some folder } else c

end Work

/-- A folder on the way: the folder as it has become, and what is configured so far. -/
structure Draft where
  work : Work
  info : FolderInfo
  children : List Folder
  /-- The items that the keys named, in the order of the keys. -/
  configured : List Item
  /-- The names that keys have taken. -/
  used : List String
  /-- How many items come before the place of the rest. -/
  restAt : Option Nat

/-! ## What a folder holds -/

/-- The names of what a folder holds, each with its item. Empty folders do not count. -/
def available (info : FolderInfo) (children : List Folder) : List (String × Item) :=
  ((children.filter (!·.isEmpty)).map fun c => (c.segment, .folder c.segment))
    ++ info.chapters.map (fun id => (id, .chapter id))
    ++ info.pages.map (fun p => (p.id, .page p))

/-- Names that have come before, each time that they come again. -/
def repeated : List String → List String → List String
  | _, [] => []
  | seen, n :: rest => if seen.contains n then n :: repeated seen rest else repeated (n :: seen) rest

def shownPath (path : String) : String := if path.isEmpty then "/" else path

def repeatedText (path name : String) : String :=
  "'" ++ shownPath path ++ "': several entries are named '" ++ name
    ++ "'; all are listed and share its _meta.json entry"

/-! ## Keys -/

/-- Gives a folder inside another label. -/
def relabel (segment label : String) (children : List Folder) : List Folder :=
  children.map fun c => if c.segment = segment then c.withInfo fun i => { i with label := label } else c

def retitlePage (title : String) (p : ReferencePage) : ReferencePage := { p with title := title }

/-- Renames an item. Separators have no other name. -/
def Draft.rename (d : Draft) (title : String) : Item → Draft × Item
  | .folder segment =>
    ({ d with children := relabel segment title d.children }, .folder segment)
  | .chapter id =>
    ({ d with work := d.work.updateChapter id fun c => { c with title := title } }, .chapter id)
  | .page p =>
    let pages := d.info.pages.map fun q => if q = p then retitlePage title q else q
    ({ d with info := { d.info with pages := pages } }, .page (retitlePage title p))
  | .separator t => (d, .separator t)

/-- Renames an item as its override says, and lists it unless it is hidden. -/
def Draft.place (d : Draft) (o : Override) (item : Item) : Draft :=
  let (d, item) :=
    match o.title with
    | some title => if title.isEmpty then (d, item) else d.rename title item
    | none => (d, item)
  if o.hidden then d else { d with configured := d.configured ++ [item] }

/-- Takes a chapter out of the folder at the end of a way down. -/
def detach (id : String) : List String → Folder → Option Folder
  | [], f =>
    if f.info.chapters.contains id then
      some (f.withInfo fun i =>
        { i with
          chapters := i.chapters.erase id
          items := i.items.filter (· != .chapter id) })
    else none
  | segment :: rest, f => do
    let c ← f.child? segment
    let c ← detach id rest c
    return .mk f.info (Folder.putChild c f.children)

/-- The way down and the identifier that a key with slashes names. -/
def hoistKey (key : String) : List String × String :=
  let parts := (Text.splitOn '/' key.toList).map String.ofList
  (parts.dropLast, parts.getLastD "")

/-- Hoists the chapter that a key names. -/
def Draft.hoist (d : Draft) (path metaName key : String) (o : Override) : Draft :=
  let (way, id) := hoistKey key
  match detach id way (.mk d.info d.children) with
  | none =>
    { d with
      work := d.work.warn (d.info.source.text ++ "/" ++ metaName ++ ": cannot hoist '" ++ key
        ++ "', no such chapter") }
  | some f =>
    let moved : Draft :=
      { d with
        children := f.children
        info := { d.info with chapters := d.info.chapters ++ [id] }
        work := d.work.updateChapter id fun c => { c with folder := some path } }
    moved.place o (.chapter id)

/-- What one key of the override file does. -/
def Draft.key (d : Draft) (path metaName : String) (held : List (String × Item)) (key : String)
    (o : Override) : Draft :=
  if Override.isRest key then { d with restAt := some d.configured.length }
  else if Override.separates key o then
    { d with configured := d.configured ++ [.separator (o.title.getD "")] }
  else
    match (held.filter (·.1 == key)).map (·.2) with
    | [] =>
      if key.toList.contains '/' then d.hoist path metaName key o
      else
        { d with
          work := d.work.remark (.detail ("No item '" ++ key ++ "' under '" ++ shownPath path ++ "'")) }
    | items => items.foldl (fun d item => d.place o item) { d with used := key :: d.used }

/-! ## The rest -/

/-- What decides the order of items that no key names: folders first, then the folded
label, then the priority. -/
structure RestKey where
  rank : Nat
  label : List Char
  priority : Int

def RestKey.le (a b : RestKey) : Bool :=
  if a.rank != b.rank then a.rank < b.rank
  else if a.label != b.label then decide (a.label < b.label)
  else a.priority ≤ b.priority

/-- The label that an item is shown with. -/
def labelOf (children : List Folder) (chapters : List Chapter) : Item → String
  | .folder segment => ((children.find? (·.segment == segment)).map (·.info.label)).getD segment
  | .chapter id => ((chapters.find? (·.id == id)).map (·.title)).getD id
  | .page p => p.title
  | .separator t => t

def restKey (children : List Folder) (chapters : List Chapter) (item : Item) : RestKey :=
  let label := Text.foldCase (labelOf children chapters item).toList
  match item with
  | .folder _ => ⟨0, label, defaultPriority⟩
  | .chapter id =>
    ⟨1, label, ((chapters.find? (·.id == id)).map (·.priority)).getD defaultPriority⟩
  | _ => ⟨1, label, defaultPriority⟩

def sortRest (children : List Folder) (chapters : List Chapter) (items : List Item) : List Item :=
  items.mergeSort fun a b => (restKey children chapters a).le (restKey children chapters b)

/-- An empty folder is not listed. -/
def isDrained (children : List Folder) : Item → Bool
  | .folder segment => ((children.find? (·.segment == segment)).map (·.isEmpty)).getD true
  | _ => false

/-- The list of a folder: what keys name, with the rest at its place or at the end. -/
def Draft.finish (d : Draft) (held : List (String × Item)) : List Item :=
  let rest := sortRest d.children d.work.chapters
    ((held.filter fun h => !d.used.contains h.1).map (·.2))
  let n := d.restAt.getD d.configured.length
  (d.configured.take n ++ rest ++ d.configured.drop n).filter (!isDrained d.children ·)

/-! ## The pass -/

/-- Arranges one folder by its override file, when its inner folders are arranged. -/
def arrangeBy (file : OverrideFile) (metaName : String) (way : List String) (w : Work)
    (info : FolderInfo) (children : List Folder) : Work × Folder :=
  let path := Tree.pathText way
  let w := file.warnings.foldl Work.warn w
  let held := available info children
  let w := info.chapters.foldl (fun w id => w.settle path id) w
  let w := (repeated [] (held.map (·.1))).foldl (fun w n => w.warn (repeatedText path n)) w
  let start : Draft := ⟨w, info, children, [], [], none⟩
  let d := file.entries.foldl (fun d e => Draft.key d path metaName held e.1 e.2) start
  (d.work, .mk { d.info with items := d.finish held } d.children)

/-- Arranges one folder, unless the work has stopped. An override file that cannot be
looked for stops it. -/
def arrangeHere (disk : Disk) (metaName : String) (way : List String) (w : Work)
    (info : FolderInfo) (children : List Folder) : Work × Folder :=
  match w.stop, OverrideFile.read disk (info.source.join (Path.ofString metaName)) with
  | some _, _ => (w, .mk info children)
  | none, .error t => ({ w with stop := some t }, .mk info children)
  | none, .ok file => arrangeBy file metaName way w info children

mutual

/-- Arranges a folder, those inside first. -/
def arrange (disk : Disk) (metaName : String) (way : List String) (w : Work) : Folder → Work × Folder
  | .mk info children =>
    let (w, children) := arrangeAll disk metaName way w children
    arrangeHere disk metaName way w info children

def arrangeAll (disk : Disk) (metaName : String) (way : List String) (w : Work) :
    List Folder → Work × List Folder
  | [] => (w, [])
  | c :: rest =>
    let (w, c) := arrange disk metaName (way ++ [c.segment]) w c
    let (w, rest) := arrangeAll disk metaName way w rest
    (w, c :: rest)

end

end Arrange

namespace Tree

/-- Arranges every folder, and gives what was remarked. With trouble comes the tree as
far as it was arranged. -/
def arrange (t : Tree) (disk : Disk) : Tree × List Notice × Option Trouble :=
  let (w, root) := Arrange.arrange disk t.metaName [] ⟨t.chapters, [], none⟩ t.root
  ({ t with root := root, chapters := w.chapters }, w.notices, w.stop)

end Tree

end Sourcebook
