-- The table of contents: the tree as lines of links. Folders at the top are headings,
-- folders further down are links to their directories.
import Sourcebook.Contents.Folder
import Sourcebook.Settings.Basic

namespace Sourcebook

/-- An entry of the table of contents. -/
inductive OutlineEntry where
  | heading (text : String)
  | line (text : String)
  deriving Repr, DecidableEq

namespace Outline

/-- What links need to know: where things are written, and where links start. -/
structure Places where
  outDir : Path
  apiDir : Path
  /-- The directory of the table of contents. -/
  start : Path
  mounts : List (List String × Path)
  chapters : List Chapter

def Places.of (s : Settings) (t : Tree) : Places :=
  ⟨s.outDir, s.apiDir, s.summaryFile.parent, t.mounts, t.chapters⟩

/-! ## Links -/

def Places.pageLink (p : Places) (page : ReferencePage) : String :=
  Path.link (p.apiDir.join (Path.ofString page.path)) p.start

def Places.chapterLink (p : Places) (c : Chapter) : String :=
  Path.link (p.outDir.join (Path.ofString (Tree.pagePath c))) p.start

/-- A folder stands under a mount when it is mounted itself, or a folder with a name
above it is. -/
def underMount (mount way : List String) : Bool :=
  mount == way || (!mount.isEmpty && mount.isPrefixOf way)

/-- The directory of a folder: the last mount that it stands under counts. -/
def Places.directory (p : Places) (way : List String) : Path :=
  p.mounts.foldl
    (fun dir m =>
      if underMount m.1 way then m.2.join ⟨.none, way.drop m.1.length⟩ else dir)
    (p.outDir.join ⟨.none, way⟩)

def Places.folderLink (p : Places) (way : List String) : String :=
  Path.link (p.directory way) p.start ++ "/"

/-! ## Entries -/

def indent (depth : Nat) : String := String.ofList (List.replicate (2 * (depth - 1)) ' ')

def linkLine (depth : Nat) (label link : String) : OutlineEntry :=
  .line (indent depth ++ "* [" ++ label ++ "](" ++ link ++ ")")

/-- The entries of one item. The entries of the folders inside are known already. -/
def ofItem (p : Places) (way : List String) (depth : Nat) (children : List Folder)
    (inside : List (String × List OutlineEntry)) : Item → List OutlineEntry
  | .folder segment =>
    match children.find? (·.segment == segment) with
    | none => []
    | some c =>
      if c.isEmpty then []
      else
        (if depth = 0 then .heading ("## " ++ c.info.label)
          else linkLine depth c.info.label (p.folderLink (way ++ [segment])))
          :: (inside.lookup segment).getD []
  | .chapter id =>
    match p.chapters.find? (·.id == id) with
    | none => []
    | some c => [linkLine depth c.title (p.chapterLink c)]
  | .page page => [linkLine depth page.title (p.pageLink page)]
  | .separator title =>
    if depth = 0 then [.heading (if title.isEmpty then "---" else "## " ++ title)]
    else if title.isEmpty then []
    else [.line (indent depth ++ "* **" ++ title ++ "**")]

mutual

/-- The entries of a folder, without its own name. -/
def ofFolder (p : Places) (way : List String) (depth : Nat) : Folder → List OutlineEntry
  | .mk info children =>
    let inside := ofFolders p way (depth + 1) children
    info.items.flatMap (ofItem p way depth children inside)

def ofFolders (p : Places) (way : List String) (depth : Nat) :
    List Folder → List (String × List OutlineEntry)
  | [] => []
  | c :: rest => (c.segment, ofFolder p (way ++ [c.segment]) depth c) :: ofFolders p way depth rest

end

/-! ## Lines -/

/-- The lines of entries. A heading has a blank line on both sides; the flag says that
the last line was blank. -/
def layout (blank : Bool) : List OutlineEntry → List String
  | [] => []
  | .heading text :: rest => (if blank then [] else [""]) ++ text :: "" :: layout true rest
  | .line text :: rest => text :: layout false rest

def lines (s : Settings) (t : Tree) : List String :=
  layout false (ofFolder (.of s t) [] 0 t.root)

/-! ## The summary page -/

def introLine : Option String → String
  | none => ""
  | some page => if page.isEmpty then "" else "* [Introduction](" ++ page ++ ")\n"

def referenceSection (p : Places) : List ReferencePage → String
  | [] => ""
  | pages =>
    "\n## API Reference\n\n"
      ++ String.join (pages.map fun page => "* [" ++ page.title ++ "](" ++ p.pageLink page ++ ")\n")

/-- The page with the table of contents. The pages given come in a section of their
own. -/
def page (s : Settings) (t : Tree) (pages : List ReferencePage) : String :=
  "# " ++ s.tocTitle ++ "\n\n" ++ introLine s.introPage
    ++ String.join ((lines s t).map (· ++ "\n")) ++ referenceSection (.of s t) pages

end Outline

end Sourcebook
