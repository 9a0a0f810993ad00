-- The reference pages that are there before a run, found below their directory.
import Sourcebook.Contents.Folder
import Sourcebook.Disk.Glob

namespace Sourcebook

namespace ReferencePage

/-- Names that are no pages of their own. -/
def skipped : List String := ["README.md", "SUMMARY.md", "index.md"]

def ofPath (path : String) : ReferencePage :=
  let name := String.ofList (stem (Path.ofString path).name.toList)
  ⟨name, name, path⟩

/-- Any depth, and then a name that ends as pages do. -/
def pattern : List GlobPart := [.anyDepth, .matching "*.md".toList]

/-- A file that is a page of its own. -/
def isPage (d : Disk) (l : Location) (spelled : List String) : Except Trouble Bool := do
  return (← d.isFile (Glob.placed l spelled)) && !skipped.contains (spelled.getLastD "")

/-- The paths of the pages below a directory. -/
def pathsBelow (d : Disk) (l : Location) : Except Trouble (List String) := do
  let found ← (← Glob.run d l pattern).filterM (isPage d l)
  return found.map ("/".intercalate ·)

/-- The pages below a directory in the order of their paths, and a warning when there
are none. A directory that is missing has no pages, without a warning. -/
def collect (d : Disk) (dir : Path) : Except Trouble (List ReferencePage × List String) := do
  if !(← d.isDir dir) then return ([], [])
  else
    let paths ← pathsBelow d (Location.walk [] dir.parts)
    match paths.mergeSort (fun a b => !decide (b < a)) with
    | [] =>
      return ([], ["No API docs found in " ++ dir.text ++ ". Was the API reference generated?"])
    | paths => return (paths.map ofPath, [])

/-- The folder of the tree that reference pages stand in. -/
def folder : String := "api"

/-- The way to the folder of a page in the tree. -/
def way (p : ReferencePage) : List String := folder :: (Tree.segments p.path).dropLast

/-- Puts reference pages into the tree, where there are any. -/
def attach (t : Tree) (dir : Path) (pages : List ReferencePage) : Tree :=
  if pages.isEmpty then t
  else pages.foldl (fun t p => t.addPage p p.way) (t.mount [folder] dir)

end ReferencePage

end Sourcebook
