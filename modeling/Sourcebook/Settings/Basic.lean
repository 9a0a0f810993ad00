-- The settings of one run: where to look, what to leave out, and where to write.
import Sourcebook.Disk.Path

namespace Sourcebook

structure Settings where
  /-- The project. Patterns and included names are looked up below it. -/
  root : Location
  /-- Patterns that select the files to scan. -/
  selected : List String
  /-- Patterns that take files out again. -/
  excluded : List String
  /-- The directory of the pages, cleared by each run. -/
  outDir : Path
  summaryFile : Path
  /-- The directory of the reference pages that are there already. -/
  apiDir : Path
  /-- The name of the override file of a folder. -/
  metaName : String
  /-- The link at the top of the table of contents. -/
  introPage : Option String
  tocTitle : String
  /-- Two titles for one chapter stop the run. -/
  strict : Bool
  /-- Reference pages stand in the tree and not in a section of their own. -/
  apiInTree : Bool
  deriving Repr

namespace Settings

def defaultMetaName : String := "_meta.json"

/-- A path of the settings; a relative one starts at the root. -/
def placeIn (root : Location) (value : String) : Path :=
  (Path.ofLocation root).join (Path.ofString value)

def ofRoot (root : Location) : Settings where
  root := root
  selected := ["test/**/*.ts", "contracts/**/*.sol"]
  excluded := ["**/node_modules/**", "**/*.d.ts"]
  outDir := placeIn root "docs/chapters"
  summaryFile := placeIn root "docs/SUMMARY.md"
  apiDir := placeIn root "docs/api"
  metaName := defaultMetaName
  introPage := some "README.md"
  tocTitle := "Table of Contents"
  strict := false
  apiInTree := false

end Settings

end Sourcebook
