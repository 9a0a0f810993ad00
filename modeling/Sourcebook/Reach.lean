-- The places that a run looks at and changes, so that a program need not know the whole
-- file system.
import Sourcebook.CommandLine

namespace Sourcebook

namespace Reach

/-- Where the settings of a project are written. -/
def settingsPlaces (cwd : Location) (o : CommandLine.Options) : List Location :=
  match o.config with
  | some file => [(Path.ofString file).normal cwd]
  | none => [o.project cwd ++ [Settings.fileName]]

/-- A pattern may climb as often as it has parent steps. -/
def climbed (root : Location) (pattern : String) : Location :=
  root.take (root.length - ((Path.partsOf pattern.toList).filter (· == "..")).length)

/-- What the settings name. -/
def namedPlaces (s : Settings) : List Location :=
  s.root :: s.outDir.normal [] :: s.summaryFile.normal [] :: s.apiDir.normal []
    :: s.selected.map (climbed s.root)

/-- Where an include of a file may lead to. -/
def includePlaces (s : Settings) (source : Location) (line : List Char) : List Location :=
  match Directive.ofLine line with
  | .embed target _ =>
    let p := Path.ofString (String.ofList target)
    [p.normal (Location.parent source), p.normal s.root]
  | _ => []

/-- Where the includes of a file may lead to. -/
def filePlaces (d : Disk) (s : Settings) (source : Location) : List Location :=
  match (d.read (Path.ofLocation source)).toOption.map Text.decodeFile with
  | some (.ok text) => (sourceLines text).flatMap (includePlaces s source)
  | _ => []

/-- Where the includes of all selected files may lead to. -/
def sourcePlaces (d : Disk) (s : Settings) : List Location :=
  match Discovery.files d s with
  | .ok files => files.flatMap (filePlaces d s)
  | .error _ => []

/-- The places that are not below another one. -/
def tops (places : List Location) : List Location :=
  let places := places.eraseDups
  places.filter fun l => !places.any fun m => m != l && m.isPrefixOf l

/-- The directories above places. -/
def above (places : List Location) : List Location :=
  (places.flatMap fun l => ((List.range l.length).drop 1).map (l.take ·)).eraseDups

/-! ## What a run changed -/

/-- The places of one file system where the other has nothing, the deepest first. -/
def removed (before after : Disk) : List (Location × Entry) :=
  (before.entries.filter fun e => (after.get? e.1).isNone).mergeSort
    fun a b => b.1.length ≤ a.1.length

/-- The entries of one file system that the other did not have, the highest first. -/
def added (before after : Disk) : List (Location × Entry) :=
  (after.entries.filter fun e => before.get? e.1 != some e.2).mergeSort
    fun a b => a.1.length ≤ b.1.length

end Reach

end Sourcebook
