-- The program: it reads the part of the file system that a run looks at, runs, and
-- writes what the run changed.
import Sourcebook.Reach

namespace Sourcebook

namespace Program

/-! ## Reading -/

/-- The entry at a place. What cannot be read is left out. -/
def entryAt (l : Location) : IO (List (Location × Entry)) := do
  try
    let here ← IO.FS.realPath (Location.text l)
    if ← here.isDir then return [(l, .directory)]
    else return [(l, .file (← IO.FS.readBinFile here).toList)]
  catch _ => return []

/-- The names in a directory; a file has none. -/
def namesIn (l : Location) : IO (List String) := do
  try
    let here ← IO.FS.realPath (Location.text l)
    return (← here.readDir).toList.map (·.fileName)
  catch _ => return []

/-- The entries at and below a place. -/
partial def entriesBelow (l : Location) : IO (List (Location × Entry)) := do
  let mut found ← entryAt l
  for name in ← namesIn l do
    found := (← entriesBelow (l ++ [name])) ++ found
  return found

/-- The file system as far as places show it. -/
def load (places : List Location) : IO Disk := do
  let tops := Reach.tops places
  let high ← (Reach.above tops).mapM entryAt
  let low ← tops.mapM entriesBelow
  return ⟨high.flatten ++ low.flatten⟩

/-! ## Writing -/

def remove (l : Location) : Entry → IO Unit
  | .directory => IO.FS.removeDir (Location.text l)
  | .file _ => IO.FS.removeFile (Location.text l)

def write (l : Location) : Entry → IO Unit
  | .directory => IO.FS.createDirAll (Location.text l)
  | .file bytes => IO.FS.writeBinFile (Location.text l) ⟨bytes.toArray⟩

/-- Makes the file system as a run left it. -/
def settle (before after : Disk) : IO Unit := do
  for (l, e) in Reach.removed before after do remove l e
  for (l, e) in Reach.added before after do write l e

/-! ## The run -/

/-- The file system that a run needs. -/
def diskFor (cwd : Location) (o : CommandLine.Options) : IO Disk := do
  let root := o.project cwd
  let config := Reach.settingsPlaces cwd o
  let d ← load config
  match Settings.load d cwd root (o.config.map Path.ofString) o.strict with
  | .error _ => return d
  | .ok s =>
    let places := config ++ Reach.namedPlaces s
    let d ← load places
    load (places ++ Reach.sourcePlaces d s)

/-- The variables that options may come from. -/
def inherited : IO (List (String × String)) := do
  let names := ["INPUT_ROOT", "INPUT_CONFIG", "INPUT_STRICT", "INPUT_VERBOSE"]
  let values ← names.mapM fun name => do
    return (← IO.getEnv name).map fun value => (name, value)
  return values.filterMap id

def generate (o : CommandLine.Options) : IO UInt32 := do
  let cwd := (Path.ofString (← IO.currentDir).toString).normal []
  let before ← diskFor cwd o
  let outcome := CommandLine.generate before cwd o
  settle before outcome.disk
  IO.print outcome.output
  IO.eprint outcome.errors
  match outcome.failure with
  | none => return 0
  | some e =>
    IO.eprintln e.message
    return 1

end Program

end Sourcebook

/-- Runs the command that the arguments name. -/
def main (args : List String) : IO UInt32 := do
  let found ← Sourcebook.Program.inherited
  match Sourcebook.CommandLine.parse args (found.lookup ·) with
  | some options => Sourcebook.Program.generate options
  | none =>
    IO.eprintln "usage: generate [--root DIR] [--config FILE] [--strict] [--verbose]"
    return 2
