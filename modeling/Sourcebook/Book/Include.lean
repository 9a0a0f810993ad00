-- Included files: the options of an include, and the one file that its name means.
import Sourcebook.Book.Discovery
import Sourcebook.Json.Reader

namespace Sourcebook

/-! ## Options -/

structure IncludeOptions where
  strip : Bool
  group : Option String
  tabTitle : Option String
  deriving Repr, DecidableEq

inductive OptionsError where
  | notJson (error : Json.Error)
  | notObject
  deriving Repr, DecidableEq

def OptionsError.message : OptionsError → String
  | .notJson e => e.message
  | .notObject => "include options must be a JSON object"

namespace IncludeOptions

def default : IncludeOptions := ⟨false, none, none⟩

/-- A value as an option: what counts as false is no option. -/
def named (v : Data.Value) : Option String := if v.truthy then some v.asText else none

def ofValue (v : Data.Value) : IncludeOptions where
  strip := match v.get? "strip" with
    | some (.bool true) => true
    | _ => false
  group := named (v.getD "group")
  tabTitle := named (v.getD "tabTitle")

def read (raw : Option String) : Except OptionsError IncludeOptions :=
  match raw with
  | none => .ok default
  | some text =>
    if text.isEmpty then .ok default
    else
      match Json.read text.toList with
      | .error e => .error (.notJson e)
      | .ok (.map entries) => .ok (ofValue (.map entries))
      | .ok _ => .error .notObject

end IncludeOptions

/-! ## Finding the file -/

/-- Why the search for an included file is broken off. -/
inductive LookupError where
  | glob (error : GlobError)
  | nullInPath
  | trouble (t : Trouble)
  deriving Repr, DecidableEq

def LookupError.message : LookupError → String
  | .glob e => e.message
  | .nullInPath => "embedded null byte"
  | .trouble t => t.message

/-- Where included files are sought. The selected files are listed when a search first
needs them, and the list is kept. -/
structure Shelf where
  disk : Disk
  settings : Settings
  listed : Option (List Location)

namespace Shelf

/-- A shelf of files that were found before. They are kept in the order of their parts. -/
def ofFiles (disk : Disk) (settings : Settings) (files : List Location) : Shelf :=
  ⟨disk, settings, some (files.mergeSort Location.before)⟩

def list (s : Shelf) : Except GlobError (List Location) :=
  match s.listed with
  | some files => .ok files
  | none => Discovery.files s.disk s.settings

/-- A path as seen from the root, where it lies below the root. -/
def display (s : Shelf) (l : Location) : String :=
  match Location.below? s.settings.root l with
  | some [] => "."
  | some names => "/".intercalate names
  | none => Location.text l

/-- A name alone means a file of that name, a name with slashes the end of a path. -/
def answers (target : String) (l : Location) : Bool :=
  if target.toList.contains '/' then ('/' :: target.toList).isSuffixOf (Location.text l).toList
  else Location.name l == target

def ambiguous (s : Shelf) (target : String) (found : List Location) : String :=
  "Ambiguous include '" ++ target ++ "' matches " ++ ", ".intercalate (found.map s.display)
    ++ "; using the first."

/-- What a search gives: the file, a warning when others would do as well, and the
shelf with its list. -/
structure Found where
  path : Option Path
  warning : Option String
  shelf : Shelf

def plain (s : Shelf) (path : Option Path) : Found := ⟨path, none, s⟩

/-- The path where it names a file. -/
def fileAt (s : Shelf) (p : Path) : Except LookupError (Option Path) := do
  return if ← (s.disk.isFile p).mapError .trouble then some p else none

/-- The first of the listed files that answer a name. -/
def amongListed (s : Shelf) (target : String) : Except LookupError Found :=
  match s.list with
  | .error e => .error (.glob e)
  | .ok files =>
    let s := { s with listed := some files }
    match files.filter (answers target) with
    | [] => .ok (plain s none)
    | [l] => .ok (plain s (some (Path.ofLocation l)))
    | l :: more => .ok ⟨some (Path.ofLocation l), some (ambiguous s target (l :: more)), s⟩

/-- The file that a name means in a file. An absolute path means itself, a path that
starts with a dot is seen from the file, a path with slashes from the root or else
from anywhere, and a name alone is sought among the selected files. -/
def find (s : Shelf) (target : String) (current : Path) : Except LookupError Found :=
  let p := Path.ofString target
  if p.isAbsolute then (s.fileAt p).map (plain s)
  else if target.toList.head? == some '.' then
    let near := current.parent.join p
    if near.hasNull then .error .nullInPath
    else (s.fileAt (Path.ofLocation (near.normal []))).map (plain s)
  else if target.toList.contains '/' then
    if p.hasNull then .error .nullInPath
    else do
      match ← s.fileAt (Path.ofLocation (p.normal s.settings.root)) with
      | some direct => return plain s (some direct)
      | none => s.amongListed target
  else s.amongListed target

end Shelf

end Sourcebook
