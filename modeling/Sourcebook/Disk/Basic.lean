-- A file system as a value: which entry stands at which place. Runs read it and give
-- back the file system that they leave.
import Sourcebook.Disk.Path
import Sourcebook.Text.Quoted

namespace Sourcebook

inductive Entry where
  | directory
  | file (bytes : List UInt8)
  deriving Repr, DecidableEq

/-- The entries by place. The root is a directory that need not be listed, and the
first entry of a place counts. -/
structure Disk where
  entries : List (Location × Entry)
  deriving Repr, Inhabited

/-- Why a file operation fails. -/
inductive TroubleKind where
  | missing
  | exists
  | notDirectory
  | isDirectory
  | tooLong
  deriving Repr, DecidableEq

/-- A failed file operation, with the path as the message shows it. -/
structure Trouble where
  kind : TroubleKind
  shown : String
  deriving Repr, DecidableEq

def TroubleKind.text : TroubleKind → String
  | .missing => "[Errno 2] No such file or directory"
  | .exists => "[Errno 17] File exists"
  | .notDirectory => "[Errno 20] Not a directory"
  | .isDirectory => "[Errno 21] Is a directory"
  | .tooLong => "[Errno 36] File name too long"

def Trouble.message (t : Trouble) : String := t.kind.text ++ ": " ++ t.shown

def Trouble.on (kind : TroubleKind) (p : Path) : Trouble := ⟨kind, Text.quotedText p.text⟩

namespace Disk

/-! ## Looking -/

def get? (d : Disk) (l : Location) : Option Entry :=
  if l = [] then some .directory else d.entries.lookup l

def isDirAt (d : Disk) (l : Location) : Bool := d.get? l == some .directory

/-- A name in a directory has at most this many bytes. -/
def maxName : Nat := 255

/-- A whole path has fewer bytes than this. -/
def pathLimit : Nat := 4096

/-- Follows the parts of a path. Every place that a part leaves must be a directory, and
a name that is too long is noticed where it is looked up. -/
def follow (d : Disk) : Location → List String → Except TroubleKind Location
  | l, [] => .ok l
  | l, part :: rest =>
    match d.get? l with
    | none => .error .missing
    | some (.file _) => .error .notDirectory
    | some .directory =>
      if maxName < part.utf8ByteSize then .error .tooLong
      else d.follow (Location.step l part) rest

/-- The place that a path leads to. -/
def locate (d : Disk) (p : Path) : Except TroubleKind Location :=
  if pathLimit ≤ p.text.utf8ByteSize then .error .tooLong else d.follow [] p.parts

/-- The entry that a path leads to, if there is one. Only a name that is too long is
trouble. -/
def find? (d : Disk) (p : Path) : Except Trouble (Option Entry) :=
  if p.hasNull then .ok none
  else
    match d.locate p with
    | .ok l => .ok (d.get? l)
    | .error .tooLong => .error (.on .tooLong p)
    | .error _ => .ok none

def pathExists (d : Disk) (p : Path) : Except Trouble Bool := (d.find? p).map (·.isSome)

def isDir (d : Disk) (p : Path) : Except Trouble Bool := (d.find? p).map (· == some .directory)

def holdsFile : Option Entry → Bool
  | some (.file _) => true
  | _ => false

def isFile (d : Disk) (p : Path) : Except Trouble Bool := (d.find? p).map holdsFile

def read (d : Disk) (p : Path) : Except Trouble (List UInt8) :=
  match d.locate p with
  | .error k => .error (.on k p)
  | .ok l =>
    match d.get? l with
    | none => .error (.on .missing p)
    | some .directory => .error (.on .isDirectory p)
    | some (.file bytes) => .ok bytes

/-- The names that stand in a directory. -/
def children (d : Disk) (l : Location) : List String :=
  d.entries.filterMap fun e =>
    match Location.below? l e.1 with
    | some [name] => some name
    | _ => none

/-- The directories at or below a place, as seen from it. -/
def directoriesBelow (d : Disk) (l : Location) : List (List String) :=
  [] :: d.entries.filterMap fun e =>
    match Location.below? l e.1, e.2 with
    | some (name :: more), .directory => some (name :: more)
    | _, _ => none

/-! ## Changing -/

/-- Puts an entry at a place, instead of what stands there. -/
def put (d : Disk) (l : Location) (e : Entry) : Disk :=
  ⟨(l, e) :: d.entries.filter (fun x => x.1 != l)⟩

/-- Takes away a place and all that is below it. -/
def removeTree (d : Disk) (l : Location) : Disk :=
  ⟨d.entries.filter (fun x => !l.isPrefixOf x.1)⟩

/-- The place at which a new entry of a path would stand. -/
def target (d : Disk) (p : Path) : Except Trouble Location :=
  (d.locate p).mapError (.on · p)

/-- Makes one directory, where nothing stands yet. -/
def makeDirectory (d : Disk) (p : Path) : Except Trouble Disk := do
  let l ← d.target p
  if p.parts.getLast? == some ".." || (d.get? l).isSome then .error (.on .exists p)
  else .ok (d.put l .directory)

/-- What comes of steps that leave a disk, and of what stopped them. -/
def outcome {ε : Type} : Disk × Option ε → Except ε Disk
  | (d, none) => .ok d
  | (_, some e) => .error e

/-- A directory that is there already is no trouble when it was to be made. -/
def settle (d : Disk) (p : Path) (t : Trouble) : Disk × Option Trouble :=
  match d.isDir p with
  | .ok there => (d, if there then none else some t)
  | .error t => (d, some t)

/-- Makes a directory and those above it that are missing. The parts come last first. With
trouble comes the disk after the last directory that was made. -/
def makeDirectoriesFrom (root : PathRoot) (d : Disk) : List String → Disk × Option Trouble
  | [] => (d, none)
  | part :: above =>
    let p : Path := ⟨root, (part :: above).reverse⟩
    match d.makeDirectory p with
    | .ok d => (d, none)
    | .error t =>
      if t.kind = .missing then
        match makeDirectoriesFrom root d above with
        | (d, some t) => (d, some t)
        | (d, none) =>
          match d.makeDirectory p with
          | .ok d => (d, none)
          | .error t => if t.kind = .missing then (d, some t) else d.settle p t
      else d.settle p t

/-- Makes the directory of a path, with the disk that is left where that fails. -/
def layDirectories (d : Disk) (p : Path) : Disk × Option Trouble :=
  makeDirectoriesFrom p.root d p.parts.reverse

def makeDirectories (d : Disk) (p : Path) : Except Trouble Disk := outcome (d.layDirectories p)

/-- Writes a file into a directory that is there, over a file of that name. -/
def write (d : Disk) (p : Path) (bytes : List UInt8) : Except Trouble Disk := do
  let l ← d.target p
  if d.isDirAt l then .error (.on .isDirectory p) else .ok (d.put l (.file bytes))

/-! ## Laws -/

theorem outcome_eq_ok {ε : Type} {x : Disk × Option ε} {d : Disk} :
    outcome x = .ok d ↔ x = (d, none) := by
  obtain ⟨e, _ | t⟩ := x
  · simp [outcome]
  · simp [outcome]

/-- Everything stands in a directory. -/
structure WellFormed (d : Disk) : Prop where
  parents : ∀ l e, d.get? l = some e → l ≠ [] → d.get? l.dropLast = some .directory

end Disk

end Sourcebook
