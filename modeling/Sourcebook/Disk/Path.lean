-- Paths as they are written, and locations, which are what paths lead to. A path
-- keeps its parent steps; a location has none.
import Sourcebook.Text.Lines

namespace Sourcebook

/-- The slashes that a path starts with. Two count as a root of their own, more than
two as one. -/
inductive PathRoot where
  | none
  | single
  | double
  deriving Repr, DecidableEq, Inhabited

/-- A written path. No part is empty or a dot. -/
structure Path where
  root : PathRoot
  parts : List String
  deriving Repr, DecidableEq, Inhabited

/-- The place of an entry: the names from the root of the file system on. -/
abbrev Location := List String

namespace Path

/-- The parts of a path between its slashes, without empty parts and dots. -/
def partsOf (s : List Char) : List String :=
  ((Text.splitOn '/' s).filter (fun p => !p.isEmpty && p != ['.'])).map String.ofList

def rootOf : List Char → PathRoot
  | '/' :: '/' :: '/' :: _ => .single
  | '/' :: '/' :: _ => .double
  | '/' :: _ => .single
  | _ => .none

def ofString (s : String) : Path := ⟨rootOf s.toList, partsOf s.toList⟩

def ofLocation (l : Location) : Path := ⟨.single, l⟩

def isAbsolute (p : Path) : Bool := p.root != .none

def rootText : PathRoot → String
  | .none => ""
  | .single => "/"
  | .double => "//"

def text (p : Path) : String :=
  match p.root, p.parts with
  | .none, [] => "."
  | r, parts => rootText r ++ "/".intercalate parts

/-- The second path as seen from the first; an absolute path stays what it is. -/
def join (p q : Path) : Path := if q.isAbsolute then q else ⟨p.root, p.parts ++ q.parts⟩

def parent (p : Path) : Path := ⟨p.root, p.parts.dropLast⟩

def name (p : Path) : String := p.parts.getLastD ""

end Path

/-! ## File names -/

/-- A name cut at its last dot, if the dot neither starts nor ends the name. -/
def cutExtension (name : List Char) : Option (List Char × List Char) :=
  let r := name.reverse
  let ext := (r.takeWhile (· != '.')).reverse
  match r.dropWhile (· != '.') with
  | _ :: before => if ext.isEmpty || before.isEmpty then none else some (before.reverse, ext)
  | [] => none

/-- What follows the last dot of a name. -/
def extension (name : List Char) : List Char :=
  match cutExtension name with
  | some (_, ext) => ext
  | none => []

def stem (name : List Char) : List Char :=
  match cutExtension name with
  | some (before, _) => before
  | none => name

/-! ## Locations -/

namespace Location

def text (l : Location) : String := "/" ++ "/".intercalate l

/-- One step: a parent step leaves the directory, and the root is its own parent. -/
def step (l : Location) (part : String) : Location := if part == ".." then l.dropLast else l ++ [part]

def walk (l : Location) (parts : List String) : Location := parts.foldl step l

def parent (l : Location) : Location := l.dropLast

def name (l : Location) : String := l.getLastD ""

/-- The names from a directory down to a place at or below it. -/
def below? (dir l : Location) : Option (List String) :=
  if dir.isPrefixOf l then some (l.drop dir.length) else none

def before (a b : Location) : Bool := !decide (b < a)

/-- Places in the order of their parts, each once. -/
def sorted (ls : List Location) : List Location := (ls.mergeSort before).eraseDups

/-- The length of the part that two lists share at their start. -/
def sharedLength : Location → Location → Nat
  | a :: as, b :: bs => if a = b then sharedLength as bs + 1 else 0
  | _, _ => 0

/-- The steps from one directory to another place: up to what they share, then
down. -/
def linkSteps (target start : Location) : List String :=
  let n := sharedLength start target
  List.replicate (start.length - n) ".." ++ target.drop n

/-- The link from a directory to a target. -/
def link (target start : Location) : String :=
  match linkSteps target start with
  | [] => "."
  | steps => "/".intercalate steps

end Location

/-- Where a path leads to from a working directory when no entry on the way is looked
at. -/
def Path.normal (cwd : Location) (p : Path) : Location :=
  Location.walk (if p.isAbsolute then [] else cwd) p.parts

/-- The link from one absolute path, a directory, to another. -/
def Path.link (target start : Path) : String := Location.link (target.normal []) (start.normal [])

/-- A path that holds a null character names nothing. -/
def Path.hasNull (p : Path) : Bool := p.parts.any (·.toList.contains '\x00')

/-! ## Laws -/

theorem Location.walk_append (l : Location) (xs ys : List String) :
    Location.walk l (xs ++ ys) = Location.walk (Location.walk l xs) ys := by
  simp [Location.walk, List.foldl_append]

end Sourcebook
