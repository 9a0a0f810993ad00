-- Patterns that select entries below a directory, part by part. Two stars alone in a
-- part stand for any number of directories.
import Sourcebook.Disk.Basic
import Sourcebook.Text.Wildcard

namespace Sourcebook

/-- One part of a pattern. -/
inductive GlobPart where
  | anyDepth
  | matching (pattern : List Char)
  | named (name : String)
  /-- A slash at the end: what comes before must be a directory. -/
  | here
  deriving Repr, DecidableEq

inductive GlobError where
  | empty
  | absolute
  | starsInPart
  | noParts
  /-- Nothing but dots and slashes, with a slash at the end. -/
  | onlySlash
  | trouble (t : Trouble)
  deriving Repr, DecidableEq

def GlobError.message : GlobError → String
  | .empty => "Unacceptable pattern: ''"
  | .absolute => "Non-relative patterns are unsupported"
  | .starsInPart => "Invalid pattern: '**' can only be an entire path component"
  | .noParts => "tuple index out of range"
  | .onlySlash => "'_TerminatingSelector' object has no attribute 'select_from'"
  | .trouble t => t.message

namespace Glob

def hasTwoStars : List Char → Bool
  | '*' :: '*' :: _ => true
  | _ :: s => hasTwoStars s
  | [] => false

def isWild (s : List Char) : Bool := s.any (fun c => c = '*' || c = '?' || c = '[')

def part (s : String) : Except GlobError GlobPart :=
  let cs := s.toList
  if cs = ['*', '*'] then .ok .anyDepth
  else if hasTwoStars cs then .error .starsInPart
  else if isWild cs then .ok (.matching cs)
  else .ok (.named s)

def parse (pattern : String) : Except GlobError (List GlobPart) :=
  let p := Path.ofString pattern
  let slashed := pattern.toList.getLast? == some '/'
  if pattern.isEmpty then .error .empty
  else if p.isAbsolute then .error .absolute
  else if p.parts.isEmpty then .error (if slashed then .onlySlash else .noParts)
  else do
    let parts ← p.parts.mapM part
    return if slashed then parts ++ [.here] else parts

/-! ## Selecting -/

/-- The path that is reached from a directory by parts, as they are spelled. -/
def placed (root : Location) (spelled : List String) : Path := ⟨.single, root ++ spelled⟩

/-- The place that a spelled path leads to, if every step leads on. -/
def reached? (d : Disk) (root : Location) (spelled : List String) : Option Location :=
  (d.follow [] (root ++ spelled)).toOption

/-- The names in the directory at the end of a spelled path that a wildcard matches; of
directories alone where more parts follow. -/
def namesAt (d : Disk) (root : Location) (spelled : List String) (w : List Char) (more : Bool) :
    List String :=
  match reached? d root spelled with
  | none => []
  | some l =>
    (d.children l).filter fun n =>
      (!more || d.isDirAt (l ++ [n])) && Text.wildcardMatch w n.toList

def directoriesAt (d : Disk) (root : Location) (spelled : List String) : List (List String) :=
  match reached? d root spelled with
  | none => []
  | some l => d.directoriesBelow l

/-- What is selected from each of several starts. -/
def fromEach {α : Type} (starts : List α) (f : α → Except Trouble (List (List String))) :
    Except Trouble (List (List String)) :=
  (starts.mapM f).map (·.flatten)

/-- The spelled paths that a pattern selects from one on. A part with more after it
selects directories alone. -/
def select (d : Disk) (root : Location) :
    List GlobPart → List String → Except Trouble (List (List String))
  | [], spelled => .ok [spelled]
  | .here :: _, spelled => .ok [spelled]
  | .named n :: rest, spelled => do
    let p := spelled ++ [n]
    let fits ← if rest.isEmpty then d.pathExists (placed root p) else d.isDir (placed root p)
    if fits then select d root rest p else return []
  | .matching w :: rest, spelled =>
    fromEach (namesAt d root spelled w !rest.isEmpty) fun n => select d root rest (spelled ++ [n])
  | .anyDepth :: rest, spelled =>
    (fromEach (directoriesAt d root spelled) fun below =>
      select d root rest (spelled ++ below)).map (·.eraseDups)

/-- What a pattern selects below a directory, as spelled paths. -/
def run (d : Disk) (root : Location) (parts : List GlobPart) :
    Except Trouble (List (List String)) :=
  if d.isDirAt root then select d root parts [] else .ok []

end Glob

end Sourcebook
