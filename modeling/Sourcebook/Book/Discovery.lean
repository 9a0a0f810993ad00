-- Which files belong to a book: those that the settings select and do not take out.
import Sourcebook.Disk.Glob
import Sourcebook.Settings.Basic

namespace Sourcebook

/-- A pattern takes a path out when it matches the path, or the path with a slash in
front of it. -/
def isExcluded (relative : String) (patterns : List String) : Bool :=
  patterns.any fun p =>
    Text.wildcardMatch p.toList relative.toList
      || Text.wildcardMatch p.toList ('/' :: relative.toList)

namespace Discovery

/-- A selected path is a file that is not taken out. The exclusion looks at the path as
the pattern spells it. -/
def isWanted (d : Disk) (s : Settings) (spelled : List String) : Except Trouble Bool := do
  return (← d.isFile (Glob.placed s.root spelled)) && !isExcluded ("/".intercalate spelled) s.excluded

/-- The files that one pattern selects. -/
def ofPattern (d : Disk) (s : Settings) (parts : List GlobPart) : Except Trouble (List Location) := do
  let found ← (← Glob.run d s.root parts).filterM (isWanted d s)
  return found.map (Location.walk s.root)

/-- All selected files, in the order of their parts. A pattern that cannot be read or
followed stops the search. -/
def files (d : Disk) (s : Settings) : Except GlobError (List Location) := do
  let found ← s.selected.mapM fun pattern => do
    (ofPattern d s (← Glob.parse pattern)).mapError .trouble
  return Location.sorted found.flatten

end Discovery

end Sourcebook
