-- Chapters, their sections, and the blocks in a section.

namespace Sourcebook

/-- Code on a page: a captured snippet or an included file. -/
structure Code where
  id : String
  content : String
  language : String
  /-- The file that the code came from. -/
  sourceFile : String
  /-- The label of the code among tabs. -/
  title : Option String
  deriving Repr, DecidableEq

inductive Block where
  | prose (content : String)
  | code (code : Code)
  | tabs (group : String) (members : List Code)
  deriving Repr, DecidableEq

namespace Block

/-- Adds prose. Prose that follows prose continues it on a new line. -/
def addProse (blocks : List Block) (text : String) : List Block :=
  match blocks.getLast? with
  | some (.prose content) => blocks.dropLast ++ [.prose (content ++ "\n" ++ text)]
  | _ => blocks ++ [.prose text]

/-- Adds code. Code of a group joins the tabs of that group when they come last. -/
def addCode (blocks : List Block) (code : Code) (group : Option String) : List Block :=
  match group with
  | none => blocks ++ [.code code]
  | some g =>
    if g.isEmpty then blocks ++ [.code code]
    else
      match blocks.getLast? with
      | some (.tabs g' members) =>
        if g' = g then blocks.dropLast ++ [.tabs g (members ++ [code])]
        else blocks ++ [.tabs g [code]]
      | _ => blocks ++ [.tabs g [code]]

end Block

/-- A part of a chapter under one heading. -/
structure Section where
  title : String
  blocks : List Block
  deriving Repr, DecidableEq

/-- One page, gathered from every file that declares it. -/
structure Chapter where
  id : String
  title : String
  /-- The file that declared the chapter first. -/
  sourceFile : String
  /-- The directory of that file as seen from the root. -/
  sourceDir : String
  priority : Int
  /-- Sections in the order in which they were first named. -/
  sections : List Section
  /-- The folder of the page, once the chapter has a place in the tree. -/
  folder : Option String
  deriving Repr, DecidableEq

def defaultPriority : Int := 100

/-- The section that lines before any other section belong to. -/
def firstSection : String := "Overview"

namespace Section

/-- Changes the blocks of the section with a title. A section that is not there yet is
added at the end. -/
def update (title : String) (f : List Block → List Block) : List Section → List Section
  | [] => [⟨title, f []⟩]
  | s :: rest =>
    if s.title = title then { s with blocks := f s.blocks } :: rest
    else s :: update title f rest

end Section

end Sourcebook
