-- An annotated file as a list of events. The events of a text depend on the text, on
-- its place and on the files around it, and on nothing that was read before.
import Sourcebook.Book.Chapter
import Sourcebook.Book.Directive
import Sourcebook.Book.Include
import Sourcebook.Book.Language
import Sourcebook.Book.Snippet
import Sourcebook.Text.Utf8

namespace Sourcebook

/-- A remark on the way: a detail for who asks for it, or a warning that is kept. -/
inductive Notice where
  | detail (text : String)
  | warning (text : String)
  deriving Repr, DecidableEq

def Notice.warning? : Notice → Option String
  | .warning text => some text
  | .detail _ => none

/-- What one line adds to the book. Chapters are named by their identifier, sections
by their title. -/
inductive Event where
  | declare (source : Location) (line : Nat) (id title : String)
  | enter (chapter heading : String)
  | rank (chapter : String) (priority : Int)
  | prose (chapter heading text : String)
  | code (chapter heading : String) (code : Code) (group : Option String)
  | notice (n : Notice)
  /-- The selected files were listed to find an include. -/
  | listed (files : List Location)
  deriving Repr, DecidableEq

/-- What is known while a file is read. -/
structure FileState where
  source : Location
  language : String
  shelf : Shelf
  /-- The chapter that was declared last in this file. -/
  chapter : Option String
  /-- The title of the section that was entered last; another chapter does not change it. -/
  heading : String
  /-- The snippet that is open, with its lines so far. -/
  capture : Option (String × List (List Char))

namespace FileState

def ofFile (shelf : Shelf) (source : Location) : FileState where
  source := source
  language := Language.ofName (Location.name source)
  shelf := shelf
  chapter := none
  heading := firstSection
  capture := none

def place (s : FileState) (line : Nat) : String := Location.text s.source ++ ":" ++ toString line

def warn (s : FileState) (line : Nat) (text : String) : Event :=
  .notice (.warning (s.place line ++ ": " ++ text))

def detail (s : FileState) (line : Nat) (text : String) : Event :=
  .notice (.detail (s.place line ++ ": " ++ text))

/-- Events, the state after them, and the error that breaks the reading off. -/
structure Step where
  events : List Event
  state : FileState
  error : Option LookupError

def go (s : FileState) (events : List Event) : Step := ⟨events, s, none⟩

/-! ## Captures -/

/-- The events of closing the open snippet. Without a chapter it is dropped. -/
def closing (s : FileState) (line : Nat) : List Event :=
  match s.capture with
  | none => []
  | some (id, lines) =>
    match s.chapter with
    | none => [s.warn line ("snippet '" ++ id ++ "' outside a chapter dropped")]
    | some chapter =>
      [.code chapter s.heading
        ⟨id, String.ofList (Snippet.dedent lines), s.language, Location.text s.source, none⟩ none]

def closed (s : FileState) : FileState := { s with capture := none }

def start (s : FileState) (line : Nat) (id : String) : Step :=
  let before := match s.capture with
    | none => []
    | some (other, _) =>
      s.warn line ("snippet '" ++ other ++ "' was not closed before '@start: " ++ id ++ "'")
        :: s.closing line
  go { s with capture := some (id, []) } before

def finish (s : FileState) (line : Nat) (id : String) : Step :=
  match s.capture with
  | none => go s [s.warn line ("'@end: " ++ id ++ "' with no open snippet; ignored")]
  | some (other, _) =>
    if other = id then go s.closed (s.closing line)
    else
      go s [s.warn line ("'@end: " ++ id ++ "' does not match the open snippet "
        ++ Text.quotedText other ++ "; ignored")]

/-! ## Chapters -/

def rank (s : FileState) (line : Nat) (raw : List Char) : Step :=
  match s.chapter with
  | none => go s [s.detail line "priority outside a chapter ignored"]
  | some chapter =>
    let text := Text.trim raw
    match Text.readInteger? text with
    | some n => go s [.rank chapter n]
    | none =>
      go s [s.warn line ("invalid priority " ++ String.ofList (Text.quoted text) ++ "; using "
          ++ toString defaultPriority), .rank chapter defaultPriority]

def enter (s : FileState) (line : Nat) (title : String) : Step :=
  match s.chapter with
  | none => go s [s.detail line "section outside a chapter ignored"]
  | some chapter => go { s with heading := title } [.enter chapter title]

/-! ## Includes -/

/-- The code of an included file. -/
def embedded (path : Path) (options : IncludeOptions) (content : List Char) : Code :=
  let body := if options.strip then Snippet.stripComments content else content
  { id := "include-" ++ path.name
    content := String.ofList (Text.trim body)
    language := Language.ofName path.name
    sourceFile := path.text
    title := some (options.tabTitle.getD path.name) }

/-- The options of an include. Options that cannot be read are reported and replaced
by the defaults. -/
def optionsOf (s : FileState) (line : Nat) (raw : Option String) : IncludeOptions × List Event :=
  match IncludeOptions.read raw with
  | .ok options => (options, [])
  | .error e =>
    (.default, [s.warn line ("invalid include options " ++ Text.quotedText (raw.getD "") ++ " ("
      ++ e.message ++ "); using defaults")])

/-- The events of a file that was found. -/
def embedFound (s : FileState) (line : Nat) (chapter target : String) (path : Path)
    (options : IncludeOptions) : List Event :=
  let unread (reason : String) : List Event :=
    [s.warn line ("cannot read include '" ++ target ++ "': " ++ reason)]
  match s.shelf.disk.read path with
  | .error t => unread t.message
  | .ok bytes =>
    match Text.decodeFile bytes with
    | .error u => unread u.message
    | .ok content => [.code chapter s.heading (embedded path options content) options.group]

/-- The list of the shelf, where there is one. -/
def listing (shelf : Shelf) : List Event := (shelf.listed.map Event.listed).toList

def embedIn (s : FileState) (line : Nat) (chapter target : String) (raw : Option String) : Step :=
  let (options, complaints) := s.optionsOf line raw
  match s.shelf.find target (Path.ofLocation s.source) with
  | .error e => ⟨complaints, s, some e⟩
  | .ok found =>
    let s := { s with shelf := found.shelf }
    let news := complaints ++ listing found.shelf
      ++ (found.warning.map (fun w => Event.notice (.warning w))).toList
    match found.path with
    | none => go s (news ++ [s.warn line ("missing include '" ++ target ++ "'")])
    | some path => go s (news ++ s.embedFound line chapter target path options)

/-- An include closes the open snippet first. -/
def embed (s : FileState) (line : Nat) (target : String) (raw : Option String) : Step :=
  let before := s.closing line
  let s := s.closed
  match s.chapter with
  | none => go s (before ++ [s.warn line ("include '" ++ target ++ "' outside a chapter")])
  | some chapter =>
    let step := s.embedIn line chapter target raw
    { step with events := before ++ step.events }

/-! ## Lines -/

/-- A line that is no directive goes into the open snippet, unless it is marked. -/
def capturePlain (s : FileState) (line : List Char) : FileState :=
  match s.capture with
  | none => s
  | some (id, lines) =>
    if Directive.isMarked line then s else { s with capture := some (id, lines ++ [line]) }

def prose (s : FileState) (line : List Char) : List Event :=
  match s.chapter with
  | none => []
  | some chapter => [.prose chapter s.heading (String.ofList (Directive.proseText line))]

def readLine (s : FileState) (n : Nat) (line : List Char) : Step :=
  match Directive.ofLine line with
  | .declare id title =>
    let id := String.ofList id
    go { s with chapter := some id } [.declare s.source n id (String.ofList title)]
  | .enter title => s.enter n (String.ofList title)
  | .rank raw => s.rank n raw
  | .embed target options => s.embed n (String.ofList target) (options.map String.ofList)
  | .start id => s.start n (String.ofList id)
  | .finish id => s.finish n (String.ofList id)
  | .ignored => go s []
  | .prose => go s (s.prose line)
  | .plain => go (s.capturePlain line) []

/-- Reads lines from a number on. What is open at the end is closed there. -/
def readLines (s : FileState) (n : Nat) : List (List Char) → List Event × Option LookupError
  | [] => (s.closing (n - 1), none)
  | line :: rest =>
    let step := s.readLine n line
    match step.error with
    | some e => (step.events, some e)
    | none =>
      let (events, error) := step.state.readLines (n + 1) rest
      (step.events ++ events, error)

end FileState

/-- The lines of a text. Line feeds end them, and a carriage return before one goes. -/
def sourceLines (text : List Char) : List (List Char) := (Text.splitLines text).map Text.dropReturn

/-- The events of a text, and the error that breaks them off. -/
def Event.ofText (shelf : Shelf) (source : Location) (text : List Char) :
    List Event × Option LookupError :=
  (FileState.ofFile shelf source).readLines 1 (sourceLines text)

end Sourcebook
