-- Reading the settings file of a project. Each key has one form; a key that is missing
-- keeps its default.
import Sourcebook.Disk.Basic
import Sourcebook.Settings.Basic
import Sourcebook.Text.Blank
import Sourcebook.Yaml.Document

namespace Sourcebook

open Data (Value)

/-- Why settings are not loaded. -/
inductive SettingsError where
  | missing (path : String)
  | trouble (t : Trouble)
  | yaml (e : Yaml.Error)
  | notMapping (path : String)
  | badList (key : String)
  | badPath (shown : String)
  /-- A number that is too long to be a part of a text. -/
  | unwritable
  deriving Repr, DecidableEq

def SettingsError.message : SettingsError → String
  | .missing path => "Configuration file '" ++ path ++ "' not found."
  | .trouble t => t.message
  | .yaml e => e.message
  | .notMapping path => "Top-level YAML structure in '" ++ path ++ "' must be a mapping."
  | .badList key => "'" ++ key ++ "' must be a string or a list of strings."
  | .badPath shown => "Expected a non-empty path string, got " ++ shown ++ "."
  | .unwritable => Data.unwritableText

namespace Settings

def fileName : String := "docgen.yaml"

/-- What a settings file says of a key. -/
abbrev Written := String → Option Value

/-- A file that says nothing. -/
def Written.nothing : Written := fun _ => none

/-- A key that is missing says the same as null. -/
def Written.getD (w : Written) (key : String) : Value := (w key).getD .null

/-! ## Forms -/

def texts? (items : List Value) : Option (List String) :=
  items.mapM fun v =>
    match v with
    | .text s => some s
    | _ => none

/-- One text or a list of texts. -/
def patterns (w : Written) (key : String) (default : List String) :
    Except SettingsError (List String) :=
  match w.getD key with
  | .null => .ok default
  | .text s => .ok [s]
  | .list items =>
    match texts? items with
    | some ss => .ok ss
    | none => .error (.badList key)
  | _ => .error (.badList key)

/-- A value as a text, if its numbers can be written. -/
def writtenWith (form : Value → String) (v : Value) : Except SettingsError String :=
  if v.writable then .ok (form v) else .error .unwritable

/-- A text with something in it. -/
def place (root : Location) (w : Written) (key : String) (default : Path) :
    Except SettingsError Path :=
  match w.getD key with
  | .null => .ok default
  | .text s =>
    if Text.allBlank s.toList then .error (.badPath (Value.text s).shown)
    else .ok (placeIn root s)
  | v => do
    let shown ← writtenWith Value.shown v
    throw (.badPath shown)

/-- Any value, as a text. -/
def wording (w : Written) (key : String) (default : String) : Except SettingsError String :=
  match w key with
  | none => .ok default
  | some v => writtenWith Value.asText v

/-- Any value, as true or false. -/
def flag (w : Written) (key : String) (default : Bool) : Bool :=
  ((w key).map (·.truthy)).getD default

/-- The page at the top: null and false mean none. -/
def intro (w : Written) (default : Option String) : Except SettingsError (Option String) :=
  match w "intro_page" with
  | none => .ok default
  | some .null => .ok none
  | some (.bool false) => .ok none
  | some v => (writtenWith Value.asText v).map some

/-! ## The file -/

/-- The settings that a file writes down. The first bad key counts. -/
def ofWritten (root : Location) (w : Written) : Except SettingsError Settings := do
  let d := ofRoot root
  let selected ← patterns w "include" d.selected
  let excluded ← patterns w "exclude" d.excluded
  let outDir ← place root w "out_dir" d.outDir
  let summaryFile ← place root w "summary_file" d.summaryFile
  let apiDir ← place root w "api_dir" d.apiDir
  let metaName ← wording w "meta_filename" d.metaName
  let introPage ← intro w d.introPage
  let tocTitle ← wording w "toc_title" d.tocTitle
  return {
    root, selected, excluded, outDir, summaryFile, apiDir, metaName, introPage, tocTitle
    strict := flag w "strict" d.strict
    apiInTree := flag w "api_in_tree" d.apiInTree }

/-- The mapping of a settings file. A value that counts as false is an empty one. -/
def mappingOf (shown : String) (doc : Yaml.Document) : Except SettingsError Written :=
  if !doc.truthy then .ok .nothing
  else if doc.entries?.isSome then .ok doc.get?
  else .error (.notMapping shown)

def readAt (d : Disk) (p : Path) (shown : String) : Except SettingsError Written := do
  let bytes ← (d.read p).mapError .trouble
  mappingOf shown (← (Yaml.Document.ofSource (.ofBytes bytes)).mapError .yaml)

/-- What the settings file writes down: a file that is named must be there, the usual
one need not be. -/
def written (d : Disk) (cwd root : Location) (file : Option Path) :
    Except SettingsError Written :=
  let isThere (p : Path) : Except SettingsError Bool := (d.pathExists p).mapError .trouble
  match file with
  | some p => do
    let whole := (Path.ofLocation cwd).join p
    if ← isThere whole then readAt d whole p.text else .error (.missing p.text)
  | none => do
    let p := placeIn root fileName
    if ← isThere p then readAt d p p.text else return .nothing

/-- The settings of a project. The last argument wins over the file. -/
def load (d : Disk) (cwd root : Location) (file : Option Path) (strict : Option Bool) :
    Except SettingsError Settings := do
  let s ← ofWritten root (← written d cwd root file)
  return { s with strict := strict.getD s.strict }

end Settings

end Sourcebook
