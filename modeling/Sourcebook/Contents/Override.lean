-- Override files: what a folder says about the names, the order and the hiding of
-- what it lists.
import Sourcebook.Disk.Basic
import Sourcebook.Json.Reader
import Sourcebook.Text.Utf8

namespace Sourcebook

/-- What an override file says under one key. -/
structure Override where
  title : Option String
  hidden : Bool
  /-- The kind that is written, whatever value it is; missing is null. -/
  kind : Data.Value
  deriving Repr

namespace Override

def plain : Override := ⟨none, false, .null⟩

def isSeparator (o : Override) : Bool :=
  match o.kind with
  | .text "separator" => true
  | _ => false

def ofMap (v : Data.Value) : Override where
  title := if (v.getD "title").truthy then some (v.getD "title").asText else none
  hidden := (v.getD "hidden").truthy
  kind := v.getD "type"

/-- The override of a value; a value that is neither a text nor an object is not
understood. -/
def ofValue? : Data.Value → Option Override
  | .text s => some { plain with title := some s }
  | .map entries => some (ofMap (.map entries))
  | _ => none

/-- A key that marks the place of everything that is not listed. -/
def isRest (key : String) : Bool := key == "..." || key == "...rest"

/-- A key that starts with three dashes is a separator, whatever its value says. -/
def separates (key : String) (o : Override) : Bool :=
  ['-', '-', '-'].isPrefixOf key.toList || o.isSeparator

end Override

/-- The keys of an override file in their order, and what was wrong with it. -/
structure OverrideFile where
  entries : List (String × Override)
  warnings : List String
  deriving Repr

namespace OverrideFile

def none : OverrideFile := ⟨[], []⟩

def invalid (p : Path) (reason : String) : OverrideFile :=
  ⟨[], ["Invalid JSON in " ++ p.text ++ ": " ++ reason]⟩

/-- A value that is not understood is reported, and its key stays with nothing to say. -/
def entry (p : Path) (key : String) (v : Data.Value) : (String × Override) × List String :=
  match Override.ofValue? v with
  | some o => ((key, o), [])
  | Option.none =>
    ((key, .plain), ["Ignoring unsupported value for '" ++ key ++ "' in " ++ p.text])

def ofMembers (p : Path) (members : List (String × Data.Value)) : OverrideFile :=
  let read := members.map fun m => entry p m.1 m.2
  ⟨read.map (·.1), read.flatMap (·.2)⟩

def ofText (p : Path) (text : List Char) : OverrideFile :=
  match Json.read text with
  | .error e => invalid p e.message
  | .ok (.map entries) => ofMembers p (Data.Value.map entries).members
  | .ok _ => invalid p "top-level value must be an object"

/-- What the bytes of an override file say. -/
def ofBytes (p : Path) (bytes : List UInt8) : OverrideFile :=
  match Text.decodeFile bytes with
  | .error u => invalid p u.message
  | .ok text => ofText p text

/-- The override file at a path. One that is missing says nothing, one that cannot be
read says nothing and is reported. -/
def read (d : Disk) (p : Path) : Except Trouble OverrideFile :=
  (d.find? p).map fun
    | some (.file bytes) => ofBytes p bytes
    | _ => none

end OverrideFile

end Sourcebook
