-- The command line: its options, and what a command prints and leaves behind.
import Sourcebook.Decimal.Reader
import Sourcebook.Publish
import Sourcebook.Settings.Load

namespace Sourcebook

namespace CommandLine

/-! ## Options -/

/-- What an option can set. -/
inductive Topic where
  | root
  | config
  | strict
  | verbose
  deriving Repr, DecidableEq

/-- An option with its value. -/
inductive Setting where
  | root (place : String)
  | config (file : String)
  /-- A word for nothing leaves it to the settings file. -/
  | strict (value : Option Bool)
  | verbose (value : Bool)
  deriving Repr, DecidableEq

def Setting.topic : Setting → Topic
  | .root _ => .root
  | .config _ => .config
  | .strict _ => .strict
  | .verbose _ => .verbose

/-! ### Words -/

def lowered (s : String) : String := String.ofList (s.toList.map Char.toLower)

/-- A word for true or false. -/
def readFlag (s : String) : Option Bool :=
  if ["true", "t", "yes", "y", "1"].contains (lowered s) then some true
  else if ["false", "f", "no", "n", "0"].contains (lowered s) then some false
  else none

/-- A word for true, for false or for nothing. -/
def readChoice (s : String) : Option (Option Bool) :=
  if ["none", "null"].contains (lowered s) then some none else (readFlag s).map some

/-- What a word sets a topic to. -/
def Topic.read (t : Topic) (word : String) : Option Setting :=
  match t with
  | .root => some (.root word)
  | .config => some (.config word)
  | .strict => (readChoice word).map .strict
  | .verbose => (readFlag word).map .verbose

/-- What a topic that is a flag is set to without a word. -/
def Topic.flag (t : Topic) (b : Bool) : Option Setting :=
  match t with
  | .root => none
  | .config => none
  | .strict => some (.strict (some b))
  | .verbose => some (.verbose b)

/-! ### Arguments -/

/-- The name of an option: its topic, or the opposite of it. -/
inductive OptionName where
  | plain (t : Topic)
  | opposite (t : Topic)
  deriving Repr, DecidableEq

/-- A name with its two hyphens. An underscore stands for a hyphen. -/
def OptionName.ofText (s : String) : Option OptionName :=
  match s.toList with
  | '-' :: '-' :: name =>
    [("root", .plain .root), ("config", .plain .config), ("strict", .plain .strict),
      ("verbose", .plain .verbose), ("no-strict", .opposite .strict),
      ("no-verbose", .opposite .verbose)].lookup
        (String.ofList (name.map fun c => if c = '_' then '-' else c))
  | _ => none

/-- An option with its word in the same argument. The word of an opposite is turned round. -/
def OptionName.joined : OptionName → String → Option Setting
  | .plain t, word => t.read word
  | .opposite t, word => (readFlag word).bind fun b => t.flag (!b)

/-- An option without a word. -/
def OptionName.alone : OptionName → Option Setting
  | .plain t => t.flag true
  | .opposite t => t.flag false

/-- An argument cut at its first equals sign. -/
def cutEquals (arg : String) : String × Option String :=
  let cs := arg.toList
  match cs.dropWhile (· != '=') with
  | _ :: value => (String.ofList (cs.takeWhile (· != '=')), some (String.ofList value))
  | [] => (arg, none)

/-- A number with a minus sign is no option. -/
def looksLikeOption (s : String) : Bool :=
  s.toList.head? == some '-' && !Decimal.isNumeral s.toList

/-- The settings of arguments. Nothing else may stand among them. -/
def readSettings : List String → Option (List Setting)
  | [] => some []
  | arg :: rest =>
    match cutEquals arg with
    | (name, some word) => do
      let s ← (← OptionName.ofText name).joined word
      return s :: (← readSettings rest)
    | (name, none) => do
      let name ← OptionName.ofText name
      match name.alone, rest with
      | some s, rest => return s :: (← readSettings rest)
      | none, word :: rest =>
        if looksLikeOption word then none
        else return (← name.joined word) :: (← readSettings rest)
      | none, [] => none

/-- Two hyphens end the options. There is nothing else that could follow. -/
def withoutEnd (args : List String) : Option (List String) :=
  match args.dropWhile (· != "--") with
  | [] => some args
  | [_] => some args.dropLast
  | _ => none

/-! ### Variables -/

def Topic.variableName : Topic → String
  | .root => "INPUT_ROOT"
  | .config => "INPUT_CONFIG"
  | .strict => "INPUT_STRICT"
  | .verbose => "INPUT_VERBOSE"

def topics : List Topic := [.root, .config, .strict, .verbose]

/-- A variable counts where no argument sets its topic. -/
def fromVariables (lookUp : String → Option String) (given : List Setting) :
    Option (List Setting) :=
  (topics.filter fun t => !given.any (·.topic == t)).foldlM
    (fun found t =>
      match lookUp t.variableName with
      | none => some found
      | some word => (t.read word).map fun s => found ++ [s]) []

/-! ### All options -/

structure Options where
  root : Option String
  config : Option String
  strict : Option Bool
  verbose : Bool
  deriving Repr, DecidableEq

def Options.set (o : Options) : Setting → Options
  | .root place => { o with root := some place }
  | .config file => { o with config := some file }
  | .strict value => { o with strict := value }
  | .verbose value => { o with verbose := value }

def Options.ofSettings (settings : List Setting) : Options :=
  settings.foldl Options.set ⟨none, none, none, false⟩

/-- The options of the one command there is. Each may come only once. -/
def parse (args : List String) (lookUp : String → Option String) : Option Options :=
  match args with
  | "generate" :: rest => do
    let given ← readSettings (← withoutEnd rest)
    if (given.map Setting.topic).Nodup then
      return .ofSettings (given ++ (← fromVariables lookUp given))
    else none
  | _ => none

/-! ## The command -/

/-- Why a command fails. -/
inductive Failure where
  | settings (e : SettingsError)
  | run (e : RunError)
  deriving Repr, DecidableEq

def Failure.message : Failure → String
  | .settings e => e.message
  | .run e => e.message

/-- What a command leaves and prints. -/
structure Outcome where
  disk : Disk
  failure : Option Failure
  output : String
  errors : String

/-- A line of the log as it is printed; details are for a verbose log alone. -/
def printed (verbose : Bool) : LogLine → String
  | .detail text => if verbose then "DEBUG " ++ text ++ "\n" else ""
  | .progress text => "INFO " ++ text ++ "\n"
  | .warning text => "WARNING " ++ text ++ "\n"

/-- A path as seen from the working directory, where it lies below it. -/
def shownPath (cwd : Location) (p : Path) : String :=
  if p.root = .single && cwd.isPrefixOf p.parts then
    Path.text ⟨.none, p.parts.drop cwd.length⟩
  else p.text

/-- The project that options name: the working directory when they name none. -/
def Options.project (o : Options) (cwd : Location) : Location :=
  (Path.ofString (o.root.getD ".")).normal cwd

def generate (d : Disk) (cwd : Location) (o : Options) : Outcome :=
  let root := o.project cwd
  match Settings.load d cwd root (o.config.map Path.ofString) o.strict with
  | .error e => ⟨d, some (.settings e), "", ""⟩
  | .ok s =>
    let run := Publish.run d s
    let log := String.join (run.log.map (printed (o.verbose)))
    match run.result with
    | .error e => ⟨run.disk, some (.run e), "", log⟩
    | .ok written =>
      let output := String.join (written.map fun p => "wrote " ++ shownPath cwd p ++ "\n")
      let count :=
        if run.warnings.isEmpty then ""
        else toString run.warnings.length ++ " warning(s) reported\n"
      ⟨run.disk, none, output, log ++ count⟩

end CommandLine

end Sourcebook
