-- Tokens as nodes: texts, lists and mappings as they are written, with the names that
-- anchors give them. An alias names an anchor that came before it.
import Sourcebook.Yaml.Token

namespace Sourcebook.Yaml

/-- What an anchor and a tag say of a node. -/
structure NodeProps where
  anchor : Option String
  /-- The whole tag, with its handle written out. -/
  tag : Option String
  deriving Repr, DecidableEq

def NodeProps.none : NodeProps := ⟨Option.none, Option.none⟩

/-- No tag, or a mark alone, which says nothing. -/
def NodeProps.isUntagged (p : NodeProps) : Bool := p.tag.isNone || p.tag == some "!"

inductive Node where
  | text (props : NodeProps) (content : String) (plain : Bool)
  | list (props : NodeProps) (items : List Node)
  | map (props : NodeProps) (entries : List (Node × Node))
  | alias (name : String)
  deriving Repr, Inhabited

namespace Node

/-- Where nothing is written. -/
def nothing : Node := .text .none "" true

/-- The handles of tags with what they stand for. -/
abbrev Handles := List (String × String)

def commonHandles : Handles := [("!", "!"), ("!!", "tag:yaml.org,2002:")]

/-- A written suffix with its escaped bytes as characters. -/
def unescaped : Nat → List Char → List Char
  | 0, s => s
  | fuel + 1, s =>
    match Lexer.escapedByte? s, s with
    | some b, s => Char.ofNat b.toNat :: unescaped fuel (s.drop 3)
    | none, c :: rest => c :: unescaped fuel rest
    | none, [] => []

def suffixText (suffix : String) : String :=
  String.ofList (unescaped suffix.length suffix.toList)

def tagOf (handles : Handles) (handle : Option String) (suffix : String) : Reading String :=
  match handle with
  | none => .ok (suffixText suffix)
  | some h =>
    match handles.lookup h with
    | some start => .ok (start ++ suffixText suffix)
    | none => fault "a tag with an unknown handle"

/-- A fault at the next token: that of the text, where it is broken there. -/
def unexpected {α : Type} (reason : String) : List Token → Reading α
  | .broken e :: _ => .error e
  | _ => fault reason

/-- An anchor and a tag in any order, each at will. -/
def propsOf (handles : Handles) : List Token → Reading (NodeProps × List Token)
  | .anchor a :: .tag h s :: ts => do return (⟨some a, some (← tagOf handles h s)⟩, ts)
  | .anchor a :: ts => .ok (⟨some a, none⟩, ts)
  | .tag h s :: .anchor a :: ts => do return (⟨some a, some (← tagOf handles h s)⟩, ts)
  | .tag _ _ :: .broken e :: _ => .error e
  | .tag h s :: ts => do return (⟨none, some (← tagOf handles h s)⟩, ts)
  | ts => .ok (.none, ts)

/-- A list of dashes that is not indented further than its key. -/
def startsDashes : List Token → Bool
  | .dash :: _ => true
  | _ => false

/-- What counts for all nodes of a document. -/
structure Rules where
  handles : Handles
  version : Version

/-- The names that anchors have given so far. -/
abbrev Named (α : Type) := StateT (List String) Reading α

def Named.note (name : Option String) : Named Unit := modify (name.toList ++ ·)

mutual

/-- One node. Blocks may start where they are allowed; a list of dashes without a block
of its own may be the value of a key. Fuel is given for every token. -/
def node (rules : Rules) (block dashes : Bool) : Nat → List Token → Named (Node × List Token)
  | 0, _ => fault "nested too deeply"
  | fuel + 1, ts =>
    match ts with
    | .alias name :: ts => do
      if (← get).contains name then return (.alias name, ts)
      else fault "an alias without an anchor"
    | ts => do
      let (props, ts) ← propsOf rules.handles ts
      Named.note props.anchor
      if dashes && startsDashes ts then
        let (items, ts) ← dashItems rules fuel ts
        return (.list props items, ts)
      else
        match ts with
        | .text content plain :: ts => return (.text props content plain, ts)
        | .openList :: ts =>
          let (items, ts) ← listItems rules true fuel ts
          return (.list props items, ts)
        | .openMap :: ts =>
          let (entries, ts) ← mapEntries rules true fuel ts
          return (.map props entries, ts)
        | .blockSequence :: ts =>
          if !block then fault "a block where none may start"
          else
            let (items, ts) ← blockItems rules fuel ts
            return (.list props items, ts)
        | .blockMapping :: ts =>
          if !block then fault "a block where none may start"
          else
            let (entries, ts) ← blockEntries rules fuel ts
            return (.map props entries, ts)
        | ts =>
          match props, ts with
          | ⟨none, none⟩, ts => unexpected "a value is missing" ts
          | _, .broken e :: _ => throw e
          | props, ts => return (.text props "" props.isUntagged, ts)

/-- The items of a block of dashes, up to its end. -/
def blockItems (rules : Rules) : Nat → List Token → Named (List Node × List Token)
  | 0, _ => fault "nested too deeply"
  | fuel + 1, ts =>
    match ts with
    | .blockEnd :: ts => pure ([], ts)
    | .dash :: ts => do
      let (item, ts) ← match ts with
        | .dash :: _ => pure (nothing, ts)
        | .blockEnd :: _ => pure (nothing, ts)
        | ts => node rules true false fuel ts
      let (items, ts) ← blockItems rules fuel ts
      return (item :: items, ts)
    | ts => unexpected "a list that does not end" ts

/-- The items of dashes without a block of their own: as many as follow. -/
def dashItems (rules : Rules) : Nat → List Token → Named (List Node × List Token)
  | 0, _ => fault "nested too deeply"
  | fuel + 1, ts =>
    match ts with
    | .dash :: ts => do
      let (item, ts) ← match ts with
        | .dash :: _ => pure (nothing, ts)
        | .key :: _ => pure (nothing, ts)
        | .value :: _ => pure (nothing, ts)
        | .blockEnd :: _ => pure (nothing, ts)
        | ts => node rules true false fuel ts
      let (items, ts) ← dashItems rules fuel ts
      return (item :: items, ts)
    | ts => pure ([], ts)

/-- A node of a block mapping, if one is written before the next mark. -/
def blockPart (rules : Rules) : Nat → List Token → Named (Node × List Token)
  | 0, _ => fault "nested too deeply"
  | fuel + 1, ts =>
    match ts with
    | .key :: _ => pure (nothing, ts)
    | .value :: _ => pure (nothing, ts)
    | .blockEnd :: _ => pure (nothing, ts)
    | ts => node rules true true fuel ts

/-- The value of a key of a block mapping, if one is written. -/
def blockValue (rules : Rules) : Nat → List Token → Named (Node × List Token)
  | 0, _ => fault "nested too deeply"
  | fuel + 1, ts =>
    match ts with
    | .value :: ts => blockPart rules fuel ts
    | ts => pure (nothing, ts)

/-- The entries of a block mapping, up to its end. -/
def blockEntries (rules : Rules) : Nat → List Token → Named (List (Node × Node) × List Token)
  | 0, _ => fault "nested too deeply"
  | fuel + 1, ts =>
    match ts with
    | .blockEnd :: ts => pure ([], ts)
    | .key :: ts => do
      let (k, ts) ← blockPart rules fuel ts
      let (v, ts) ← blockValue rules fuel ts
      let (entries, ts) ← blockEntries rules fuel ts
      return ((k, v) :: entries, ts)
    | .value :: _ =>
      if rules.version = .older then fault "a value without a key"
      else do
        let (v, ts) ← blockValue rules fuel ts
        let (entries, ts) ← blockEntries rules fuel ts
        return ((nothing, v) :: entries, ts)
    | ts => unexpected "a mapping that does not end" ts

/-- The items of a list in brackets. A key among them is a mapping of one entry. -/
def listItems (rules : Rules) (first : Bool) :
    Nat → List Token → Named (List Node × List Token)
  | 0, _ => fault "nested too deeply"
  | fuel + 1, ts =>
    match ts with
    | .closeList :: ts => pure ([], ts)
    | ts => do
      let ts ← match first, ts with
        | true, ts => pure ts
        | false, .comma :: ts => pure ts
        | false, ts => unexpected "a comma is missing" ts
      match ts with
      | .closeList :: ts => return ([], ts)
      | .key :: ts =>
        let (k, ts) ← match ts with
          | .value :: _ => pure (nothing, ts)
          | .comma :: _ => pure (nothing, ts)
          | .closeList :: _ => pure (nothing, ts)
          | ts => node rules false false fuel ts
        let (v, ts) ← match ts with
          | .value :: .comma :: ts => pure (nothing, .comma :: ts)
          | .value :: .closeList :: ts => pure (nothing, .closeList :: ts)
          | .value :: ts => node rules false false fuel ts
          | ts => pure (nothing, ts)
        let (items, ts) ← listItems rules false fuel ts
        return (.map .none [(k, v)] :: items, ts)
      | ts =>
        let (item, ts) ← node rules false false fuel ts
        let (items, ts) ← listItems rules false fuel ts
        return (item :: items, ts)

/-- The entries of a mapping in braces. -/
def mapEntries (rules : Rules) (first : Bool) :
    Nat → List Token → Named (List (Node × Node) × List Token)
  | 0, _ => fault "nested too deeply"
  | fuel + 1, ts =>
    match ts with
    | .closeMap :: ts => pure ([], ts)
    | ts => do
      let ts ← match first, ts with
        | true, ts => pure ts
        | false, .comma :: ts => pure ts
        | false, ts => unexpected "a comma is missing" ts
      match ts with
      | .closeMap :: ts => return ([], ts)
      | ts =>
        let (k, keyed, ts) ← match ts with
          | .key :: ts => do
            let (k, ts) ← match ts with
              | .value :: _ => pure (nothing, ts)
              | .comma :: _ => pure (nothing, ts)
              | .closeMap :: _ => pure (nothing, ts)
              | ts => node rules false false fuel ts
            pure (k, true, ts)
          | .value :: _ =>
            if rules.version = .older then fault "a value without a key"
            else pure (nothing, true, ts)
          | ts => do
            let (k, ts) ← node rules false false fuel ts
            pure (k, false, ts)
        let (v, ts) ← match keyed, ts with
          | true, .value :: .comma :: ts => pure (nothing, .comma :: ts)
          | true, .value :: .closeMap :: ts => pure (nothing, .closeMap :: ts)
          | true, .value :: ts => node rules false false fuel ts
          | _, ts => pure (nothing, ts)
        let (entries, ts) ← mapEntries rules false fuel ts
        return ((k, v) :: entries, ts)

end

/-! ## Documents -/

/-- What the directives before a document say. -/
structure Preamble where
  handles : Handles
  /-- The minor part of the version, where one is written. -/
  minor : Option Nat

def Preamble.empty : Preamble := ⟨[], none⟩

/-- Only two minor versions are known. -/
def Preamble.check (p : Preamble) : Reading Preamble :=
  match p.minor with
  | none => .ok p
  | some minor => if minor = 1 || minor = 2 then .ok p else .error (.minorVersion minor)

def Preamble.rules (p : Preamble) : Rules :=
  ⟨p.handles ++ commonHandles, if p.minor = some 1 then .older else .core⟩

/-- The directives before a document. Their version is looked at when all are read. -/
def directives (p : Preamble) : List Token → Reading (Preamble × List Token)
  | .version major minor :: ts =>
    if p.minor.isSome then fault "two versions"
    else if major != 1 then fault "another version of the format"
    else directives { p with minor := some minor } ts
  | .tagHandle h target :: ts =>
    if p.handles.any (·.1 == h) then fault "two tags for one handle"
    else directives { p with handles := p.handles ++ [(h, target)] } ts
  | .otherDirective :: ts => directives p ts
  | .broken e :: _ => .error e
  | ts => do return (← p.check, ts)

def startsDocument : List Token → Bool
  | .version .. :: _ => true
  | .tagHandle .. :: _ => true
  | .otherDirective :: _ => true
  | .documentStart :: _ => true
  | _ => false

def isDocumentEnd : Token → Bool
  | .documentEnd => true
  | _ => false

/-- What is wrong with another document: its directives, or that there is one. -/
def another {α : Type} (ts : List Token) : Reading α := do
  discard (directives .empty ts)
  fault "more than one document"

/-- The end of the only document. The older version passes over more marks of the end. -/
def ended (v : Version) : List Token → Reading Unit
  | [] => .ok ()
  | .documentEnd :: ts =>
    match v, ts with
    | .older, ts => match ts.dropWhile isDocumentEnd with
      | [] => .ok ()
      | ts => another ts
    | .core, [] => .ok ()
    | .core, ts => if startsDocument ts then another ts else unexpected "more than one document" ts
  | ts => another ts

/-- A node as the content of the only document. -/
def whole (rules : Rules) (ts : List Token) : Reading Node := do
  let ((n, ts), _) ← (node rules true false (4 * ts.length + 4) ts).run []
  ended rules.version ts
  return n

/-- The node of a document that starts with a mark, and the version that it has. -/
def marked (ts : List Token) : Reading (Node × Version) := do
  let (p, ts) ← directives .empty ts
  let rules := p.rules
  match ts with
  | .documentStart :: ts =>
    if ts.isEmpty || ts.head? == some .documentEnd || startsDocument ts then
      ended rules.version ts
      return (nothing, rules.version)
    else return (← whole rules ts, rules.version)
  | ts => unexpected "a document start is missing" ts

/-- The node of the only document, if there is one, and its version. -/
def ofTokens (ts : List Token) : Reading (Option (Node × Version)) :=
  if ts.isEmpty then .ok none
  else if startsDocument ts then (marked ts).map some
  else do
    let rules := Preamble.empty.rules
    return some (← whole rules ts, rules.version)

end Node

end Sourcebook.Yaml
