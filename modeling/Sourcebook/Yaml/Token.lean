-- The tokens of a text. Indentation opens and closes blocks, and a text or a bracket
-- becomes a key when a colon follows it on its line.
import Sourcebook.Yaml.BlockText
import Sourcebook.Yaml.Plain
import Sourcebook.Yaml.Source

namespace Sourcebook.Yaml

inductive Token where
  | version (major minor : Nat)
  | tagHandle (handle target : String)
  | otherDirective
  | documentStart
  | documentEnd
  | blockSequence
  | blockMapping
  | blockEnd
  | openList
  | closeList
  | openMap
  | closeMap
  | dash
  | comma
  | key
  | value
  | alias (name : String)
  | anchor (name : String)
  | tag (handle : Option String) (suffix : String)
  | text (content : String) (plain : Bool)
  /-- Where the text cannot be read on. -/
  | broken (e : Error)
  deriving Repr, DecidableEq

/-- A token that becomes a key if a colon follows. -/
structure PossibleKey where
  /-- How many brackets are open around it. -/
  level : Nat
  /-- Where its token stands among the tokens. -/
  position : Nat
  /-- It stands at the indentation of a mapping, and must be a key. -/
  required : Bool
  index : Nat
  line : Nat
  column : Nat

/-- A text that is being cut into tokens. -/
structure Lexer where
  cursor : Cursor
  /-- Why the text stops, where it does not end. -/
  stop : Option Error
  /-- The version that counts, and the one that a directive asks for. It counts from the
  start of the document on. -/
  version : Version
  asked : Option Version
  tokens : List Token
  /-- The open brackets, the innermost first. -/
  brackets : List Char
  /-- The indentation of the open blocks, the innermost first. Outside of all blocks
  it is one less than nothing. -/
  indent : Int
  outer : List Int
  keyAllowed : Bool
  possible : List PossibleKey

namespace Lexer

def start (s : Source) : Lexer :=
  ⟨.start s.text, s.stop, .core, none, [], [], -1, [], true, []⟩

def inside (x : Lexer) : Bool := !x.brackets.isEmpty

def push (x : Lexer) (t : Token) : Lexer := { x with tokens := x.tokens ++ [t] }

def insertAt (x : Lexer) (n : Nat) (t : Token) : Lexer :=
  { x with tokens := x.tokens.take n ++ t :: x.tokens.drop n }

def moveTo (x : Lexer) (rest : List Char) : Lexer := { x with cursor := x.cursor.leaving rest }

def forward (x : Lexer) (n : Nat) : Lexer := { x with cursor := x.cursor.skip n }

/-! ## Indentation -/

/-- Closes the blocks that are indented further than a column. -/
def unwindFrom (column : Int) : List Int → Lexer → Lexer
  | [], x => x
  | previous :: outer, x =>
    if column < x.indent then
      unwindFrom column outer ({ x with indent := previous, outer := outer }.push .blockEnd)
    else x

def unwind (x : Lexer) (column : Int) : Lexer :=
  if x.inside then x else unwindFrom column x.outer x

/-- Opens a block at a column that is indented further, before the token of a place. -/
def openBlock (x : Lexer) (column : Nat) (position : Nat) (t : Token) : Lexer :=
  if x.indent < (column : Int) then
    { x with indent := column, outer := x.indent :: x.outer }.insertAt position t
  else x

/-! ## Keys -/

/-- A key stands on one line and is not too long. -/
def isStale (x : Lexer) (k : PossibleKey) : Bool :=
  k.line != x.cursor.line || 1024 < x.cursor.index - k.index

def dropStale (x : Lexer) : Reading Lexer :=
  if x.possible.any (fun k => x.isStale k && k.required) then fault "a key without a colon"
  else .ok { x with possible := x.possible.filter (!x.isStale ·) }

def level (x : Lexer) : Nat := x.brackets.length

/-- The possible keys that stand further out than the brackets that are open. -/
def outerKeys (x : Lexer) : List PossibleKey :=
  let here := x.level
  x.possible.filter (·.level != here)

/-- The possible key between the brackets that are open. -/
def keyHere? (x : Lexer) : Option PossibleKey :=
  let here := x.level
  x.possible.find? (·.level == here)

/-- Gives up the possible key between the brackets that are open. -/
def dropKey (x : Lexer) : Reading Lexer :=
  match x.keyHere? with
  | some ⟨_, _, true, _, _, _⟩ => fault "a key without a colon"
  | _ => .ok { x with possible := x.outerKeys }

/-- Notes that the next token may be a key. -/
def noteKey (x : Lexer) : Reading Lexer :=
  if !x.keyAllowed then .ok x
  else do
    let required := !x.inside && x.indent == (x.cursor.column : Int)
    let x ← x.dropKey
    let c := x.cursor
    return { x with
      possible := ⟨x.level, x.tokens.length, required, c.index, c.line, c.column⟩ :: x.possible }

/-- The tokens that wait until it is known whether the first of them is a key. -/
def waiting (x : Lexer) : List Token :=
  match (x.possible.map (·.position)).min? with
  | some n => x.tokens.drop n
  | none => []

/-- The tokens that can be taken, because none of them waits to become a key. -/
def released (x : Lexer) : List Token :=
  match (x.possible.map (·.position)).min? with
  | some n => x.tokens.take n
  | none => x.tokens

/-! ## Space -/

/-- Skips spaces, comments and breaks; inside brackets also tabs. The flag of the answer
says that a line ended. -/
def skipSpace (inside : Bool) : Bool → List Char → List Char × Bool
  | _, [] => ([], false)
  | comment, c :: s =>
    if isBreak c then ((skipSpace inside false s).1, true)
    else if comment then skipSpace inside true s
    else if c = ' ' || (c = '\t' && inside) then skipSpace inside false s
    else if c = '#' then skipSpace inside true s
    else (c :: s, false)

def toToken (x : Lexer) : Lexer :=
  let s := x.cursor.rest
  let s := if x.cursor.index == 0 && s.head? == some '\uFEFF' then s.drop 1 else s
  let (rest, broken) := skipSpace x.inside false s
  let x := x.moveTo rest
  if broken && !x.inside then { x with keyAllowed := true } else x

/-! ## Directives -/

def number (s : List Char) : Reading (Nat × List Char) :=
  match s.takeWhile isDigit with
  | [] => fault "a number is missing"
  | ds =>
    if Text.maxDigits < ds.length then .error (.tooManyDigits ds.length)
    else .ok (Text.ofDigits 10 (ds.map hexDigit), s.dropWhile isDigit)

def spaces (s : List Char) : List Char := s.dropWhile (· = ' ')

def isNameChar (c : Char) : Bool := isLetter c || isDigit c || c = '-' || c = '_'

def handleOf (s : List Char) : Reading (String × List Char) :=
  match s with
  | '!' :: rest =>
    match rest.takeWhile isNameChar, rest.dropWhile isNameChar with
    | name, '!' :: after => .ok (String.ofList ('!' :: (name ++ ['!'])), after)
    | [], ' ' :: _ => .ok ("!", rest)
    | _, _ => fault "a handle that is not closed"
  | _ => fault "a handle is missing"

def isUriChar (v : Version) (c : Char) : Bool :=
  isLetter c || isDigit c || "-;/?:@&=+$,_.!~*'()[]".toList.contains c || (v = .core && c = '#')

/-- A byte that is written as a percent sign and two digits. -/
def escapedByte? : List Char → Option UInt8
  | '%' :: a :: b :: _ =>
    if isHexDigit a && isHexDigit b then some (UInt8.ofNat (hexDigit a * 16 + hexDigit b)) else none
  | _ => none

/-- The escaped bytes in a row from here on. Three characters stand for each. -/
def escapedBytes : Nat → List Char → List UInt8
  | 0, _ => []
  | fuel + 1, s =>
    match escapedByte? s with
    | some b => b :: escapedBytes fuel (s.drop 3)
    | none => []

/-- The escaped bytes of a tag must be a text. -/
def escapesAhead (s : List Char) : Reading Nat :=
  let bytes := escapedBytes s.length s
  if (s.drop (3 * bytes.length)).head? == some '%' then fault "digits missing in an escape"
  else if (Text.decode bytes).toOption.isNone then fault "escaped bytes that are no text"
  else .ok bytes.length

/-- The characters of a tag, as they are written. -/
def uriFrom (v : Version) : Nat → List Char → Reading (List Char × List Char)
  | 0, s => .ok ([], s)
  | fuel + 1, s =>
    match s with
    | [] => .ok ([], [])
    | c :: rest =>
      if c = '%' then do
        let n ← escapesAhead s
        let (more, after) ← uriFrom v fuel (s.drop (3 * n))
        return (s.take (3 * n) ++ more, after)
      else if isUriChar v c then do
        let (more, after) ← uriFrom v fuel rest
        return (c :: more, after)
      else .ok ([], s)

def uriOf (v : Version) (s : List Char) : Reading (String × List Char) := do
  let (u, rest) ← uriFrom v (s.length + 1) s
  if u.isEmpty then fault "a tag is missing" else return (String.ofList u, rest)

/-- The end of the line of a directive. -/
def directiveEnd (s : List Char) : Reading (List Char) :=
  let s := spaces s
  let s := if s.head? == some '#' then toBreak s else s
  if breakAhead s then .ok (dropBreak s) else fault "unexpected text after a directive"

def directive (x : Lexer) : Reading Lexer := do
  let x ← (x.unwind (-1)).dropKey
  let x := { x with keyAllowed := false }
  let s := x.cursor.rest.drop 1
  let isName (c : Char) : Bool := isNameChar c || c = ':' || c = '.'
  let name := s.takeWhile isName
  let rest := s.dropWhile isName
  if name.isEmpty then fault "a directive without a name"
  else if !lineAhead rest then fault "a directive with a bad name"
  else if name = "YAML".toList then do
    let (major, rest) ← number (spaces rest)
    match rest with
    | '.' :: rest =>
      let (minor, rest) ← number rest
      if !lineAhead rest then fault "a version with a bad end"
      else
        let rest ← directiveEnd rest
        let v : Version := if major = 1 && minor = 1 then .older else .core
        return { ((x.moveTo rest).push (.version major minor)) with asked := some v }
    | _ => fault "a version without a point"
  else if name = "TAG".toList then do
    let (handle, rest) ← handleOf (spaces rest)
    if rest.head? != some ' ' then fault "a handle without a tag"
    else
      let (target, rest) ← uriOf x.version (spaces rest)
      if !lineAhead rest then fault "a tag with a bad end"
      else
        let rest ← directiveEnd rest
        return (x.moveTo rest).push (.tagHandle handle target)
  else do
    let rest ← directiveEnd (toBreak rest)
    return (x.moveTo rest).push .otherDirective

def documentIndicator (x : Lexer) (t : Token) : Reading Lexer := do
  let x ← (x.unwind (-1)).dropKey
  return ({ x with keyAllowed := false }.forward 3).push t

/-- The start of a document, from which on its version counts. -/
def startDocument (x : Lexer) : Reading Lexer := do
  let x ← x.documentIndicator .documentStart
  return { x with version := x.asked.getD .core, asked := none }

/-! ## Brackets and indicators -/

def openBracket (x : Lexer) (c : Char) (t : Token) : Reading Lexer := do
  let x ← x.noteKey
  return ({ x with brackets := c :: x.brackets, keyAllowed := true }.forward 1).push t

def closeBracket (x : Lexer) (t : Token) : Reading Lexer := do
  let x ← x.dropKey
  return ({ x with brackets := x.brackets.drop 1, keyAllowed := false }.forward 1).push t

def comma (x : Lexer) : Reading Lexer := do
  let x ← { x with keyAllowed := true }.dropKey
  return (x.forward 1).push .comma

def dash (x : Lexer) : Reading Lexer := do
  if !x.inside && !x.keyAllowed then fault "an entry is not allowed here"
  else
    let x := if x.inside then x else x.openBlock x.cursor.column x.tokens.length .blockSequence
    let x ← { x with keyAllowed := true }.dropKey
    return (x.forward 1).push .dash

def keyMark (x : Lexer) : Reading Lexer := do
  if !x.inside && !x.keyAllowed then fault "a key is not allowed here"
  else
    let x := if x.inside then x else x.openBlock x.cursor.column x.tokens.length .blockMapping
    let x ← { x with keyAllowed := !x.inside }.dropKey
    return (x.forward 1).push .key

def valueMark (x : Lexer) : Reading Lexer :=
  match x.keyHere? with
  | some k =>
    let x := { x with possible := x.outerKeys }.insertAt k.position .key
    let x := if x.inside then x else x.openBlock k.column k.position .blockMapping
    .ok (({ x with keyAllowed := false }.forward 1).push .value)
  | none =>
    if !x.inside && !x.keyAllowed then fault "a value is not allowed here"
    else
      let x := if x.inside then x else x.openBlock x.cursor.column x.tokens.length .blockMapping
      do
        let x ← { x with keyAllowed := !x.inside }.dropKey
        return (x.forward 1).push .value

/-! ## Names, tags and texts -/

def anchorEnds (s : List Char) : Bool :=
  match s with
  | [] => true
  | c :: _ => c = ' ' || c = '\t' || isBreak c || "?:,[]%@\x7b\x7d\x60".toList.contains c

def named (x : Lexer) (make : String → Token) : Reading Lexer := do
  let x ← x.noteKey
  let s := x.cursor.rest.drop 1
  let name := s.takeWhile isAnchorChar
  let rest := s.dropWhile isAnchorChar
  if name.isEmpty then fault "an anchor without a name"
  else if !anchorEnds rest then fault "an anchor with a bad name"
  else return ({ x with keyAllowed := false }.moveTo rest).push (make (String.ofList name))

/-- The handle and the suffix of a tag from behind its marks on. -/
def tagParts (v : Version) (s : List Char) : Reading (Option String × String × List Char) :=
  let (short, s) : String × List Char := match s with
    | '!' :: '!' :: r => ("!!", '!' :: r)
    | r => ("!", r)
  match s.drop 1 with
  | '<' :: r => do
    let (suffix, r) ← uriOf v r
    match r with
    | '>' :: r => return (none, suffix, r)
    | _ => fault "a tag that is not closed"
  | r =>
    if gapAhead r then .ok (none, short, r)
    else
      let word := r.takeWhile (fun c => c != ' ' && !isBreak c)
      do
        let (handle, r) ← if word.contains '!' then handleOf s else .ok (short, r)
        let (suffix, r) ← uriOf v r
        return (some handle, suffix, r)

def tagMark (x : Lexer) : Reading Lexer := do
  let x ← x.noteKey
  let (handle, suffix, rest) ← tagParts x.version x.cursor.rest
  if !lineAhead rest then fault "a tag with a bad end"
  else return ({ x with keyAllowed := false }.moveTo rest).push (.tag handle suffix)

def blockMark (x : Lexer) (isFolded : Bool) : Reading Lexer := do
  let x ← { x with keyAllowed := true }.dropKey
  let (text, cursor) ← blockText isFolded (x.indent + 1).toNat x.cursor.next
  return { x with cursor }.push (.text (String.ofList text) false)

def quoteMark (x : Lexer) (single : Bool) : Reading Lexer := do
  let x ← x.noteKey
  let s := x.cursor.rest.drop 1
  let (text, rest) ← if single then singleQuoted (s.length + 1) s else doubleQuoted (s.length + 1) s
  return ({ x with keyAllowed := false }.moveTo rest).push (.text (String.ofList text) false)

def plainMark (x : Lexer) : Reading Lexer := do
  let x ← x.noteKey
  let part := plainText x.inside x.version (x.indent + 1).toNat x.cursor
  return { x with keyAllowed := part.broken, cursor := part.cursor }.push
    (.text (String.ofList part.text) true)

/-! ## The next token -/

/-- A colon that is a mark and not the start of a plain text. -/
def isValueMark (x : Lexer) (rest : List Char) : Bool :=
  if x.inside && x.version = .older then true
  else if x.inside then
    if x.brackets.head? == some '[' then gapAhead rest
    else if x.waiting.getLast? == some .value then gapAhead rest
    else true
  else gapAhead rest

/-- Reads the tokens that start with a character. -/
def dispatch (x : Lexer) (c : Char) (rest : List Char) : Reading Lexer :=
  let top := x.cursor.column == 0
  if c = '%' && top then x.directive
  else if top && documentMark '-' (c :: rest) then x.startDocument
  else if top && documentMark '.' (c :: rest) then x.documentIndicator .documentEnd
  else if c = '[' then x.openBracket c .openList
  else if c = '\x7b' then x.openBracket c .openMap
  else if c = ']' then x.closeBracket .closeList
  else if c = '\x7d' then x.closeBracket .closeMap
  else if c = ',' then x.comma
  else if c = '-' && gapAhead rest then x.dash
  else if c = '?' && (x.inside || gapAhead rest) then x.keyMark
  else if c = ':' && x.isValueMark rest then x.valueMark
  else if c = '*' then x.named .alias
  else if c = '&' then x.named .anchor
  else if c = '!' then x.tagMark
  else if c = '|' && !x.inside then x.blockMark false
  else if c = '>' && !x.inside then x.blockMark true
  else if c = '\'' then x.quoteMark true
  else if c = '"' then x.quoteMark false
  else if startsPlain x.inside x.version c rest then x.plainMark
  else fault "a character that cannot start anything"

/-- A text that stops must go on for some more characters. -/
def needs (x : Lexer) (count : Nat) : Reading Unit :=
  match x.stop with
  | some e => if x.cursor.rest.length < count then .error e else .ok ()
  | none => .ok ()

/-- Quotes that are not closed where a text stops are no fault of their own. -/
def stopOr (x : Lexer) (e : Error) : Error := if e = .unclosed then x.stop.getD e else e

/-- Reads on by one step; nothing is left after the last. -/
def step (x : Lexer) : Reading (List Token ⊕ Lexer) := do
  let x := x.toToken
  x.needs 2
  let x ← x.dropStale
  let x := x.unwind x.cursor.column
  match x.cursor.rest with
  | [] => do
    let x ← (x.unwind (-1)).dropKey
    return .inl x.tokens
  | c :: rest => do
    let x ← (x.dispatch c rest).mapError x.stopOr
    x.needs 1
    return .inr x

/-- Reads up to the end of the text, or to where it cannot be read on. The tokens before
that place are those that nothing waits for. Each step reads at least one character. -/
def run : Nat → Lexer → List Token
  | 0, x => x.tokens
  | fuel + 1, x =>
    match x.dropStale with
    | .error e => x.released ++ [.broken e]
    | .ok x =>
      match x.step with
      | .error e => x.released ++ [.broken e]
      | .ok (.inl tokens) => tokens
      | .ok (.inr x) => run fuel x

end Lexer

/-- The tokens of a text, up to where it stops. -/
def Token.ofSource (s : Source) : List Token := (Lexer.start s).run (s.text.length + 2)

end Sourcebook.Yaml
