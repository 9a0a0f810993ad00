-- Wildcard patterns over a whole text: a star for any run of characters, a question
-- mark for one character, a set in brackets for one character of the set. Stars
-- cross slashes and line feeds; only the caller cuts a path into its parts.
import Sourcebook.Text.Lines

namespace Sourcebook.Text

/-- One item of a set: a character, or all characters between two. -/
inductive SetItem where
  | one (c : Char)
  | range (first last : Char)
  deriving Repr, DecidableEq

def SetItem.holds (c : Char) : SetItem → Bool
  | .one d => c == d
  | .range a b => a ≤ c && c ≤ b

inductive Wildcard where
  | star
  | any
  | exact (c : Char)
  | oneOf (negated : Bool) (items : List SetItem)
  deriving Repr, DecidableEq

/-! ## Reading a pattern -/

/-- The items of a set, from left to right. A range whose ends are in the wrong order
holds nothing and is left out. -/
def setItems : List Char → List SetItem
  | a :: '-' :: b :: rest => if b < a then setItems rest else .range a b :: setItems rest
  | a :: rest => .one a :: setItems rest
  | [] => []

/-- What a set stands for. A mark of negation counts when it comes first among the
items that are left; alone it stands for any character. -/
def setOf (content : List Char) : Wildcard :=
  match content with
  | '!' :: rest =>
    match setItems rest with
    | [] => .any
    | items => .oneOf true items
  | content =>
    match setItems content with
    | [.one '!'] => .any
    | .one '!' :: items => .oneOf true items
    | .range '!' b :: items => .oneOf true (.one '-' :: .one b :: items)
    | items => .oneOf false items

/-- The content of a set and what follows it. A closing bracket that comes first
belongs to the content. -/
def cutSet (s : List Char) : Option (List Char × List Char) :=
  let (mark, body) := match s with
    | '!' :: r => (['!'], r)
    | r => ([], r)
  let (bracket, body) := match body with
    | ']' :: r => ([']'], r)
    | r => ([], r)
  match body.dropWhile (· != ']') with
  | [] => none
  | _ :: rest => some (mark ++ bracket ++ body.takeWhile (· != ']'), rest)

/-- Reads a pattern, past the characters that a set took. A bracket that is never
closed stands for itself. -/
def readWildcards : Nat → List Char → List Wildcard
  | _, [] => []
  | taken + 1, _ :: s => readWildcards taken s
  | 0, c :: s =>
    if c = '*' then .star :: readWildcards 0 s
    else if c = '?' then .any :: readWildcards 0 s
    else if c = '[' then
      match cutSet s with
      | none => .exact '[' :: readWildcards 0 s
      | some (content, rest) => setOf content :: readWildcards (s.length - rest.length) s
    else .exact c :: readWildcards 0 s

/-- Stars in a row are one star. -/
def mergeStars : List Wildcard → List Wildcard
  | .star :: .star :: ws => mergeStars (.star :: ws)
  | w :: ws => w :: mergeStars ws
  | [] => []

def wildcards (pattern : List Char) : List Wildcard := mergeStars (readWildcards 0 pattern)

/-! ## Matching -/

def Wildcard.accepts (c : Char) : Wildcard → Bool
  | .star => true
  | .any => true
  | .exact d => c == d
  | .oneOf negated items => items.any (·.holds c) != negated

/-- Whether each element of a list or one after it is true. -/
def anyFrom : List Bool → List Bool
  | [] => []
  | b :: rest =>
    match anyFrom rest with
    | [] => [b]
    | r :: more => (b || r) :: r :: more

/-- For the text and for all its ends, down to the empty one, whether the items match it
to its last character. A star leaves any number of characters to what follows it, and
every other item leaves all but the first. -/
def matchTable (s : List Char) : List Wildcard → List Bool
  | [] => s.map (fun _ => false) ++ [true]
  | .star :: ws => anyFrom (matchTable s ws)
  | w :: ws => List.zipWith (fun c rest => w.accepts c && rest) s ((matchTable s ws).drop 1) ++ [false]

def matchesAll (ws : List Wildcard) (s : List Char) : Bool := (matchTable s ws).headD false

/-- The pattern matches the text from its first to its last character. -/
def wildcardMatch (pattern text : List Char) : Bool := matchesAll (wildcards pattern) text

end Sourcebook.Text
