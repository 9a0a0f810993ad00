-- Values in the making. A collection has a cell of its own, which is filled after others
-- may have got hold of it, so a collection may come to stand inside itself.
import Sourcebook.Data.Places
import Sourcebook.Yaml.Constant

namespace Sourcebook.Yaml

open Data (Value)

abbrev CellId := Nat

/-- What a value holds: a single value, a row, or a cell. -/
inductive Ref where
  /-- A single value, and where it came from. The value that is no number is the same as
  another one only when they came from one place. -/
  | single (v : Value) (origin : Nat)
  | row (items : List Ref)
  | cell (c : CellId)
  deriving Repr, Inhabited

inductive Cell where
  | list (items : List Ref)
  | map (entries : List (Ref × Ref))
  | set (members : List Ref)
  | ordered (entries : List (Ref × Ref))
  deriving Repr, Inhabited

/-- The empty collection of a kind, if the kind is one of collections. -/
def Cell.empty? : Kind → Option Cell
  | .list => some (.list [])
  | .pairs => some (.list [])
  | .map => some (.map [])
  | .set => some (.set [])
  | .ordered => some (.ordered [])
  | _ => none

def Cell.keyFault : Cell → KeyFault
  | .list _ => .list
  | .map _ => .map
  | .set _ => .set
  | .ordered _ => .ordered

def Cell.isEmpty : Cell → Bool
  | .list items => items.isEmpty
  | .map entries => entries.isEmpty
  | .set members => members.isEmpty
  | .ordered entries => entries.isEmpty

/-- The mark that stands for a collection inside itself. -/
def Cell.mark : Cell → String
  | .list _ => "[...]"
  | .map _ => "\x7b...\x7d"
  | .set _ => "set(...)"
  | .ordered _ => "..."

/-! ## Keys -/

def isUndefined : Value → Bool
  | .number .undefined => true
  | _ => false

mutual

def Ref.same : Ref → Ref → Bool
  | .single v m, .single w n => v.sameKey w || (isUndefined v && isUndefined w && m == n)
  | .row xs, .row ys => sameRefs xs ys
  | .cell c, .cell d => c == d
  | _, _ => false

def sameRefs : List Ref → List Ref → Bool
  | [], [] => true
  | x :: xs, y :: ys => x.same y && sameRefs xs ys
  | _, _ => false

end

abbrev Entries := List (Ref × Ref)

def Entries.has (entries : Entries) (k : Ref) : Bool := entries.any (·.1.same k)

/-- Sets a key: the first place stays, the last value wins. -/
def Entries.put (entries : Entries) (k v : Ref) : Entries :=
  if entries.has k then entries.map (fun e => if e.1.same k then (e.1, v) else e)
  else entries ++ [(k, v)]

/-- All the cells, by their numbers. -/
structure Store where
  cells : Array Cell
  deriving Repr

namespace Store

def cell (s : Store) (c : CellId) : Cell := (s.cells[c]?).getD (.list [])

def new (s : Store) (c : Cell) : CellId × Store := (s.cells.size, ⟨s.cells.push c⟩)

def set (s : Store) (c : CellId) (content : Cell) : Store := ⟨s.cells.setIfInBounds c content⟩

mutual

/-- The first collection that keeps a value from being a key, if there is one. -/
def keyFault? (s : Store) : Ref → Option KeyFault
  | .single .. => none
  | .row items => firstFault? s items
  | .cell c => some (s.cell c).keyFault

def firstFault? (s : Store) : List Ref → Option KeyFault
  | [] => none
  | r :: rest => (keyFault? s r).or (firstFault? s rest)

end

/-- A value as the key of a mapping. A list counts as the row of what it holds by then;
other collections are no keys. -/
def asKey (s : Store) : Ref → Reading Ref
  | .cell c =>
    match s.cell c with
    | .list items => .ok (.row items)
    | _ => fault "a key that cannot be compared"
  | r => .ok r

/-- Nothing in a key may be a collection. -/
def checkKey (s : Store) (k : Ref) : Reading Unit :=
  match s.keyFault? k with
  | some f => .error (.key f)
  | none => .ok ()

/-! ## Members of sets -/

/-- The members of a set in its order. -/
def setOrder (members : List Ref) : List Ref :=
  Data.setOrder (fun | .single v _ => v.word? | _ => none) members

/-! ## Values -/

mutual

/-- The value that a reference stands for. A collection that is met inside itself is a
mark. The fuel counts the collections and rows on the way down. -/
def valueFrom (s : Store) (around : List CellId) : Nat → Ref → Value
  | _, .single v _ => v
  | 0, _ => .null
  | fuel + 1, .row items => .row (valuesFrom s around fuel items)
  | fuel + 1, .cell c =>
    if around.contains c then .again (s.cell c).mark
    else
      match s.cell c with
      | .list items => .list (valuesFrom s (c :: around) fuel items)
      | .set members => .set (valuesFrom s (c :: around) fuel members)
      | .map entries => .map (entriesFrom s (c :: around) fuel entries)
      | .ordered entries => .ordered (entriesFrom s (c :: around) fuel entries)
  termination_by fuel _ => (fuel, 0)

def valuesFrom (s : Store) (around : List CellId) (fuel : Nat) : List Ref → List Value
  | [] => []
  | r :: rest => valueFrom s around fuel r :: valuesFrom s around fuel rest
  termination_by refs => (fuel, refs.length + 1)

def entriesFrom (s : Store) (around : List CellId) (fuel : Nat) : Entries → List (Value × Value)
  | [] => []
  | (k, v) :: rest =>
    (valueFrom s around fuel k, valueFrom s around fuel v) :: entriesFrom s around fuel rest
  termination_by entries => (fuel, entries.length + 1)

end

def value (s : Store) (r : Ref) : Value := s.valueFrom [] (3 * s.cells.size + 3) r

end Store

end Sourcebook.Yaml
