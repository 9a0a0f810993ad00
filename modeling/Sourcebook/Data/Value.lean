-- A value out of a data file: a settings file, an override file, or the options of
-- an include. Settings and titles may hold any value, and then its text is used.
import Sourcebook.Data.Moment
import Sourcebook.Decimal.Shortest
import Sourcebook.Text.Digits
import Sourcebook.Text.Quoted

namespace Sourcebook.Data

inductive Value where
  | null
  | bool (b : Bool)
  | int (n : Int)
  | number (x : Decimal.Double)
  | text (s : String)
  | bytes (bs : List UInt8)
  | date (d : Day)
  | moment (m : Moment)
  | list (items : List Value)
  /-- A list used as a key, or a pair in a list. -/
  | row (items : List Value)
  /-- Members without values, each once. -/
  | set (members : List Value)
  /-- Entries in the order in which their keys first came. -/
  | map (entries : List (Value × Value))
  /-- A map that was written as a list of its entries. -/
  | ordered (entries : List (Value × Value))
  /-- A value that is shown inside itself, by the mark that stands for it. -/
  | again (mark : String)
  deriving Repr, Inhabited

/-- Null, false, zero and whatever is empty count as false. -/
def Value.truthy : Value → Bool
  | .null => false
  | .bool b => b
  | .int n => n != 0
  | .number x => !x.isZero
  | .text s => !s.isEmpty
  | .bytes bs => !bs.isEmpty
  | .date _ => true
  | .moment _ => true
  | .list items => !items.isEmpty
  | .row items => !items.isEmpty
  | .set members => !members.isEmpty
  | .map entries => !entries.isEmpty
  | .ordered entries => !entries.isEmpty
  | .again _ => true

/-! ## Entries of a map -/

/-- The entries under a text key. -/
def Value.members : Value → List (String × Value)
  | .map entries =>
    entries.filterMap fun e =>
      match e.1 with
      | .text k => some (k, e.2)
      | _ => none
  | _ => []

def Value.get? (v : Value) (key : String) : Option Value := v.members.lookup key

/-- The value under a key, with null for a key that is missing. -/
def Value.getD (v : Value) (key : String) : Value := (v.get? key).getD .null

/-- The whole number that a value is, if it is one: true and false are one and zero. -/
def Value.whole? : Value → Option Int
  | .bool b => some (if b then 1 else 0)
  | .int n => some n
  | .number x => x.whole?
  | _ => none

/-- Two single values are the same as keys when they are equal; numbers are compared by
value. The value that is no number is the same as none. -/
def Value.sameKey : Value → Value → Bool
  | .null, .null => true
  | .text s, .text t => s == t
  | .bytes s, .bytes t => s == t
  | .date d, .date e => d == e
  | .moment m, .moment n => m.same n
  | .number x, .number y => x.whole? == y.whole? && (x.whole?.isSome || x == y) && x != .undefined
  | v, w => v.whole?.isSome && v.whole? == w.whole?

/-- Sets a key: the first place stays, the last value wins. -/
def insertEntry (entries : List (Value × Value)) (k v : Value) : List (Value × Value) :=
  if entries.any (fun e => e.1.sameKey k) then
    entries.map (fun e => if e.1.sameKey k then (e.1, v) else e)
  else entries ++ [(k, v)]

/-! ## Text -/

mutual

/-- A value as it stands inside a list or a message: texts are quoted. -/
def Value.shown : Value → String
  | .null => "None"
  | .bool b => if b then "True" else "False"
  | .int n => toString n
  | .number x => String.ofList (x.text Decimal.plainLayout)
  | .text s => Text.quotedText s
  | .bytes bs => Text.quotedBytes bs
  | .date d => d.shown
  | .moment m => m.shown
  | .list items => "[" ++ commaJoined (shownItems items) ++ "]"
  | .row [] => "()"
  | .row [v] => "(" ++ v.shown ++ ",)"
  | .row items => "(" ++ commaJoined (shownItems items) ++ ")"
  | .set [] => "set()"
  | .set members => "\x7b" ++ commaJoined (shownItems members) ++ "\x7d"
  | .map entries => "\x7b" ++ commaJoined (shownEntries entries) ++ "\x7d"
  | .ordered [] => "ordereddict()"
  | .ordered entries => "ordereddict([" ++ commaJoined (shownPairs entries) ++ "])"
  | .again mark => mark

def shownItems : List Value → List String
  | [] => []
  | v :: rest => v.shown :: shownItems rest

def shownEntries : List (Value × Value) → List String
  | [] => []
  | (k, v) :: rest => (k.shown ++ ": " ++ v.shown) :: shownEntries rest

def shownPairs : List (Value × Value) → List String
  | [] => []
  | (k, v) :: rest => ("(" ++ k.shown ++ ", " ++ v.shown ++ ")") :: shownPairs rest

end

/-- A value used as a text: a text is itself, and a date is written plainly. -/
def Value.asText : Value → String
  | .text s => s
  | .date d => d.text
  | .moment m => m.text
  | v => v.shown

/-! ## Numbers that are too long to write -/

/-- A whole number is not written with more digits than are read. -/
def isWritable (n : Int) : Bool := n.natAbs < Nat.pow 10 Text.maxDigits

def unwritableText : String :=
  "Exceeds the limit (" ++ toString Text.maxDigits
    ++ " digits) for integer string conversion; use sys.set_int_max_str_digits() to increase the limit"

mutual

/-- No number in the value is too long to write. -/
def Value.writable : Value → Bool
  | .int n => isWritable n
  | .list items => allWritable items
  | .row items => allWritable items
  | .set members => allWritable members
  | .map entries => pairsWritable entries
  | .ordered entries => pairsWritable entries
  | _ => true

def allWritable : List Value → Bool
  | [] => true
  | v :: rest => v.writable && allWritable rest

def pairsWritable : List (Value × Value) → Bool
  | [] => true
  | (k, v) :: rest => k.writable && v.writable && pairsWritable rest

end

end Sourcebook.Data
