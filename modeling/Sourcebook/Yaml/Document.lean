-- A text as one value.
import Sourcebook.Yaml.Assembly

namespace Sourcebook.Yaml

open Data (Value)

/-- What a text stands for: a value among the values that it is made of. -/
structure Document where
  root : Ref
  store : Store

namespace Document

/-- The document of a text without any. -/
def nothing : Document := ⟨.single .null 0, ⟨#[]⟩⟩

def ofNode (v : Version) (n : Node) : Reading Document := do
  let (i, g) := Graph.ofNode v n
  let (root, a) ← (Assembly.whole i).run (.ofGraph v g)
  return ⟨root, a.store⟩

/-- Reads a text with one document at most. -/
def ofSource (s : Source) : Reading Document := do
  match ← Node.ofTokens (Token.ofSource s) with
  | none => return nothing
  | some (n, v) => ofNode v n

/-- What counts as false is empty. -/
def truthy (d : Document) : Bool :=
  match d.root with
  | .single v _ => v.truthy
  | .row items => !items.isEmpty
  | .cell c => !(d.store.cell c).isEmpty

/-- The entries of a mapping, in either of its forms. -/
def entries? (d : Document) : Option Entries :=
  match d.root with
  | .cell c =>
    match d.store.cell c with
    | .map entries => some entries
    | .ordered entries => some entries
    | _ => none
  | _ => none

/-- The value under a text key. -/
def get? (d : Document) (key : String) : Option Value :=
  match d.entries? with
  | none => none
  | some entries =>
    (entries.find? (·.1.same (.single (.text key) 0))).map fun e => d.store.value e.2

def value (d : Document) : Value := d.store.value d.root

end Document

/-- The value of a text. A text without a document has the null value. -/
def read (s : List Char) : Reading Value := (Document.ofSource (.ofText s)).map (·.value)

end Sourcebook.Yaml
