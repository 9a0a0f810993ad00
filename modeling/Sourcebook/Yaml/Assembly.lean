-- Nodes are made into values. A collection is made empty and filled later, after those
-- that are named beside it; the parts of a key are filled at once.
import Sourcebook.Yaml.Graph
import Sourcebook.Yaml.Store

namespace Sourcebook.Yaml

open Data (Value)

/-- What is made so far, and what waits to be filled. -/
structure Assembly where
  version : Version
  graph : Graph
  store : Store
  /-- The values of the nodes that are made. -/
  made : List (NodeId × Ref)
  /-- The collections that are being filled at once. -/
  opened : List (NodeId × Ref)
  /-- The collections that wait to be filled, with their cells. -/
  waiting : List (NodeId × CellId)
  /-- Collections are filled at once. -/
  atOnce : Bool

namespace Assembly

/-- A step of the work. -/
abbrev Work (α : Type) := StateT Assembly Reading α

def newCell (content : Cell) : Work CellId :=
  modifyGet fun a =>
    let (c, store) := a.store.new content
    (c, { a with store })

def setCell (c : CellId) (content : Cell) : Work Unit :=
  modify fun a => { a with store := a.store.set c content }

def noteOpened (n : NodeId) (r : Ref) : Work Unit :=
  modify fun a => { a with opened := (n, r) :: a.opened }

def finish (n : NodeId) (r : Ref) : Work Unit :=
  modify fun a => { a with made := (n, r) :: a.made, opened := a.opened.filter (·.1 != n) }

def setAtOnce (b : Bool) : Work Unit := modify fun a => { a with atOnce := b }

def await (n : NodeId) (c : CellId) : Work Unit :=
  modify fun a => { a with waiting := a.waiting ++ [(n, c)] }

/-! ## Parts -/

def shapeOf (n : NodeId) : Work (Option Shape) := do
  return (← get).graph.shape? n

def itemsOf (n : NodeId) : Work (List NodeId) := do
  match ← shapeOf n with
  | some (.list items) => return items
  | _ => fault "a list is missing"

/-- The one entry of a mapping that stands for an entry. -/
def entryOf (n : NodeId) : Work (NodeId × NodeId) := do
  match ← shapeOf n with
  | some (.map [e]) => return e
  | _ => fault "an entry that is no mapping of one key"

/-- The text of a node. A mapping stands for its default value. -/
def textOf (g : Graph) : Nat → NodeId → Reading String
  | 0, _ => fault "a default value inside itself"
  | fuel + 1, n =>
    match g.shape? n with
    | some (.text content) => .ok content
    | some (.map entries) =>
      match entries.find? (fun e => g.kindAt e.1 == .default) with
      | some e => textOf g fuel e.2
      | none => fault "a text is missing"
    | _ => fault "a text is missing"

/-- The text of a node of a kind. A date is no default value. -/
def contentOf (g : Graph) (kind : Kind) (n : NodeId) : Reading String :=
  match kind, g.shape? n with
  | .time, some (.text content) => .ok content
  | .time, _ => fault "not a date"
  | _, _ => textOf g (g.vertices.size + 1) n

/-- A single value. The word for what is no number names one value wherever it stands. -/
def single (n : NodeId) (kind : Kind) : Work Ref := do
  let a ← get
  let content ← contentOf a.graph kind n
  let v ← valueOf a.version kind content
  return .single v (if isUndefinedWord content.toList then 0 else n + 1)

/-- The key of an entry, where no list is taken for a row. -/
def checkedKey (r : Ref) : Work Unit := do (← get).store.checkKey r

def checkNew (entries : Entries) (k : Ref) (e : Error) : Work Unit :=
  if entries.has k then throw e else pure ()

/-! ## Values -/

mutual

/-- The value of a node. A node is made once; one that is being filled stands for itself.
The fuel counts the nodes on the way down. -/
def make (atOnce : Bool) : Nat → NodeId → Work Ref
  | 0, _ => fault "nested too deeply"
  | fuel + 1, n => do
    let a ← get
    match a.made.lookup n with
    | some r => return r
    | none =>
      if atOnce then setAtOnce true
      match a.opened.lookup n with
      | some r => return r
      | none =>
        let r ← start fuel n
        finish n r
        if atOnce then setAtOnce a.atOnce
        return r
  termination_by structural fuel => fuel

/-- A single value, or a new collection, which is filled at once or waits. -/
def start : Nat → NodeId → Work Ref
  | 0, _ => fault "nested too deeply"
  | fuel + 1, n => do
    let kind := (← get).graph.kindAt n
    match Cell.empty? kind with
    | none => single n kind
    | some content =>
      let c ← newCell content
      if (← get).atOnce then
        noteOpened n (.cell c)
        fill fuel n c
      else await n c
      return .cell c
  termination_by structural fuel => fuel

/-- Fills the collection of a node. -/
def fill : Nat → NodeId → CellId → Work Unit
  | 0, _, _ => fault "nested too deeply"
  | fuel + 1, n, c => do
    match (← get).graph.kindAt n with
    | .list => do
      let refs ← (← itemsOf n).mapM (make false fuel)
      setCell c (.list refs)
    | .map => do setCell c (.map (← mapping fuel n))
    | .set => do setCell c (.set (Store.setOrder ((← mapping fuel n).map (·.1))))
    | .ordered => do fillOrdered fuel c [] (← itemsOf n)
    | .pairs => do fillPairs fuel c [] (← itemsOf n)
    | _ => fault "a collection is missing"
  termination_by structural fuel => fuel

/-- The entries of a mapping. Those that are taken over come first, and then keys may
come again. -/
def mapping : Nat → NodeId → Work Entries
  | 0, _ => fault "nested too deeply"
  | fuel + 1, n => do
    match ← shapeOf n with
    | some (.map _) =>
      let graph ← (← get).graph.flatten n
      modify fun a => { a with graph }
      match graph.vertex? n with
      | some ⟨_, .map entries, []⟩ => entriesIn true fuel [] entries
      | some ⟨_, .map entries, merged⟩ =>
        let first ← entriesIn false fuel [] merged
        let second ← entriesIn false fuel [] entries
        return second.foldl (fun done e => done.put e.1 e.2) first
      | _ => return []
    | _ => fault "a mapping is missing"
  termination_by structural fuel => fuel

/-- Entries in turn, behind those that are done. -/
def entriesIn (unique : Bool) : Nat → Entries → List (NodeId × NodeId) → Work Entries
  | _, done, [] => return done
  | 0, _, _ => fault "nested too deeply"
  | fuel + 1, done, (k, v) :: rest => do
    let key ← make true fuel k
    let key ← (← get).store.asKey key
    let value ← make false fuel v
    checkedKey key
    if unique then checkNew done key (.malformed "a key that comes twice")
    entriesIn unique fuel (done.put key value) rest
  termination_by structural fuel => fuel

/-- Listed entries in turn. Each may come once. -/
def fillOrdered : Nat → CellId → Entries → List NodeId → Work Unit
  | _, _, _, [] => return ()
  | 0, _, _, _ => fault "nested too deeply"
  | fuel + 1, c, done, n :: rest => do
    let (k, v) ← entryOf n
    let key ← make false fuel k
    checkedKey key
    checkNew done key .repeatedEntry
    let value ← make false fuel v
    setCell c (.ordered (done ++ [(key, value)]))
    fillOrdered fuel c (done ++ [(key, value)]) rest
  termination_by structural fuel => fuel

/-- Listed pairs in turn. -/
def fillPairs : Nat → CellId → List Ref → List NodeId → Work Unit
  | _, _, _, [] => return ()
  | 0, _, _, _ => fault "nested too deeply"
  | fuel + 1, c, done, n :: rest => do
    let (k, v) ← entryOf n
    let key ← make false fuel k
    let value ← make false fuel v
    setCell c (.list (done ++ [.row [key, value]]))
    fillPairs fuel c (done ++ [.row [key, value]]) rest
  termination_by structural fuel => fuel

end

/-- How far down the work can go: every node is on the way at most once. -/
def depth (g : Graph) : Nat := 4 * g.size + 4

/-- Fills what waits, in turn, and then what has come to wait meanwhile. -/
def rounds : Nat → Work Unit
  | 0 => return ()
  | fuel + 1 => do
    let a ← get
    if a.waiting.isEmpty then return ()
    else
      set { a with waiting := [] }
      a.waiting.forM fun job => fill (depth a.graph) job.1 job.2
      rounds fuel

/-- The value of a node, with all that it holds filled. -/
def whole (n : NodeId) : Work Ref := do
  let g := (← get).graph
  let r ← make false (depth g) n
  rounds (g.vertices.size + 1)
  return r

def ofGraph (v : Version) (g : Graph) : Assembly := ⟨v, g, ⟨#[]⟩, [], [], [], false⟩

end Assembly

end Sourcebook.Yaml
