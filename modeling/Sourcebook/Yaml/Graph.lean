-- The nodes of a text by their numbers. An alias is the node that it names, so nodes may
-- be shared, and a node may stand inside itself.
import Sourcebook.Yaml.Node
import Sourcebook.Yaml.Schema

namespace Sourcebook.Yaml

/-- The number of a node, in the order in which the nodes start. -/
abbrev NodeId := Nat

inductive Shape where
  | text (content : String)
  | list (items : List NodeId)
  | map (entries : List (NodeId × NodeId))
  deriving Repr

/-- A node that names its parts. -/
structure Vertex where
  kind : Kind
  shape : Shape
  /-- The entries that a mapping has taken over, once that was done. -/
  merged : List (NodeId × NodeId)
  deriving Repr

def Vertex.of (kind : Kind) (shape : Shape) : Vertex := ⟨kind, shape, []⟩

structure Graph where
  vertices : Array Vertex
  deriving Repr

namespace Graph

def vertex? (g : Graph) (n : NodeId) : Option Vertex := g.vertices[n]?

def set (g : Graph) (n : NodeId) (v : Vertex) : Graph := ⟨g.vertices.setIfInBounds n v⟩

def shape? (g : Graph) (n : NodeId) : Option Shape := (g.vertex? n).map Vertex.shape

/-- The entries of a mapping; other nodes have none. -/
def entriesOf (g : Graph) (n : NodeId) : List (NodeId × NodeId) :=
  match g.shape? n with
  | some (.map entries) => entries
  | _ => []

def kindAt (g : Graph) (n : NodeId) : Kind := ((g.vertex? n).map Vertex.kind).getD .unknown

/-- How many parts all nodes have together. -/
def size (g : Graph) : Nat :=
  g.vertices.foldl (fun n v =>
    n + 1 + match v.shape with
      | .text _ => 0
      | .list items => items.length
      | .map entries => 2 * entries.length) 0

/-! ## Numbering -/

/-- The kind of a text: its tag, or its form where it has neither quotes nor a tag, or the
mark alone. -/
def textKind (v : Version) (p : NodeProps) (content : String) (plain : Bool) : Kind :=
  match p.tag with
  | none => if plain then kindOf v content else .text
  | some tag => if tag == "!" then kindOf v content else tagKind tag

def tagged (p : NodeProps) (kind : Kind) : Kind :=
  match p.tag with
  | none => kind
  | some tag => if tag == "!" then kind else tagKind tag

/-- The nodes that have a number so far, and the anchors, the latest first. -/
structure Numbering where
  graph : Graph
  names : List (String × NodeId)

/-- Gives a node the next number, under the name of its anchor. -/
def Numbering.add (s : Numbering) (p : NodeProps) (v : Vertex) : NodeId × Numbering :=
  let n := s.graph.vertices.size
  (n, ⟨⟨s.graph.vertices.push v⟩, (p.anchor.map (·, n)).toList ++ s.names⟩)

def Numbering.fill (s : Numbering) (n : NodeId) (v : Vertex) : Numbering :=
  { s with graph := s.graph.set n v }

mutual

/-- The number of a node. A node has its number before its parts have theirs. -/
def number (v : Version) (s : Numbering) : Node → NodeId × Numbering
  | .alias name => ((s.names.lookup name).getD 0, s)
  | .text p content plain => s.add p (.of (textKind v p content plain) (.text content))
  | .list p items =>
    let kind := tagged p .list
    let (n, s) := s.add p (.of kind (.list []))
    let (items, s) := numberAll v s items
    (n, s.fill n (.of kind (.list items)))
  | .map p entries =>
    let kind := tagged p .map
    let (n, s) := s.add p (.of kind (.map []))
    let (entries, s) := numberEntries v s entries
    (n, s.fill n (.of kind (.map entries)))

def numberAll (v : Version) (s : Numbering) : List Node → List NodeId × Numbering
  | [] => ([], s)
  | n :: rest =>
    let (i, s) := number v s n
    let (is, s) := numberAll v s rest
    (i :: is, s)

def numberEntries (v : Version) (s : Numbering) :
    List (Node × Node) → List (NodeId × NodeId) × Numbering
  | [] => ([], s)
  | (k, n) :: rest =>
    let (i, s) := number v s k
    let (j, s) := number v s n
    let (es, s) := numberEntries v s rest
    ((i, j) :: es, s)

end

/-- The graph of a node, and the number of the node in it. -/
def ofNode (v : Version) (n : Node) : NodeId × Graph :=
  let (i, s) := number v ⟨⟨#[]⟩, []⟩ n
  (i, s.graph)

/-! ## Entries that are taken over -/

/-- The nodes whose entries a node under the merge mark gives: a mapping, or a list of
them, of which the first counts most. -/
def mergeSources (g : Graph) (n : NodeId) : Reading (List NodeId) :=
  let isMapping (m : NodeId) : Bool :=
    match g.shape? m with
    | some (.map _) => true
    | _ => false
  match g.shape? n with
  | some (.map _) => .ok [n]
  | some (.list items) =>
    if items.all isMapping then .ok items else fault "a merge of what is no mapping"
  | _ => fault "a merge of what is no mapping"

/-- The place of the first merge mark among entries, if there is one. -/
def mergeAt? (g : Graph) (entries : List (NodeId × NodeId)) : Option Nat :=
  entries.findIdx? fun e => g.kindAt e.1 == .merge

/-- The marks of default values among the keys of a mapping are texts. -/
def settleDefaults (g : Graph) (n : NodeId) : Graph :=
  (g.entriesOf n).foldl (fun g e =>
    match g.vertex? e.1 with
    | some v => if v.kind = .default then g.set e.1 { v with kind := .text } else g
    | none => g) g

mutual

/-- Takes the merge marks out of a mapping, and puts the entries that they take over in
front of its own. A second mark is a fault, unless the first gave nothing. -/
def flattenFrom (n : NodeId) (taken : List (NodeId × NodeId)) : Nat → Graph → Reading Graph
  | 0, _ => fault "a merge without an end"
  | fuel + 1, g =>
    let entries := g.entriesOf n
    match g.vertex? n, mergeAt? g entries with
    | none, _ => .ok g
    | some v, none =>
      let g := g.settleDefaults n
      .ok (if taken.isEmpty then g
        else g.set n { v with shape := .map (taken ++ entries), merged := taken })
    | some v, some place =>
      if !taken.isEmpty then fault "a key that comes twice"
      else
        match entries[place]? with
        | none => .ok g
        | some (_, source) => do
          let g := g.set n { v with shape := .map (entries.eraseIdx place) }
          let (lists, g) ← flattenAll (← g.mergeSources source) fuel g
          flattenFrom n lists.reverse.flatten fuel g

/-- Flattens nodes in turn, and gives the entries of each. -/
def flattenAll : List NodeId → Nat → Graph → Reading (List (List (NodeId × NodeId)) × Graph)
  | _, 0, _ => fault "a merge without an end"
  | [], _, g => .ok ([], g)
  | m :: rest, fuel + 1, g => do
    let g ← flattenFrom m [] fuel g
    let entries := g.entriesOf m
    let (lists, g) ← flattenAll rest fuel g
    return (entries :: lists, g)

end

/-- A mapping without merge marks. On the way down into the nodes that it takes over every
step takes a mark away or passes over a node of a list. -/
def flatten (g : Graph) (n : NodeId) : Reading Graph :=
  flattenFrom n [] ((g.size + 2) * (g.size + 2)) g

end Graph

end Sourcebook.Yaml
