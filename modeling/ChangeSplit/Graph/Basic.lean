import ChangeSplit.Collection.OrderedSet
import ChangeSplit.Graph.Kind
import ChangeSplit.Revision
import ChangeSplit.Text.Quoted

/-! The graph of a change. Nodes and edges are only ever added, and numbered in the order in which
they come: nodes from one, edges from zero. Two nodes may be joined by any number of edges, and a
node may be joined to itself. -/

namespace ChangeSplit

/-- What a node is, before it has a place in a graph. The package, the owner and the member tell
where the node belongs. They name no revision, so they can be compared across revisions. -/
structure NodeLabel where
  kind : NodeKind
  /-- The simple name. -/
  identifier : String
  /-- The full name with the revision in front. -/
  name : String
  revision : Revision
  package : Option String := none
  owner : Option String := none
  member : Option String := none
deriving DecidableEq, Repr

/-- A node of a graph. -/
structure Node extends NodeLabel where
  id : Nat
  /-- The hunk that touched the node last. -/
  lastMark : Option String := none
  /-- All hunks that touched the node. -/
  marks : OrderedSet String := ∅

namespace Node

/-- Whether some hunk touched a node. -/
def isTouched (n : Node) : Bool := n.lastMark.isSome

/-- The node as a hunk leaves it that touches it. -/
def mark (n : Node) (hunk : String) : Node :=
  { n with lastMark := some hunk, marks := n.marks.insert hunk }

/-- The name of a node without what stands before the first colon. There is none if no colon
is in it. -/
def entityName? (n : Node) : Option String :=
  match n.name.toList.dropWhile (· ≠ ':') with
  | [] => none
  | _ :: rest => some (String.ofList rest)

/-- A node as a message shows it. -/
def text (n : Node) : String :=
  "Node(" ++ toString n.id ++ ", " ++ n.kind.name ++ ", " ++ Text.quoted n.name ++ ")"

end Node

/-- An edge of a graph, from one node to another. Nodes are given by number. -/
structure Edge where
  id : Nat
  kind : EdgeKind
  source : Nat
  target : Nat
deriving DecidableEq, Repr

/-- A graph, with nodes and edges in order of their numbers. -/
structure Graph where
  nodes : List Node := []
  edges : List Edge := []
deriving Inhabited

/-- A node that a graph has already. -/
structure DuplicateNode where
  kind : NodeKind
  name : String
deriving DecidableEq, Repr

/-- The words for a node that a graph has already. -/
def DuplicateNode.message (e : DuplicateNode) : String :=
  "duplicate " ++ e.kind.name ++ " node " ++ e.name

namespace Graph

/-- The node with a number. -/
def node? (g : Graph) (id : Nat) : Option Node := g.nodes.find? (·.id = id)

/-- The node of a kind with a full name. -/
def find? (g : Graph) (kind : NodeKind) (name : String) : Option Node :=
  g.nodes.find? fun n => n.kind = kind && n.name = name

/-- The first node of a kind with a simple name in a revision. -/
def findIdentifier? (g : Graph) (kind : NodeKind) (identifier : String) (r : Revision) :
    Option Node :=
  g.nodes.find? fun n => n.kind = kind && n.revision = r && n.identifier = identifier

/-- Add a node. A graph has at most one node of a kind with a full name. -/
def addNode (g : Graph) (label : NodeLabel) : Except DuplicateNode (Graph × Node) :=
  match g.find? label.kind label.name with
  | some _ => .error ⟨label.kind, label.name⟩
  | none =>
    let n : Node := { toNodeLabel := label, id := g.nodes.length + 1 }
    .ok ({ g with nodes := g.nodes ++ [n] }, n)

/-- Add an edge. -/
def addEdge (g : Graph) (source target : Nat) (kind : EdgeKind) : Graph :=
  { g with edges := g.edges ++ [⟨g.edges.length, kind, source, target⟩] }

/-- Let a hunk touch a node. -/
def mark (g : Graph) (id : Nat) (hunk : String) : Graph :=
  { g with nodes := g.nodes.map fun n => if n.id = id then n.mark hunk else n }

/-- The nodes that some hunk touched. -/
def touched (g : Graph) : List Node := g.nodes.filter (·.isTouched)

/-- The edges that leave a node. Edges to the same node stand together. -/
def outEdges (g : Graph) (id : Nat) : List Edge :=
  let found := g.edges.filter (·.source = id)
  (found.map (·.target)).eraseDups.flatMap fun t => found.filter (·.target = t)

/-- The edges that reach a node. Edges from the same node stand together. -/
def inEdges (g : Graph) (id : Nat) : List Edge :=
  let found := g.edges.filter (·.target = id)
  (found.map (·.source)).eraseDups.flatMap fun s => found.filter (·.source = s)

/-- The edges that join two nodes, in either direction. -/
def edgesBetween (g : Graph) (a b : Nat) : List Edge :=
  g.edges.filter fun e => (e.source = a && e.target = b) || (e.source = b && e.target = a)

/-- The nodes that are joined to a node, in either direction. -/
def neighbors (g : Graph) (id : Nat) : OrderedSet Nat :=
  .ofList (g.edges.filterMap fun e =>
    if e.source = id then some e.target else if e.target = id then some e.source else none)

end Graph

end ChangeSplit
