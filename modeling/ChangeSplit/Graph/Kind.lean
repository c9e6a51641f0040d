/-! The kinds of nodes and edges of the graph of a change. -/

namespace ChangeSplit

/-- What a node of the graph stands for: a declared type, a member of one, an import, or a hunk
that touches no declaration as a whole. -/
inductive NodeKind where
  | classType
  | interfaceType
  | method
  | field
  | imported
  | hunk
deriving DecidableEq, Repr

namespace NodeKind

/-- The name of a kind of node. -/
def name : NodeKind → String
  | classType => "class"
  | interfaceType => "interface"
  | method => "method"
  | field => "field"
  | imported => "import"
  | hunk => "hunk"

/-- Whether a node stands for a type. -/
def isType : NodeKind → Bool
  | classType | interfaceType => true
  | _ => false

end NodeKind

/-- What the source of an edge does with its target. -/
inductive EdgeKind where
  | contains
  | calls
  | accesses
  | returns
  | takes
  | initializes
  | refers
deriving DecidableEq, Repr

namespace EdgeKind

/-- The name of a kind of edge. -/
def name : EdgeKind → String
  | contains => "contain"
  | calls => "call"
  | accesses => "access"
  | returns => "return"
  | takes => "param"
  | initializes => "initialize"
  | refers => "type"

/-- The weight of an edge in quarters. All weights are whole numbers of quarters, so sums of them
are exact. -/
def quarters : EdgeKind → Nat
  | contains | calls | accesses => 4
  | returns | takes | refers => 3
  | initializes => 2

end EdgeKind

end ChangeSplit
