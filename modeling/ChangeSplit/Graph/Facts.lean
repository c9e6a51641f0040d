import ChangeSplit.Graph.Basic

/-! What the nodes of a graph stand for and refer to. -/

namespace ChangeSplit.Graph

/-- The declarations that contain what a hunk's own node stands for. Other nodes have none. -/
def containers (g : Graph) (n : Node) : List Node :=
  if n.kind = .hunk then
    ((g.inEdges n.id).filter (·.kind = .contains)).filterMap fun e => g.node? e.source
  else []

/-- The names that a node stands for: its own, or those of its containers. -/
def ownNames? (g : Graph) (n : Node) : Option (List String) :=
  match g.containers n with
  | [] => n.entityName?.map ([·])
  | containers => containers.mapM (·.entityName?)

/-- The names that a node refers to. What it contains does not count. -/
def referredNames? (g : Graph) (n : Node) : Option (List String) :=
  (((g.outEdges n.id).filter (·.kind ≠ .contains)).filterMap fun e => g.node? e.target).mapM
    (·.entityName?)

/-- The names that a node stands for or refers to. There are none at all if one of those nodes has
a name without a revision. -/
def facts? (g : Graph) (n : Node) : Option (OrderedSet String) :=
  match g.ownNames? n, g.referredNames? n with
  | some own, some referred => some (.ofList (own ++ referred))
  | _, _ => none

end ChangeSplit.Graph
