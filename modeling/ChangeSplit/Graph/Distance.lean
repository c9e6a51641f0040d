import ChangeSplit.Graph.Basic

/-! How far apart nodes are: by the edges between them, which count in either direction, and by
where they belong. -/

namespace ChangeSplit

namespace Graph

/-- The numbers of edges to the nodes that can be reached from a layer, no more than `reach`
edges further on. The layer lies `depth` edges from the start, and the nodes in `seen` are those
up to it. -/
def layers (g : Graph) : (reach depth : Nat) → (seen layer : List Nat) → List (Nat × Nat)
  | 0, depth, _, layer => layer.map (·, depth)
  | reach + 1, depth, seen, layer =>
    if layer.isEmpty then []
    else
      let next := ((layer.flatMap fun id => (g.neighbors id).toList).filter
        (!seen.contains ·)).eraseDups
      layer.map (·, depth) ++ layers g reach (depth + 1) (seen ++ next) next

/-- The nodes that can be reached from a node with no more edges than the limit allows, each with
the least number of edges. The node itself is always reached. -/
def distancesFrom (g : Graph) (id : Nat) (limit : Option Int) : List (Nat × Nat) :=
  let reach := limit.elim g.nodes.length fun l => min l.toNat g.nodes.length
  g.layers reach 0 [id] [id]

/-- The least number of edges between two nodes, if the limit allows so many. -/
def distance? (g : Graph) (a b : Nat) (limit : Option Int) : Option Nat :=
  (g.distancesFrom a limit).lookup b

end Graph

/-- How closely two nodes belong together: 0 for one node, 1 for one member, 2 for one type, 3 for
one package. -/
def structuralTier? (a b : Node) : Option Nat :=
  if a.id = b.id then some 0
  else if a.member.isSome && a.member = b.member then some 1
  else if a.owner.isSome && a.owner = b.owner then some 2
  else if a.package.isSome && a.package = b.package then some 3
  else none

/-- The lesser of two distances, either of which may be missing. -/
def nearer : Option Nat → Option Nat → Option Nat
  | some a, some b => some (min a b)
  | some a, none => some a
  | none, b => b

/-- How far apart two nodes are: by their edges or by where they belong, whichever is less. -/
def Graph.nodeDistance? (g : Graph) (a b : Node) (limit : Option Int) : Option Nat :=
  nearer (structuralTier? a b) (g.distance? a.id b.id limit)

end ChangeSplit
