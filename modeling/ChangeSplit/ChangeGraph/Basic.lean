import ChangeSplit.Graph.Basic
import ChangeSplit.Java.Declaration
import ChangeSplit.Note
import ChangeSplit.Pool

/-! The graph of a change together with what is known of its nodes. -/

namespace ChangeSplit

/-- The graph of a change, the entities and hunks behind its nodes, and what there was to note. -/
structure ChangeGraph where
  graph : Graph := {}
  pool : Pool := {}
  notes : List Note := []
deriving Inhabited

namespace ChangeGraph

/-- Add a note. -/
def note (g : ChangeGraph) (n : Note) : ChangeGraph := { g with notes := g.notes ++ [n] }

/-- What the node of an entity is. A type is its own owner. -/
def labelOf (e : Entity) : NodeLabel where
  kind := e.kind
  identifier := e.name
  name := e.key
  revision := e.revision
  package := some e.package
  owner := if e.kind.isType then some e.qualifiedName else e.owner
  member := e.member

/-- Take in an entity of the source at a path, unless there is a node for it. -/
def addEntity (path : String) (g : ChangeGraph) (e : Entity) : ChangeGraph :=
  match g.graph.addNode (labelOf e) with
  | .error _ => g.note (.duplicate e.kind e.key path)
  | .ok (graph, n) => { g with graph, pool := g.pool.addEntity ⟨e, some n.id⟩ }

/-- Take in the entities of a source. -/
def addSource (g : ChangeGraph) (s : Java.Subject) : ChangeGraph :=
  s.entities.foldl (addEntity s.unit.path) g

/-- A node that a graph had already, with what there was to note before it was found. -/
structure Blocked where
  node : DuplicateNode
  notes : List Note
deriving DecidableEq, Repr

/-- The node of a declared entity: the one with its full name, or else the first one with its
simple name. -/
def nodeFor? (g : Graph) (r : Revision) (i : Java.Identity) : Option Node :=
  (g.find? i.kind (r.scope i.qualifiedName)).orElse fun _ => g.findIdentifier? i.kind i.name r

end ChangeGraph

end ChangeSplit
