import ChangeSplit.Collection.Sorting
import ChangeSplit.Diff.Hunk
import ChangeSplit.Graph.Distance
import ChangeSplit.Graph.Facts

/-! The touched nodes of a graph, gathered into clusters: sets of nodes that are grouped together.
To begin with, nodes are together that a common hunk touched. -/

namespace ChangeSplit.Grouping

/-- The name of a hunk with its place in the change. -/
structure HunkMark where
  file : Int
  hunk : Int
  name : String
deriving DecidableEq, Repr

namespace HunkMark

/-- Marks go by their place in the change. -/
instance : Ord HunkMark :=
  ⟨compareLex (compareOn file) (compareLex (compareOn hunk) (compareOn name))⟩

instance : Std.TransOrd HunkMark :=
  inferInstanceAs (Std.TransCmp
    (compareLex (compareOn file) (compareLex (compareOn hunk) (compareOn name))))

/-- The mark with a name. -/
def ofName (name : String) : Except NotInteger HunkMark :=
  (HunkName.indexes name).map fun (file, hunk) => ⟨file, hunk, name⟩

/-- The place of a mark in the change. -/
def position (m : HunkMark) : Int × Int := (m.file, m.hunk)

end HunkMark

/-- A touched node with what its grouping depends on. -/
structure Member where
  node : Node
  marks : OrderedSet HunkMark
  facts : OrderedSet String
  /-- The distances to the nodes around it. -/
  reach : List (Nat × Nat)
  /-- The numbers of the nodes that contain what the node stands for. -/
  containers : List Nat

/-- Why nodes cannot be grouped. -/
inductive Fault where
  /-- A node has a name without a revision. -/
  | unscoped
  /-- The name of a hunk does not tell its place. -/
  | misnamed (part : NotInteger)
deriving DecidableEq, Repr

/-- The touched nodes of a graph, up to their marks. -/
def factsOf (g : Graph) : Except Fault (List (Node × OrderedSet String)) :=
  g.touched.mapM fun n =>
    match g.facts? n with
    | some facts => .ok (n, facts)
    | none => .error .unscoped

/-- The touched nodes of a graph as members of clusters. -/
def members (g : Graph) (maxDistance : Int) : Except Fault (List Member) :=
  match factsOf g with
  | .error e => .error e
  | .ok touched => touched.mapM fun (n, facts) =>
    match n.marks.toList.mapM HunkMark.ofName with
    | .error e => .error (.misnamed e)
    | .ok marks =>
      .ok ⟨n, .ofList marks, facts, g.distancesFrom n.id (some maxDistance),
        (g.containers n).map (·.id)⟩

/-- Some touched nodes that are grouped together. -/
structure Cluster where
  id : Nat
  /-- How often the cluster took in another one since it was numbered. -/
  stamp : Nat := 0
  /-- The nodes in order of their numbers. -/
  members : List Member
  hunks : OrderedSet HunkMark
  facts : OrderedSet String

namespace Cluster

/-- The cluster of one node. -/
def ofMember (m : Member) : Cluster := ⟨0, 0, [m], m.marks, m.facts⟩

/-- A cluster with the nodes of another one. -/
def absorb (a b : Cluster) : Cluster :=
  { a with
    members := sortBy (fun m n => m.node.id ≤ n.node.id) (a.members ++ b.members)
    hunks := a.hunks.union b.hunks
    facts := a.facts.union b.facts
    stamp := a.stamp + 1 }

/-- The place of the first hunk of a cluster. -/
def first (c : Cluster) : Int × Int := (c.hunks.toList.head?.map (·.position)).getD (0, 0)

/-- Whether some hunk touched nodes of both clusters. -/
def sharesHunk (a b : Cluster) : Bool := a.hunks.sharedCount b.hunks > 0

/-- Put the cluster of one more node among clusters without common hunks. It takes in all clusters
with which it has a hunk in common. -/
def join (clusters : List Cluster) (m : Member) : List Cluster :=
  let own := ofMember m
  clusters.filter (!own.sharesHunk ·) ++
    [(clusters.filter own.sharesHunk).foldl absorb own]

/-- Clusters numbered from the given number on. Stamps begin anew, whatever a cluster took in while
clusters were joined: candidates for a merge are compared with them, and there are none before. -/
def numbered (next : Nat) : List Cluster → List Cluster
  | [] => []
  | c :: rest => { c with id := next, stamp := 0 } :: numbered (next + 1) rest

/-- The clusters to begin with, numbered in order of their first hunks. -/
def initial (members : List Member) : List Cluster :=
  numbered 0 (sortBy (fun a b => HunkName.le a.first b.first) (members.foldl join []))

end Cluster

end ChangeSplit.Grouping
