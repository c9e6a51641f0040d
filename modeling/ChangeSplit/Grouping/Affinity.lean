import ChangeSplit.Grouping.Cluster
import ChangeSplit.Settings

/-! How strongly two clusters belong together: how near their nodes come to each other, which
edges join them, and how far their facts overlap. Two clusters may be merged if all three measures
pass their gates. -/

namespace ChangeSplit.Grouping

/-- How far apart two nodes are: by the edges between them or by where they belong, whichever is
less. -/
def Member.distance? (m n : Member) : Option Nat :=
  nearer (structuralTier? m.node n.node) (m.reach.lookup n.node.id)

namespace Cluster

/-- Whether a node is in a cluster. -/
def has (c : Cluster) (id : Nat) : Bool := c.members.any (·.node.id = id)

/-- Whether a node is in a cluster, or contains what a node of the cluster stands for. -/
def reaches (c : Cluster) (id : Nat) : Bool :=
  c.members.any fun m => m.node.id = id || m.containers.contains id

/-- Whether an edge joins two clusters. One end of it is in one of them, and the other one reaches
its other end. -/
def joinedBy (a b : Cluster) (e : Edge) : Bool :=
  (a.has e.source && b.reaches e.target) || (a.has e.target && b.reaches e.source) ||
    (b.has e.source && a.reaches e.target) || (b.has e.target && a.reaches e.source)

/-- The share of the smaller set of facts that is in the other set too, to the precision of the
settings. -/
def similarity (a b : Cluster) : Rat :=
  let least := min a.facts.size b.facts.size
  if least = 0 then 0 else Binary64.nearest (mkRat (a.facts.sharedCount b.facts) least)

end Cluster

/-- What lies between two clusters. -/
structure Tie where
  /-- The least distance between nodes of both. -/
  distance : Option Nat := none
  /-- The numbers of the edges that join them. -/
  edges : OrderedSet Nat := ∅
deriving Inhabited

namespace Tie

/-- What lies between two clusters, worked out from their nodes. -/
def between (edges : List Edge) (a b : Cluster) : Tie where
  distance := (a.members.flatMap fun m => b.members.map m.distance?).foldl nearer none
  edges := .ofList ((edges.filter (a.joinedBy b)).map (·.id))

/-- What lies between a cluster and two clusters that become one. -/
def merge (s t : Tie) : Tie := ⟨nearer s.distance t.distance, s.edges.union t.edges⟩

/-- The weight of the edges between two clusters, in quarters. -/
def quarters (edges : List Edge) (t : Tie) : Nat :=
  (edges.filter fun e => t.edges.contains e.id).foldl (fun n e => n + e.kind.quarters) 0

end Tie

/-- A pair of clusters that may be merged. The cluster whose first hunk comes first is kept. -/
structure Candidate where
  distance : Nat
  similarity : Rat
  keepFirst : Int × Int
  dropFirst : Int × Int
  keep : Nat
  keepStamp : Nat
  drop : Nat
  dropStamp : Nat
deriving DecidableEq

/-- The order of two places in a change. -/
def comparePositions (a b : Int × Int) : Ordering := (compare a.1 b.1).then (compare a.2 b.2)

/-- The order in which candidates are merged: near ones first, and of equally near ones those with
the greater overlap. What is still even goes by the first hunks. -/
def Candidate.compare (a b : Candidate) : Ordering :=
  (Ord.compare a.distance b.distance).then <|
  (compareOfLessAndEq b.similarity a.similarity).then <|
  (comparePositions a.keepFirst b.keepFirst).then <|
  (comparePositions a.dropFirst b.dropFirst).then <|
  (Ord.compare a.keep b.keep).then <|
  (Ord.compare a.keepStamp b.keepStamp).then <|
  (Ord.compare a.drop b.drop).then <|
  Ord.compare a.dropStamp b.dropStamp

/-- Whether one candidate may be merged before another. -/
def Candidate.le (a b : Candidate) : Bool := a.compare b != .gt

/-- Two clusters as a candidate, if what lies between them passes the gates. -/
def candidate? (s : Settings) (edges : List Edge) (tie : Tie) (a b : Cluster) :
    Option Candidate :=
  match tie.distance with
  | none => none
  | some distance =>
    let similarity := a.similarity b
    if (distance : Int) > s.maxDistance then none
    else if (Binary64.finite similarity).lt s.minSimilarity then none
    else if (Binary64.finite (mkRat (tie.quarters edges) 4)).le s.weightThreshold then none
    else
      let (a, b) := if HunkName.lt b.first a.first then (b, a) else (a, b)
      some ⟨distance, similarity, a.first, b.first, a.id, a.stamp, b.id, b.stamp⟩

end ChangeSplit.Grouping
