import ChangeSplit.Collection.Table
import ChangeSplit.Grouping.Greedy

/-! Merging clusters with a queue of candidates. What lies between two clusters is worked out once,
and after a merge only the pairs with the cluster that grew are looked at again. Candidates of
clusters that have changed since stay in the queue and are passed over later. -/

namespace ChangeSplit.Grouping

/-- Two numbers of clusters, the smaller first. -/
def pairOf (a b : Nat) : Nat × Nat := if a < b then (a, b) else (b, a)

/-- Clusters on the way to being merged. -/
structure Merging where
  clusters : List Cluster
  /-- What lies between the clusters. -/
  ties : Table (Nat × Nat) Tie
  /-- The candidates in the order in which they are to be merged. -/
  queue : List Candidate

namespace Merging

/-- What lies between two clusters. -/
def tie (m : Merging) (a b : Nat) : Tie := (m.ties.find? (pairOf a b)).getD {}

/-- Put two clusters into the queue if they pass the gates. -/
def offer (s : Settings) (edges : List Edge) (a : Cluster) (m : Merging) (b : Cluster) : Merging :=
  match candidate? s edges (m.tie a.id b.id) a b with
  | some c => { m with queue := insertBy Candidate.le c m.queue }
  | none => m

/-- Clusters with what lies between them, and all candidates. -/
def start (s : Settings) (edges : List Edge) (clusters : List Cluster) : Merging :=
  let pairs := Greedy.pairs clusters
  let ties := pairs.foldl (fun t (a, b) => t.put (pairOf a.id b.id) (Tie.between edges a b)) {}
  pairs.foldl (fun m (a, b) => offer s edges a m b) ⟨clusters, ties, []⟩

/-- The cluster with a number. -/
def cluster? (m : Merging) (id : Nat) : Option Cluster := m.clusters.find? (·.id = id)

/-- Whether both clusters of a candidate are still as they were. -/
def isCurrent (m : Merging) (c : Candidate) : Bool :=
  (m.cluster? c.keep).any (·.stamp = c.keepStamp) && (m.cluster? c.drop).any (·.stamp = c.dropStamp)

/-- Let one cluster take in another. What lies between the others and either of them lies between
them and the cluster that grew. -/
def unite (s : Settings) (edges : List Edge) (m : Merging) (keep drop : Cluster) : Merging :=
  let grown := keep.absorb drop
  let others := m.clusters.filter fun c => c.id ≠ keep.id && c.id ≠ drop.id
  let clusters := (m.clusters.filter (·.id ≠ drop.id)).map fun c =>
    if c.id = keep.id then grown else c
  let ties := others.foldl (fun t c =>
    (t.put (pairOf keep.id c.id) ((m.tie keep.id c.id).merge (m.tie drop.id c.id))).erase
      (pairOf drop.id c.id)) (m.ties.erase (pairOf keep.id drop.id))
  others.foldl (offer s edges grown) ⟨clusters, ties, m.queue⟩

/-- Merge clusters for at most the given number of rounds. -/
def run (s : Settings) (edges : List Edge) : Nat → Merging → Merging
  | 0, m => m
  | rounds + 1, m =>
    match m.queue.dropWhile (!m.isCurrent ·) with
    | [] => { m with queue := [] }
    | c :: queue =>
      match m.cluster? c.keep, m.cluster? c.drop with
      | some keep, some drop => run s edges rounds (unite s edges { m with queue } keep drop)
      | _, _ => { m with queue }

end Merging

/-- Merge clusters until no pair passes the gates. -/
def mergeClusters (s : Settings) (edges : List Edge) (clusters : List Cluster) : List Cluster :=
  (Merging.run s edges clusters.length (Merging.start s edges clusters)).clusters

end ChangeSplit.Grouping
