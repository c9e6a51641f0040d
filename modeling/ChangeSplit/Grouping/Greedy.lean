import ChangeSplit.Grouping.Affinity

/-! The rule by which clusters are merged: as long as some pair of clusters passes the gates, the
first such pair in the order of candidates is merged. Here each round looks at all pairs anew. -/

namespace ChangeSplit.Grouping.Greedy

/-- All pairs of elements of a list, the earlier element first. -/
def pairs {α : Type} : List α → List (α × α)
  | [] => []
  | a :: rest => rest.map (a, ·) ++ pairs rest

/-- The pairs of clusters that pass the gates. -/
def candidates (s : Settings) (edges : List Edge) (clusters : List Cluster) : List Candidate :=
  (pairs clusters).filterMap fun (a, b) => candidate? s edges (Tie.between edges a b) a b

/-- The first of some candidates. -/
def least? : List Candidate → Option Candidate
  | [] => none
  | c :: rest =>
    match least? rest with
    | none => some c
    | some d => some (if c.le d then c else d)

/-- The clusters after one cluster took in another. -/
def merged (clusters : List Cluster) (c : Candidate) : List Cluster :=
  match clusters.find? (·.id = c.keep), clusters.find? (·.id = c.drop) with
  | some keep, some drop =>
    (clusters.filter (·.id ≠ c.drop)).map fun d =>
      if d.id = c.keep then keep.absorb drop else d
  | _, _ => clusters

/-- Merge clusters for at most the given number of rounds. -/
def run (s : Settings) (edges : List Edge) : Nat → List Cluster → List Cluster
  | 0, clusters => clusters
  | rounds + 1, clusters =>
    match least? (candidates s edges clusters) with
    | none => clusters
    | some c => run s edges rounds (merged clusters c)

/-- Merge clusters until no pair passes the gates. Each round leaves one cluster fewer. -/
def merge (s : Settings) (edges : List Edge) (clusters : List Cluster) : List Cluster :=
  run s edges clusters.length clusters

end ChangeSplit.Grouping.Greedy
