import ChangeSplit.Collection.Table
import ChangeSplit.Grouping.Cluster

/-! The clusters to begin with, found in one walk over the touched nodes that keeps an owner for
each hunk. The cluster of a new node takes in the owners of its hunks. An owner that was taken in
already is no longer listed, and is passed over. -/

namespace ChangeSplit.Grouping.Ownership

/-- What is known after some of the nodes. -/
structure Walk where
  /-- The clusters that are left, each with the number under which it owns hunks. -/
  listed : List (Nat × Cluster) := []
  /-- The cluster that each hunk was last given to. -/
  owners : Table HunkMark Nat := {}
  /-- The clusters that others took in. -/
  gone : List Nat := []
  /-- How many clusters there have been. -/
  next : Nat := 0

/-- A cluster is no longer listed once another one took it in. Its hunks are still said to be its
own. -/
def Walk.drop (w : Walk) (k : Nat) : Walk :=
  { w with listed := w.listed.filter (·.1 ≠ k), gone := w.gone ++ [k] }

/-- Let the cluster of a new node take in the owner of a hunk, if it has one that is still
listed. -/
def takeIn (s : Walk × Cluster) (mark : HunkMark) : Walk × Cluster :=
  match s.1.owners.find? mark with
  | none => s
  | some k =>
    match s.1.listed.lookup k with
    | none => s
    | some other => (s.1.drop k, s.2.absorb other)

/-- List the cluster of a new node, and make it the owner of all its hunks. -/
def Walk.enlist (w : Walk) (own : Cluster) : Walk :=
  { w with
    listed := w.listed ++ [(w.next, own)]
    owners := own.hunks.toList.foldl (fun owners mark => owners.put mark w.next) w.owners
    next := w.next + 1 }

/-- Go on with one more node. -/
def visit (w : Walk) (m : Member) : Walk :=
  let (w, own) := m.marks.toList.foldl takeIn (w, Cluster.ofMember m)
  w.enlist own

/-- Go over all nodes. -/
def walk (ms : List Member) : Walk := ms.foldl visit {}

/-- The clusters that are left in the end, numbered in order of their first hunks. -/
def initial (ms : List Member) : List Cluster :=
  Cluster.numbered 0
    (sortBy (fun a b => HunkName.le a.first b.first) ((walk ms).listed.map (·.2)))

end ChangeSplit.Grouping.Ownership
