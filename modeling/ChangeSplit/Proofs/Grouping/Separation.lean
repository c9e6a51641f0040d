import ChangeSplit.Grouping.Cluster
import ChangeSplit.Proofs.Collection.OrderedSet
import ChangeSplit.Proofs.Collection.Sorting
import ChangeSplit.Proofs.Diff.HunkName
import ChangeSplit.Proofs.Graph.Built
import Mathlib.Data.List.Pairwise
import Mathlib.Data.List.Nodup

/-! Clusters without common hunks. Hunks that have names of the usual form are told apart by their
places, so such clusters have different first hunks. The clusters that grouping begins with are of
this kind. -/

namespace ChangeSplit

namespace Grouping

namespace HunkMark

theorem compare_eq (m n : HunkMark) :
    compare m n =
      (compare m.file n.file).then ((compare m.hunk n.hunk).then (compare m.name n.name)) := rfl

instance : Std.LawfulEqOrd HunkMark where
  compare_self {m} := Std.ReflCmp.compare_self
  eq_of_compare {m n} h := by
    rw [compare_eq, Ordering.then_eq_eq, Ordering.then_eq_eq] at h
    obtain ⟨hFile, hHunk, hName⟩ := h
    cases m
    cases n
    congr 1
    · exact Std.LawfulEqCmp.eq_of_compare hFile
    · exact Std.LawfulEqCmp.eq_of_compare hHunk
    · exact Std.LawfulEqCmp.eq_of_compare hName

/-- The name of a mark is the usual one for its place. -/
def Proper (m : HunkMark) : Prop := m.name = HunkName.ofIndexes m.file m.hunk

theorem Proper.ext {m n : HunkMark} (hm : m.Proper) (hn : n.Proper)
    (hPosition : m.position = n.position) : m = n := by
  obtain ⟨file, hunk, name⟩ := m
  obtain ⟨file', hunk', name'⟩ := n
  obtain ⟨rfl, rfl⟩ : file = file' ∧ hunk = hunk' := Prod.mk.inj hPosition
  have hName : name = name' := hm.trans hn.symm
  rw [hName]

theorem ofName_ofIndexes (file hunk : Int) :
    ofName (HunkName.ofIndexes file hunk) = .ok ⟨file, hunk, HunkName.ofIndexes file hunk⟩ := by
  rw [ofName, HunkName.indexes_ofIndexes]
  rfl

theorem name_of_ofName {name : String} {m : HunkMark} (h : ofName name = .ok m) :
    m.name = name := by
  unfold ofName at h
  cases hIndexes : HunkName.indexes name with
  | error e =>
      rw [hIndexes] at h
      cases h
  | ok place =>
      rw [hIndexes] at h
      cases h
      rfl

/-- The order of marks refines that of places. -/
theorem le_position_of_lt {m n : HunkMark} (h : compare m n = .lt) :
    HunkName.le m.position n.position = true := by
  rw [compare_eq, Ordering.then_eq_lt, Ordering.then_eq_lt, Std.compare_eq_lt, Std.compare_eq_lt,
    Std.LawfulEqCmp.compare_eq_iff_eq, Std.LawfulEqCmp.compare_eq_iff_eq] at h
  rw [HunkName.le_iff]
  exact h.imp id (And.imp id fun hHunk => hHunk.elim Int.le_of_lt fun hSame => Int.le_of_eq hSame.1)

end HunkMark

namespace Cluster

/-- The first hunk of a cluster that has any is the least of them. -/
theorem exists_first {c : Cluster} (h : ∃ m, m ∈ c.hunks) :
    ∃ m ∈ c.hunks, c.first = m.position ∧
      ∀ n ∈ c.hunks, HunkName.le m.position n.position = true := by
  obtain ⟨n, hn⟩ := h
  cases hList : c.hunks.toList with
  | nil =>
      rw [OrderedSet.mem_def, hList] at hn
      cases hn
  | cons m rest =>
      refine ⟨m, OrderedSet.mem_def.2 (by simp [hList]), by simp [first, hList], ?_⟩
      intro k hk
      have hSorted := c.hunks.sorted
      rw [hList, List.pairwise_cons] at hSorted
      rw [OrderedSet.mem_def, hList] at hk
      rcases List.mem_cons.1 hk with rfl | hk
      · exact HunkName.le_refl _
      · exact HunkMark.le_position_of_lt (hSorted.1 k hk)

@[simp] theorem absorb_id (a b : Cluster) : (a.absorb b).id = a.id := rfl

@[simp] theorem absorb_stamp (a b : Cluster) : (a.absorb b).stamp = a.stamp + 1 := rfl

@[simp] theorem mem_absorb_members {a b : Cluster} {m : Member} :
    m ∈ (a.absorb b).members ↔ m ∈ a.members ∨ m ∈ b.members := by
  simp [absorb]

@[simp] theorem mem_absorb_hunks {a b : Cluster} {h : HunkMark} :
    h ∈ (a.absorb b).hunks ↔ h ∈ a.hunks ∨ h ∈ b.hunks :=
  OrderedSet.mem_union

/-- Whether the nodes of a cluster know the distances that the search in the graph gives. -/
def Surveyed (g : Graph) (limit : Option Int) (c : Cluster) : Prop :=
  ∀ m ∈ c.members, m.reach = g.distancesFrom m.node.id limit

theorem Surveyed.absorb {g : Graph} {limit : Option Int} {a b : Cluster}
    (ha : a.Surveyed g limit) (hb : b.Surveyed g limit) : (a.absorb b).Surveyed g limit :=
  fun m hm => (mem_absorb_members.1 hm).elim (ha m) (hb m)

/-- What holds of a single cluster on the way: it has hunks, all of them have names of the usual
form, and its nodes know the distances that the search in the graph gives. -/
structure Sound (g : Graph) (limit : Option Int) (c : Cluster) : Prop where
  nonempty : ∃ h, h ∈ c.hunks
  proper : ∀ h ∈ c.hunks, h.Proper
  reach : ∀ m ∈ c.members, m.reach = g.distancesFrom m.node.id limit

theorem Sound.absorb {g : Graph} {limit : Option Int} {a b : Cluster} (ha : a.Sound g limit)
    (hb : b.Sound g limit) : (a.absorb b).Sound g limit where
  nonempty := by
    obtain ⟨h, hh⟩ := ha.nonempty
    exact ⟨h, mem_absorb_hunks.2 (.inl hh)⟩
  proper h hh := (mem_absorb_hunks.1 hh).elim (ha.proper h) (hb.proper h)
  reach := Surveyed.absorb ha.reach hb.reach

/-- No hunk is in both clusters. -/
def Disjoint (a b : Cluster) : Prop := ∀ h ∈ a.hunks, ¬ h ∈ b.hunks

theorem Disjoint.symm {a b : Cluster} (h : Disjoint a b) : Disjoint b a :=
  fun m hb ha => h m ha hb

instance : Std.Symm Cluster.Disjoint := ⟨fun _ _ => Disjoint.symm⟩

/-- Clusters without a common hunk begin with different hunks. -/
theorem first_ne {g : Graph} {limit : Option Int} {a b : Cluster} (ha : a.Sound g limit)
    (hb : b.Sound g limit) (hDisjoint : Disjoint a b) : a.first ≠ b.first := by
  obtain ⟨m, hm, hFirst, _⟩ := exists_first ha.nonempty
  obtain ⟨n, hn, hFirst', _⟩ := exists_first hb.nonempty
  intro hEq
  have hSame : m = n := (ha.proper m hm).ext (hb.proper n hn) (by rw [← hFirst, ← hFirst', hEq])
  exact hDisjoint m hm (hSame ▸ hn)

end Cluster

/-- Clusters that are told apart by their numbers. -/
structure Numbered (g : Graph) (limit : Option Int) (clusters : List Cluster) : Prop where
  ids : (clusters.map (·.id)).Nodup
  surveyed : ∀ c ∈ clusters, c.Surveyed g limit

namespace Numbered

variable {g : Graph} {limit : Option Int} {clusters : List Cluster} {a b : Cluster}

theorem eq_of_id (h : Numbered g limit clusters) (ha : a ∈ clusters) (hb : b ∈ clusters)
    (hId : a.id = b.id) : a = b :=
  List.inj_on_of_nodup_map h.ids ha hb hId

/-- A cluster is found by its number. -/
theorem find?_id (h : Numbered g limit clusters) (ha : a ∈ clusters) :
    clusters.find? (·.id = a.id) = some a := by
  cases hFind : clusters.find? (·.id = a.id) with
  | none => simpa using List.find?_eq_none.1 hFind a ha
  | some b =>
      have hId : b.id = a.id := by simpa using List.find?_some hFind
      rw [h.eq_of_id (List.mem_of_find?_eq_some hFind) ha hId]

end Numbered

/-- Clusters that are told apart by their numbers, and no two of which have a common hunk. -/
structure Separate (g : Graph) (limit : Option Int) (clusters : List Cluster) : Prop where
  sound : ∀ c ∈ clusters, c.Sound g limit
  ids : (clusters.map (·.id)).Nodup
  disjoint : clusters.Pairwise Cluster.Disjoint

namespace Separate

variable {g : Graph} {limit : Option Int} {clusters : List Cluster} {a b : Cluster}

theorem numbered (h : Separate g limit clusters) : Numbered g limit clusters :=
  ⟨h.ids, fun c hc => (h.sound c hc).reach⟩

theorem eq_of_id (h : Separate g limit clusters) (ha : a ∈ clusters) (hb : b ∈ clusters)
    (hId : a.id = b.id) : a = b :=
  h.numbered.eq_of_id ha hb hId

theorem disjoint_of_ne (h : Separate g limit clusters) (ha : a ∈ clusters) (hb : b ∈ clusters)
    (hId : a.id ≠ b.id) : a.Disjoint b :=
  h.disjoint.forall ha hb fun hEq => hId (congrArg Cluster.id hEq)

/-- Hunks tell clusters apart. -/
theorem eq_of_hunks (h : Separate g limit clusters) (ha : a ∈ clusters) (hb : b ∈ clusters)
    (hHunks : a.hunks = b.hunks) : a = b := by
  by_contra hNe
  obtain ⟨m, hm⟩ := (h.sound a ha).nonempty
  exact h.disjoint_of_ne ha hb (fun hId => hNe (h.eq_of_id ha hb hId)) m hm (hHunks ▸ hm)

theorem nodup_hunks (h : Separate g limit clusters) : (clusters.map (·.hunks)).Nodup := by
  refine List.pairwise_map.2 ((List.Nodup.of_map _ h.ids).imp_of_mem fun ha hb hNe hSame => ?_)
  exact hNe (h.eq_of_hunks ha hb hSame)

theorem first_ne (h : Separate g limit clusters) (ha : a ∈ clusters) (hb : b ∈ clusters)
    (hId : a.id ≠ b.id) : a.first ≠ b.first :=
  Cluster.first_ne (h.sound a ha) (h.sound b hb) (h.disjoint_of_ne ha hb hId)

end Separate

end Grouping

end ChangeSplit
