import ChangeSplit.Grouping.Greedy
import ChangeSplit.Proofs.Graph.Distance
import ChangeSplit.Proofs.Grouping.Separation

/-! What lies between clusters is symmetric, and follows through a merge from what lay between the
parts. So it need not be worked out again from the nodes. -/

namespace ChangeSplit

/-- The least of some distances, any of which may be missing. -/
def leastOf (l : List (Option Nat)) : Option Nat := l.foldl nearer none

theorem nearer_assoc (x y z : Option Nat) : nearer (nearer x y) z = nearer x (nearer y z) := by
  cases x <;> cases y <;> cases z <;> simp [nearer, Nat.min_assoc]

instance : Std.Associative nearer := ⟨nearer_assoc⟩

theorem leastOf_cons (x : Option Nat) (l : List (Option Nat)) :
    leastOf (x :: l) = nearer x (leastOf l) := by
  have hFirst : nearer none x = nearer x none := nearer_comm none x
  rw [leastOf, List.foldl_cons, hFirst, List.foldl_assoc]
  rfl

/-- What the least distance is, if there is any: one of the distances, and no other is less. -/
theorem leastOf_spec (l : List (Option Nat)) :
    (∀ d, leastOf l = some d → some d ∈ l) ∧ ∀ e, some e ∈ l → ∃ d ≤ e, leastOf l = some d := by
  induction l with
  | nil =>
      constructor
      · intro d h
        cases h
      · intro e he
        cases he
  | cons x rest ih =>
      obtain ⟨hMem, hLeast⟩ := ih
      constructor
      · intro d h
        rw [leastOf_cons, nearer_eq_some_iff] at h
        rcases h.1 with rfl | hRest
        · exact List.mem_cons_self ..
        · exact List.mem_cons_of_mem _ (hMem d hRest)
      · intro e he
        rw [leastOf_cons]
        rcases List.mem_cons.1 he with rfl | he
        · cases hRest : leastOf rest with
          | none => exact ⟨e, Nat.le_refl e, rfl⟩
          | some d => exact ⟨min e d, Nat.min_le_left e d, rfl⟩
        · obtain ⟨d, hd, hRest⟩ := hLeast e he
          rw [hRest]
          cases x with
          | none => exact ⟨d, hd, rfl⟩
          | some c => exact ⟨min c d, by omega, rfl⟩

theorem leastOf_eq_some_iff {l : List (Option Nat)} {d : Nat} :
    leastOf l = some d ↔ some d ∈ l ∧ ∀ e, some e ∈ l → d ≤ e := by
  obtain ⟨hMem, hLeast⟩ := leastOf_spec l
  constructor
  · intro h
    refine ⟨hMem d h, fun e he => ?_⟩
    obtain ⟨d', hd', h'⟩ := hLeast e he
    rw [h] at h'
    cases h'
    exact hd'
  · rintro ⟨hd, hOthers⟩
    obtain ⟨d', hd', h'⟩ := hLeast d hd
    have hBack := hOthers d' (hMem d' h')
    rw [h', Nat.le_antisymm hd' hBack]

/-- Only which distances there are matters, not their order and number. -/
theorem leastOf_congr {l m : List (Option Nat)} (h : ∀ d, some d ∈ l ↔ some d ∈ m) :
    leastOf l = leastOf m := by
  apply Option.ext
  intro d
  simp only [leastOf_eq_some_iff, h]

theorem leastOf_append (l m : List (Option Nat)) :
    leastOf (l ++ m) = nearer (leastOf l) (leastOf m) := by
  induction l with
  | nil => rfl
  | cons x rest ih => rw [List.cons_append, leastOf_cons, leastOf_cons, ih, nearer_assoc]

namespace Grouping

/-- Distances between nodes count from both ends alike, since both know what the search gives. -/
theorem Member.distance?_comm {g : Graph} {limit : Option Int} {m n : Member}
    (hm : m.reach = g.distancesFrom m.node.id limit)
    (hn : n.reach = g.distancesFrom n.node.id limit) : m.distance? n = n.distance? m := by
  rw [distance?, distance?, hm, hn, g.lookup_distancesFrom_comm, structuralTier?_comm]

namespace Cluster

theorem joinedBy_comm (a b : Cluster) (e : Edge) : a.joinedBy b e = b.joinedBy a e := by
  simp only [joinedBy]
  ac_rfl

theorem has_absorb (a b : Cluster) (id : Nat) : (a.absorb b).has id = (a.has id || b.has id) := by
  rw [Bool.eq_iff_iff]
  simp [has, or_and_right, exists_or]

theorem reaches_absorb (a b : Cluster) (id : Nat) :
    (a.absorb b).reaches id = (a.reaches id || b.reaches id) := by
  rw [Bool.eq_iff_iff]
  simp [reaches, or_and_right, exists_or]

/-- An edge joins the union of two clusters to a third if it joins either of them to it. -/
theorem joinedBy_absorb (a b c : Cluster) (e : Edge) :
    (a.absorb b).joinedBy c e = (a.joinedBy c e || b.joinedBy c e) := by
  simp only [joinedBy, has_absorb, reaches_absorb, Bool.and_or_distrib_right,
    Bool.and_or_distrib_left]
  ac_rfl

theorem similarity_comm (a b : Cluster) : a.similarity b = b.similarity a := by
  simp only [similarity, OrderedSet.sharedCount_comm a.facts b.facts,
    Nat.min_comm a.facts.size b.facts.size]

end Cluster

namespace Tie

/-- The distances between the nodes of two clusters, one for each pair of nodes. -/
def distances (a b : Cluster) : List (Option Nat) :=
  a.members.flatMap fun m => b.members.map m.distance?

theorem distance_between (edges : List Edge) (a b : Cluster) :
    (between edges a b).distance = leastOf (distances a b) := rfl

theorem mem_edges_between {edges : List Edge} {a b : Cluster} {id : Nat} :
    id ∈ (between edges a b).edges ↔ ∃ e ∈ edges, a.joinedBy b e = true ∧ e.id = id := by
  simp [between, and_assoc]

theorem mem_distances {a b : Cluster} {x : Option Nat} :
    x ∈ distances a b ↔ ∃ m ∈ a.members, ∃ n ∈ b.members, m.distance? n = x := by
  simp [distances]

@[ext] theorem ext {s t : Tie} (hDistance : s.distance = t.distance)
    (hEdges : ∀ id, id ∈ s.edges ↔ id ∈ t.edges) : s = t := by
  cases s
  cases t
  cases hDistance
  congr 1
  exact OrderedSet.ext hEdges

theorem between_comm {g : Graph} {limit : Option Int} {a b : Cluster} (edges : List Edge)
    (ha : a.Surveyed g limit) (hb : b.Surveyed g limit) :
    between edges a b = between edges b a := by
  apply Tie.ext
  · rw [distance_between, distance_between]
    apply leastOf_congr
    intro d
    rw [mem_distances, mem_distances]
    constructor
    · rintro ⟨m, hm, n, hn, hDistance⟩
      exact ⟨n, hn, m, hm, Member.distance?_comm (ha m hm) (hb n hn) ▸ hDistance⟩
    · rintro ⟨n, hn, m, hm, hDistance⟩
      exact ⟨m, hm, n, hn, Member.distance?_comm (ha m hm) (hb n hn) ▸ hDistance⟩
  · intro id
    simp only [mem_edges_between, Cluster.joinedBy_comm a b]

/-- What lies between a merged cluster and another one follows from its two parts. -/
theorem between_absorb (edges : List Edge) (a b c : Cluster) :
    between edges (a.absorb b) c = (between edges a c).merge (between edges b c) := by
  apply Tie.ext
  · change leastOf (distances (a.absorb b) c) =
      nearer (leastOf (distances a c)) (leastOf (distances b c))
    rw [← leastOf_append]
    apply leastOf_congr
    intro d
    simp only [List.mem_append, mem_distances, Cluster.mem_absorb_members, or_and_right, exists_or]
  · intro id
    have hMerge : id ∈ ((between edges a c).merge (between edges b c)).edges ↔
        id ∈ (between edges a c).edges ∨ id ∈ (between edges b c).edges := OrderedSet.mem_union
    simp only [hMerge, mem_edges_between, Cluster.joinedBy_absorb, Bool.or_eq_true, or_and_right,
      and_or_left, exists_or]

end Tie

end Grouping

end ChangeSplit
