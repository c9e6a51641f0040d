import ChangeSplit.Proofs.Grouping.Arrangement
import ChangeSplit.Proofs.Number.Binary64
import Mathlib.Algebra.Order.BigOperators.Group.List
import Mathlib.Data.Finset.Basic

/-! When two sets of nodes attract each other: they come near enough to each other, and the edges
that join them weigh enough. Both only get stronger when the sets grow. If no overlap of facts is
asked for, two clusters pass the gates just if their nodes attract each other. -/

namespace ChangeSplit

namespace Graph

/-- Whether some nodes of two sets are no further apart than a distance allows. -/
def Near (g : Graph) (maxDistance : Int) (A B : Finset Nat) : Prop :=
  ∃ m ∈ g.nodes, m.id ∈ A ∧ ∃ n ∈ g.nodes, n.id ∈ B ∧
    ∃ distance, g.nodeDistance? m n none = some distance ∧ (distance : Int) ≤ maxDistance

/-- Whether a node is in a set of nodes, or contains what a node of the set stands for. -/
def reaches (g : Graph) (A : Finset Nat) (id : Nat) : Bool :=
  id ∈ A || g.nodes.any fun n => n.id ∈ A && (g.containers n).any (·.id = id)

/-- Whether an edge joins two sets of nodes. One end of it is in one of them, and the other one
reaches its other end. -/
def joins (g : Graph) (A B : Finset Nat) (e : Edge) : Bool :=
  (e.source ∈ A && g.reaches B e.target) || (e.target ∈ A && g.reaches B e.source) ||
    (e.source ∈ B && g.reaches A e.target) || (e.target ∈ B && g.reaches A e.source)

/-- The weight of the edges that join two sets of nodes, in quarters. -/
def quartersBetween (g : Graph) (A B : Finset Nat) : Nat :=
  ((g.edges.filter (g.joins A B)).map (·.kind.quarters)).sum

/-- The weight of the edges that join two sets of nodes. -/
def weightBetween (g : Graph) (A B : Finset Nat) : Rat := mkRat (g.quartersBetween A B) 4

/-- Whether two sets of nodes are near enough to each other and joined by enough. -/
structure Attracts (g : Graph) (s : Settings) (A B : Finset Nat) : Prop where
  near : g.Near s.maxDistance A B
  heavy : s.weightThreshold.lt (.finite (g.weightBetween A B)) = true

variable {g : Graph} {s s' : Settings} {A A' B B' : Finset Nat}

theorem Near.mono {d d' : Int} (h : g.Near d A B) (hd : d ≤ d') (hA : A ⊆ A') (hB : B ⊆ B') :
    g.Near d' A' B' := by
  obtain ⟨m, hm, hmA, n, hn, hnB, distance, hDistance, hNear⟩ := h
  exact ⟨m, hm, hA hmA, n, hn, hB hnB, distance, hDistance, hNear.trans hd⟩

theorem reaches_mono (hA : A ⊆ A') {id : Nat} (h : g.reaches A id = true) :
    g.reaches A' id = true := by
  simp only [reaches, Bool.or_eq_true, decide_eq_true_eq, List.any_eq_true, Bool.and_eq_true] at *
  exact h.imp (fun hId => hA hId) fun ⟨n, hn, hnA, hContainer⟩ => ⟨n, hn, hA hnA, hContainer⟩

theorem joins_mono (hA : A ⊆ A') (hB : B ⊆ B') {e : Edge} (h : g.joins A B e = true) :
    g.joins A' B' e = true := by
  have hReachesA {id : Nat} (hId : g.reaches A id = true) := reaches_mono hA hId
  have hReachesB {id : Nat} (hId : g.reaches B id = true) := reaches_mono hB hId
  simp only [joins, Bool.or_eq_true, Bool.and_eq_true, decide_eq_true_eq] at *
  rcases h with ((h | h) | h) | h
  · exact .inl (.inl (.inl ⟨hA h.1, hReachesB h.2⟩))
  · exact .inl (.inl (.inr ⟨hA h.1, hReachesB h.2⟩))
  · exact .inl (.inr ⟨hB h.1, hReachesA h.2⟩)
  · exact .inr ⟨hB h.1, hReachesA h.2⟩

/-- More edges weigh no less. -/
theorem weightBetween_mono (hA : A ⊆ A') (hB : B ⊆ B') :
    g.weightBetween A B ≤ g.weightBetween A' B' := by
  have hSub : (g.edges.filter (g.joins A B)).Sublist (g.edges.filter (g.joins A' B')) :=
    List.monotone_filter_right _ fun _ h => joins_mono hA hB h
  have hQuarters : g.quartersBetween A B ≤ g.quartersBetween A' B' :=
    (hSub.map _).sum_le_sum fun _ _ => Nat.zero_le _
  rw [weightBetween, weightBetween, Rat.mkRat_eq_div, Rat.mkRat_eq_div]
  exact div_le_div_of_nonneg_right (by exact_mod_cast hQuarters) (by norm_num)

/-- Attraction outlasts growth of the sets. -/
theorem Attracts.grow (h : g.Attracts s A B) (hA : A ⊆ A') (hB : B ⊆ B') : g.Attracts s A' B' where
  near := h.near.mono (le_refl _) hA hB
  heavy := Binary64.lt_finite_mono h.heavy (weightBetween_mono hA hB)

/-- What attracts still does so under settings that ask for less. -/
theorem Attracts.relax (h : g.Attracts s A B) (hDistance : s.maxDistance ≤ s'.maxDistance)
    (hThreshold : s'.weightThreshold.le s.weightThreshold = true) : g.Attracts s' A B where
  near := h.near.mono hDistance subset_rfl subset_rfl
  heavy := Binary64.lt_of_le_of_lt hThreshold h.heavy

end Graph

/-- Of two distances one is small enough if the nearer one is. -/
theorem exists_nearer_le_iff {x y : Option Nat} {limit : Int} :
    (∃ d, nearer x y = some d ∧ (d : Int) ≤ limit) ↔
      (∃ d, x = some d ∧ (d : Int) ≤ limit) ∨ ∃ d, y = some d ∧ (d : Int) ≤ limit := by
  cases x <;> cases y <;> simp [nearer]

theorem exists_leastOf_le_iff {l : List (Option Nat)} {limit : Int} :
    (∃ d, leastOf l = some d ∧ (d : Int) ≤ limit) ↔ ∃ d, some d ∈ l ∧ (d : Int) ≤ limit := by
  induction l with
  | nil => simp [leastOf]
  | cons x rest ih =>
      rw [leastOf_cons, exists_nearer_le_iff, ih]
      simp [or_and_right, exists_or, eq_comm]

namespace Grouping

variable {g : Graph} {s : Settings} {a b : Cluster} {m n : Member}

/-- The nodes of a cluster, by number. -/
def Cluster.block (c : Cluster) : Finset Nat := (c.members.map (·.node.id)).toFinset

theorem Cluster.mem_block {c : Cluster} {id : Nat} :
    id ∈ c.block ↔ ∃ m ∈ c.members, m.node.id = id := by
  simp [block]

theorem Cluster.block_absorb (a b : Cluster) : (a.absorb b).block = a.block ∪ b.block := by
  ext id
  simp only [Finset.mem_union, mem_block, mem_absorb_members, or_and_right, exists_or]

/-- Whether all nodes of a cluster are described as the graph has them. -/
def Cluster.Described (g : Graph) (maxDistance : Int) (c : Cluster) : Prop :=
  ∀ m ∈ c.members, m.Describes g maxDistance

theorem Member.Describes.mem_nodes {maxDistance : Int} (h : m.Describes g maxDistance) :
    m.node ∈ g.nodes :=
  (List.mem_filter.1 h.touched).1

/-- The limit of the search cuts off only what is further away than the limit. -/
theorem Member.exists_distance_le_iff {maxDistance : Int} (h : m.Describes g maxDistance) :
    (∃ d, m.distance? n = some d ∧ (d : Int) ≤ maxDistance) ↔
      ∃ d, g.nodeDistance? m.node n.node none = some d ∧ (d : Int) ≤ maxDistance := by
  rw [Member.distance?, Graph.nodeDistance?, exists_nearer_le_iff, exists_nearer_le_iff, h.reach,
    Graph.distance?]
  refine or_congr_right (exists_congr fun d => and_congr_left fun hLimit => ?_)
  rw [Graph.lookup_distancesFrom, Graph.lookup_distancesFrom]
  refine and_congr_left fun _ => ?_
  simp only [Graph.reachOf, Option.elim]
  omega

/-- Clusters are near enough to pass the gates just if their nodes are. -/
theorem exists_distance_between_iff (hBuilt : g.Built) {edges : List Edge}
    (ha : a.Described g s.maxDistance) (hb : b.Described g s.maxDistance) :
    (∃ d, (Tie.between edges a b).distance = some d ∧ (d : Int) ≤ s.maxDistance) ↔
      g.Near s.maxDistance a.block b.block := by
  rw [Tie.distance_between, exists_leastOf_le_iff]
  constructor
  · rintro ⟨d, hd, hLimit⟩
    obtain ⟨m, hm, n, hn, hDistance⟩ := Tie.mem_distances.1 hd
    obtain ⟨d', hd', hLimit'⟩ := (Member.exists_distance_le_iff (ha m hm)).1 ⟨d, hDistance, hLimit⟩
    exact ⟨m.node, (ha m hm).mem_nodes, Cluster.mem_block.2 ⟨m, hm, rfl⟩, n.node,
      (hb n hn).mem_nodes, Cluster.mem_block.2 ⟨n, hn, rfl⟩, d', hd', hLimit'⟩
  · rintro ⟨x, hx, hxa, y, hy, hyb, d, hd, hLimit⟩
    obtain ⟨m, hm, hmx⟩ := Cluster.mem_block.1 hxa
    obtain ⟨n, hn, hny⟩ := Cluster.mem_block.1 hyb
    rw [← hBuilt.eq_of_id (ha m hm).mem_nodes hx hmx,
      ← hBuilt.eq_of_id (hb n hn).mem_nodes hy hny] at hd
    obtain ⟨d', hd', hLimit'⟩ := (Member.exists_distance_le_iff (ha m hm)).2 ⟨d, hd, hLimit⟩
    exact ⟨d', Tie.mem_distances.2 ⟨m, hm, n, hn, hd'⟩, hLimit'⟩

theorem Cluster.has_eq (c : Cluster) (id : Nat) : c.has id = decide (id ∈ c.block) := by
  rw [Bool.eq_iff_iff]
  simp [has, block]

theorem Cluster.reaches_eq (hBuilt : g.Built) {maxDistance : Int}
    (h : a.Described g maxDistance) (id : Nat) : a.reaches id = g.reaches a.block id := by
  rw [Bool.eq_iff_iff]
  simp only [reaches, Graph.reaches, List.any_eq_true, Bool.or_eq_true, decide_eq_true_eq,
    Bool.and_eq_true, Cluster.mem_block]
  constructor
  · rintro ⟨m, hm, hId | hContainer⟩
    · exact .inl ⟨m, hm, hId⟩
    · refine .inr ⟨m.node, (h m hm).mem_nodes, ⟨m, hm, rfl⟩, ?_⟩
      rw [(h m hm).containers] at hContainer
      simpa using hContainer
  · rintro (⟨m, hm, hId⟩ | ⟨n, hn, ⟨m, hm, hmn⟩, hContainer⟩)
    · exact ⟨m, hm, .inl hId⟩
    · refine ⟨m, hm, .inr ?_⟩
      rw [← hBuilt.eq_of_id (h m hm).mem_nodes hn hmn] at hContainer
      rw [(h m hm).containers]
      simpa using hContainer

theorem Cluster.joinedBy_eq (hBuilt : g.Built) {maxDistance : Int}
    (ha : a.Described g maxDistance) (hb : b.Described g maxDistance) :
    a.joinedBy b = g.joins a.block b.block := by
  funext e
  simp only [joinedBy, Graph.joins, has_eq, reaches_eq hBuilt ha, reaches_eq hBuilt hb]

/-- The edges between two clusters weigh what those between their nodes weigh. -/
theorem quarters_between (hBuilt : g.Built) {maxDistance : Int}
    (ha : a.Described g maxDistance) (hb : b.Described g maxDistance) :
    (Tie.between g.edges a b).quarters g.edges = g.quartersBetween a.block b.block := by
  have hFilter : g.edges.filter (fun e => (Tie.between g.edges a b).edges.contains e.id) =
      g.edges.filter (g.joins a.block b.block) := by
    apply List.filter_congr
    intro e he
    rw [← Cluster.joinedBy_eq hBuilt ha hb, Bool.eq_iff_iff, OrderedSet.contains_iff,
      Tie.mem_edges_between]
    constructor
    · rintro ⟨d, hd, hJoined, hId⟩
      rwa [← List.inj_on_of_nodup_map hBuilt.nodup_edge_ids hd he hId]
    · exact fun hJoined => ⟨e, he, hJoined, rfl⟩
  rw [Tie.quarters, hFilter, Graph.quartersBetween, List.sum_eq_foldl, List.foldl_map]

theorem Cluster.similarity_nonneg (a b : Cluster) : 0 ≤ a.similarity b := by
  unfold similarity
  dsimp only
  split
  case isTrue => exact le_refl 0
  case isFalse =>
    apply Binary64.nearest_nonneg
    rw [Rat.mkRat_eq_div]
    positivity

/-- If no overlap of facts is asked for, two clusters pass the gates just if their nodes attract
each other. -/
theorem exists_passes_iff (hBuilt : g.Built) (hSimilarity : s.minSimilarity.plain = .finite 0)
    (hThreshold : s.weightThreshold ≠ .undefined) (ha : a.Described g s.maxDistance)
    (hb : b.Described g s.maxDistance) :
    (∃ distance, Passes s g.edges (Tie.between g.edges a b) (a.similarity b) distance) ↔
      g.Attracts s a.block b.block := by
  constructor
  · rintro ⟨distance, hPasses⟩
    refine ⟨(exists_distance_between_iff hBuilt ha hb).1
      ⟨distance, hPasses.distance_eq, hPasses.near⟩, ?_⟩
    rw [Binary64.lt_finite_iff hThreshold, Graph.weightBetween, ← quarters_between hBuilt ha hb]
    exact hPasses.heavy
  · rintro ⟨hNear, hHeavy⟩
    obtain ⟨distance, hDistance, hLimit⟩ := (exists_distance_between_iff hBuilt ha hb).2 hNear
    rw [Binary64.lt_finite_iff hThreshold, Graph.weightBetween,
      ← quarters_between hBuilt ha hb] at hHeavy
    exact ⟨distance, hDistance, hLimit, Binary64.finite_lt_of_plain_eq_zero hSimilarity
      (a.similarity_nonneg b), hHeavy⟩

end Grouping

end ChangeSplit
