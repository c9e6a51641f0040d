import ChangeSplit.Proofs.Grouping.Attraction
import ChangeSplit.Proofs.Grouping.Together

/-! Why hunks end in one group. Merging keeps the least distances and the edges between clusters,
and no longer knows which nodes they came from. Yet a chain of touched nodes leads from any hunk of
a group to any other, in which each node has a hunk in common with the next or was the reason for a
merge. So the greatest distance bounds every step of a group, however far the group reaches. -/

namespace ChangeSplit

namespace Graph

/-- Whether a chain of touched nodes leads from one node to another, in which each has a hunk in
common with the next or is close to it. -/
def Chain (g : Graph) (close : Node → Node → Prop) : Node → Node → Prop :=
  Relation.ReflTransGen fun m n =>
    n ∈ g.touched ∧ ((∃ name ∈ m.marks, name ∈ n.marks) ∨ close m n)

/-- Whether such a chain leads from a node that the one hunk touched to one that the other did. -/
def Chained (g : Graph) (close : Node → Node → Prop) (x y : String) : Prop :=
  ∃ m ∈ g.touched, x ∈ m.marks ∧ ∃ n ∈ g.touched, y ∈ n.marks ∧ g.Chain close m n

/-- Whether two nodes are no further apart than a limit. -/
def Within (g : Graph) (limit : Int) (m n : Node) : Prop :=
  ∃ distance, g.nodeDistance? m n (some limit) = some distance ∧ (distance : Int) ≤ limit

/-- Whether two hunks touched one node. -/
def SharesNode (g : Graph) (x y : String) : Prop := ∃ n ∈ g.nodes, x ∈ n.marks ∧ y ∈ n.marks

variable {g : Graph}

theorem Within.symm {limit : Int} {m n : Node} (h : g.Within limit m n) : g.Within limit n m := by
  obtain ⟨distance, hDistance, hLimit⟩ := h
  exact ⟨distance, g.nodeDistance?_comm m n _ ▸ hDistance, hLimit⟩

theorem Apart.eq_of_zero {a b : Nat} (h : g.Apart a 0 b) : a = b := by
  obtain ⟨hWalk, _⟩ := h
  cases hWalk
  rfl

/-- No other node is at distance zero. -/
theorem Within.id_eq {limit : Int} {m n : Node} (h : g.Within limit m n) (hLimit : limit = 0) :
    m.id = n.id := by
  obtain ⟨distance, hDistance, hNear⟩ := h
  obtain rfl : distance = 0 := by omega
  rcases (nearer_eq_some_iff.1 hDistance).1 with hTier | hEdges
  · by_contra hNe
    rw [structuralTier?, if_neg hNe] at hTier
    split_ifs at hTier <;> cases hTier
  · exact ((g.lookup_distancesFrom _ _ _ _).1 hEdges).2.eq_of_zero

/-- A chain stays one if nodes that are close have a hunk in common or are close in another
sense. -/
theorem Chain.imp {close close' : Node → Node → Prop} {m n : Node} (h : g.Chain close m n)
    (hm : m ∈ g.touched) (hClose : ∀ p ∈ g.touched, ∀ q ∈ g.touched, close p q →
      (∃ name ∈ p.marks, name ∈ q.marks) ∨ close' p q) : g.Chain close' m n := by
  suffices n ∈ g.touched ∧ g.Chain close' m n from this.2
  induction h with
  | refl => exact ⟨hm, .refl⟩
  | tail _ hStep ih =>
      obtain ⟨hTouched, hChain⟩ := ih
      obtain ⟨hn, hShared | hNear⟩ := hStep
      · exact ⟨hn, hChain.tail ⟨hn, .inl hShared⟩⟩
      · exact ⟨hn, hChain.tail ⟨hn, hClose _ hTouched _ hn hNear⟩⟩

/-- If nodes are close to themselves only, a chain of nodes is one of hunks that share a node. -/
theorem Chain.reflTransGen {close : Node → Node → Prop} {m n : Node} (h : g.Chain close m n)
    (hClose : ∀ m ∈ g.touched, ∀ n ∈ g.touched, close m n → m = n) (hm : m ∈ g.touched)
    {x y : String} (hx : x ∈ m.marks) (hy : y ∈ n.marks) :
    Relation.ReflTransGen g.SharesNode x y := by
  suffices n ∈ g.touched ∧ ∀ y ∈ n.marks, Relation.ReflTransGen g.SharesNode x y from this.2 y hy
  clear hy
  induction h with
  | refl => exact ⟨hm, fun y hy => .single ⟨m, (List.mem_filter.1 hm).1, hx, hy⟩⟩
  | tail _ hStep ih =>
      obtain ⟨hTouched, hChain⟩ := ih
      obtain ⟨hn, ⟨name, hName, hName'⟩ | hNear⟩ := hStep
      · exact ⟨hn, fun y hy => (hChain name hName).tail ⟨_, (List.mem_filter.1 hn).1, hName', hy⟩⟩
      · rw [← hClose _ hTouched _ hn hNear]
        exact ⟨hTouched, hChain⟩

end Graph

namespace Grouping

variable {g : Graph} {s : Settings} {files : List FileChange} {gs : List Group}
variable {ms : List Member} {clusters result : List Cluster} {close : Node → Node → Prop}
variable {x y : String}

/-- Whether chains lead from every node of a cluster to every other. -/
def Cluster.Chained (g : Graph) (close : Node → Node → Prop) (c : Cluster) : Prop :=
  ∀ m ∈ c.members, ∀ n ∈ c.members, g.Chain close m.node n.node

theorem chain_of_linked {maxDistance : Int} (hMembers : members g maxDistance = .ok ms)
    {m n : Member} (hm : m ∈ ms) (h : Linked ms m n) : g.Chain close m.node n.node := by
  suffices n ∈ ms ∧ g.Chain close m.node n.node from this.2
  induction h with
  | refl => exact ⟨hm, .refl⟩
  | tail _ hStep ih =>
      obtain ⟨hPrior, hChain⟩ := ih
      obtain ⟨hNext, mark, hMark, hMark'⟩ := hStep
      have hDescribes := (members_eq_ok hMembers).2 _ hPrior
      have hDescribes' := (members_eq_ok hMembers).2 _ hNext
      obtain ⟨name, hName, hOf⟩ := (hDescribes.marks mark).1 hMark
      obtain ⟨name', hName', hOf'⟩ := (hDescribes'.marks mark).1 hMark'
      obtain rfl : name = name' :=
        (HunkMark.name_of_ofName hOf).symm.trans (HunkMark.name_of_ofName hOf')
      exact ⟨hNext, hChain.tail ⟨hDescribes'.touched, .inl ⟨name, hName, hName'⟩⟩⟩

/-- A merge splices the chains of two clusters with one step between nodes that are close. -/
theorem Cluster.Chained.absorb {a b : Cluster} (ha : a.Chained g close) (hb : b.Chained g close)
    (hTouched : ∀ c ∈ [a, b], ∀ m ∈ c.members, m.node ∈ g.touched)
    (hSymm : ∀ m n, close m n → close n m)
    (hClose : ∃ m ∈ a.members, ∃ n ∈ b.members, close m.node n.node) :
    (a.absorb b).Chained g close := by
  obtain ⟨m, hm, n, hn, hClose⟩ := hClose
  have hmTouched := hTouched a (by simp) m hm
  have hnTouched := hTouched b (by simp) n hn
  intro p hp q hq
  rcases mem_absorb_members.1 hp with hp | hp <;> rcases mem_absorb_members.1 hq with hq | hq
  · exact ha p hp q hq
  · exact ((ha p hp m hm).tail ⟨hnTouched, .inr hClose⟩).trans (hb n hn q hq)
  · exact ((hb p hp n hn).tail ⟨hmTouched, .inr (hSymm _ _ hClose)⟩).trans (ha m hm q hq)
  · exact hb p hp q hq

/-- If only clusters with close nodes pass the gates, chains lead through every cluster in which
merging ends. -/
theorem chained_settles (hMembers : members g s.maxDistance = .ok ms)
    (hSymm : ∀ m n, close m n → close n m)
    (hPasses : ∀ a b : Cluster, a.Described g s.maxDistance → b.Described g s.maxDistance →
      ∀ distance, Passes s g.edges (Tie.between g.edges a b) (a.similarity b) distance →
        ∃ m ∈ a.members, ∃ n ∈ b.members, close m.node n.node)
    (hSettles : Greedy.Settles s g.edges (Cluster.initial ms) result) :
    ∀ c ∈ result, c.Chained g close := by
  have hStart : Arranged ms (Cluster.initial ms) ∧
      ∀ c ∈ Cluster.initial ms, c.Chained g close := by
    refine ⟨(components_initial ms).toArranged, fun c hc m hm n hn => ?_⟩
    exact chain_of_linked hMembers ((components_initial ms).mem hc hm)
      ((components_initial ms).linked c hc m hm n hn)
  refine (hSettles.invariant (motive := fun l => Arranged ms l ∧ ∀ c ∈ l, c.Chained g close)
    ?_ (numbered_initial hMembers) hStart).2.1.2
  rintro l a b distance hNumbered ⟨hArranged, hChained⟩ ha hb hId hGates
  refine ⟨hArranged.absorbed hNumbered ha hb hId, fun c hc => ?_⟩
  have hDescribed {c : Cluster} (hc : c ∈ l) : c.Described g s.maxDistance :=
    fun m hm => (members_eq_ok hMembers).2 m (hArranged.mem hc hm)
  rcases (mem_absorbed ha hId).1 hc with rfl | ⟨hc, _⟩
  · refine (hChained a ha).absorb (hChained b hb) ?_ hSymm
      (hPasses a b (hDescribed ha) (hDescribed hb) distance hGates)
    intro c hc m hm
    rcases List.mem_pair.1 hc with rfl | rfl
    · exact (hDescribed ha m hm).touched
    · exact (hDescribed hb m hm).touched
  · exact hChained c hc

/-- If only clusters with close nodes pass the gates, chains lead from every hunk of a group to
every other. -/
theorem chained_of_together (hGroups : groups s g files = .ok gs)
    (hSymm : ∀ m n, close m n → close n m)
    (hPasses : ∀ a b : Cluster, a.Described g s.maxDistance → b.Described g s.maxDistance →
      ∀ distance, Passes s g.edges (Tie.between g.edges a b) (a.similarity b) distance →
        ∃ m ∈ a.members, ∃ n ∈ b.members, close m.node n.node)
    (hNe : x ≠ y) (h : Together gs x y) : g.Chained close x y := by
  obtain ⟨_, rfl⟩ | ⟨_, ms, hMembers, rfl⟩ := groups_eq_ok hGroups
  · obtain ⟨_, hGroup, _⟩ := h
    cases hGroup
  rcases together_groupsOf_iff.1 h with ⟨c, hc, m, hm, n, hn, rfl, rfl⟩ | ⟨hSame, _⟩
  · have hArranged := arranged_mergeClusters s hMembers
    have hChained := chained_settles hMembers hSymm hPasses
      (settles_mergeClusters (numbered_initial hMembers)) c hc
    obtain ⟨p, hp, hMark⟩ := ((hArranged.gathered c hc).hunks m).1 hm
    obtain ⟨q, hq, hMark'⟩ := ((hArranged.gathered c hc).hunks n).1 hn
    have hDescribes := (members_eq_ok hMembers).2 p (hArranged.mem hc hp)
    have hDescribes' := (members_eq_ok hMembers).2 q (hArranged.mem hc hq)
    obtain ⟨name, hName, hOf⟩ := (hDescribes.marks m).1 hMark
    obtain ⟨name', hName', hOf'⟩ := (hDescribes'.marks n).1 hMark'
    rw [← HunkMark.name_of_ofName hOf] at hName
    rw [← HunkMark.name_of_ofName hOf'] at hName'
    exact ⟨p.node, hDescribes.touched, hName, q.node, hDescribes'.touched, hName',
      hChained p hp q hq⟩
  · exact absurd hSame hNe

theorem exists_within_of_passes {a b : Cluster} {distance : Nat} (ha : a.Described g s.maxDistance)
    (h : Passes s g.edges (Tie.between g.edges a b) (a.similarity b) distance) :
    ∃ m ∈ a.members, ∃ n ∈ b.members, g.Within s.maxDistance m.node n.node := by
  have hLeast := h.distance_eq
  rw [Tie.distance_between] at hLeast
  obtain ⟨m, hm, n, hn, hDistance⟩ := Tie.mem_distances.1 ((leastOf_spec _).1 _ hLeast)
  rw [Member.distance?, (ha m hm).reach] at hDistance
  exact ⟨m, hm, n, hn, distance, hDistance, h.near⟩

/-- A node brings all its marks into one cluster. -/
theorem exists_cluster_of_touched {maxDistance : Int} (hMarked : g.HunkMarked)
    (hMembers : members g maxDistance = .ok ms) (h : Arranged ms clusters) {n : Node}
    (hn : n ∈ g.touched) : ∃ c ∈ clusters, ∀ name ∈ n.marks, ∃ k ∈ c.hunks, k.name = name := by
  obtain ⟨m, hm, rfl⟩ := exists_member hMembers hn
  obtain ⟨c, hc, hmc⟩ := h.exists_cluster hm
  refine ⟨c, hc, fun name hName => ?_⟩
  obtain ⟨file, hunk, rfl⟩ := hMarked m.node (List.mem_filter.1 hn).1 name hName
  have hOf := HunkMark.ofName_ofIndexes file hunk
  exact ⟨_, ((h.gathered c hc).hunks _).2
    ⟨m, hmc, (((members_eq_ok hMembers).2 m hm).marks _).2 ⟨_, hName, hOf⟩⟩, rfl⟩

/-- Whatever is asked of merged groups, hunks that touched one node are grouped together. -/
theorem together_of_sharesNode (hBuilt : g.Built) (hMarked : g.HunkMarked)
    (hGroups : groups s g files = .ok gs) (hFiles : hunkNames files ≠ [])
    (h : g.SharesNode x y) : Together gs x y := by
  obtain ⟨hNone, _⟩ | ⟨_, ms, hMembers, rfl⟩ := groups_eq_ok hGroups
  · exact absurd hNone hFiles
  obtain ⟨n, hn, hx, hy⟩ := h
  have hTouched : n ∈ g.touched := List.mem_filter.2 ⟨hn, (hBuilt.isTouched_iff hn).2 ⟨x, hx⟩⟩
  obtain ⟨c, hc, hMarks⟩ :=
    exists_cluster_of_touched hMarked hMembers (arranged_mergeClusters s hMembers) hTouched
  obtain ⟨k, hk, hkName⟩ := hMarks x hx
  obtain ⟨l, hl, hlName⟩ := hMarks y hy
  exact together_groupsOf_iff.2 (.inl ⟨c, hc, k, hk, l, hl, hkName, hlName⟩)

/-- No hunk is in two groups, or in one group twice. -/
theorem nodup_hunks_groups (hBuilt : g.Built) (hMarked : g.HunkMarked)
    (hGroups : groups s g files = .ok gs) : (gs.flatMap (·.hunks)).Nodup := by
  obtain ⟨_, rfl⟩ | ⟨_, ms, hMembers, rfl⟩ := groups_eq_ok hGroups
  · exact List.nodup_nil
  have hSeparate : Separate g (some s.maxDistance)
      (mergeClusters s g.edges (Cluster.initial ms)) :=
    separate_mergeClusters (separate_initial hBuilt hMarked hMembers)
  obtain ⟨drafts, hDrafts, _, _, hSound, hDisjoint⟩ := exists_drafts_of_separate hSeparate
  rw [hDrafts]
  exact nodup_hunks_named 0 hSound hDisjoint

theorem Together.trans {z : String} (hNodup : (gs.flatMap (·.hunks)).Nodup)
    (hxy : Together gs x y) (hyz : Together gs y z) : Together gs x z := by
  obtain ⟨a, ha, hx, hy⟩ := hxy
  obtain ⟨b, hb, hy', hz⟩ := hyz
  have hSymm : Std.Symm (Function.onFun List.Disjoint Group.hunks) :=
    ⟨fun _ _ => List.disjoint_symm⟩
  have hSame : a = b := by
    by_contra hNe
    exact (List.nodup_flatMap.1 hNodup).2.forall ha hb hNe hy hy'
  exact ⟨a, ha, hx, hSame ▸ hz⟩

/-- The greatest distance is a ceiling, whatever else is asked of merged groups. Any two hunks of a
group are linked by a chain of touched nodes, in which each has a hunk in common with the next or is
no further from it. If the greatest distance is zero, the groups are the components of hunks that
share a node. -/
theorem groups_within (hBuilt : g.Built) (hMarked : g.HunkMarked)
    (hGroups : groups s g files = .ok gs) :
    (∀ x y, x ≠ y → Together gs x y → g.Chained (g.Within s.maxDistance) x y) ∧
    (s.maxDistance = 0 → (gs.flatMap (·.hunks)).Nodup ∧ ∀ x y, Together gs x y ↔
      hunkNames files ≠ [] ∧ (x ∈ hunkNames files ∨ ∃ n ∈ g.nodes, x ∈ n.marks) ∧
        Relation.ReflTransGen g.SharesNode x y) := by
  have hChained : ∀ x y, x ≠ y → Together gs x y → g.Chained (g.Within s.maxDistance) x y :=
    fun x y => chained_of_together hGroups (fun _ _ => Graph.Within.symm)
      fun a b ha _ _ hPasses => exists_within_of_passes ha hPasses
  have hNodup := nodup_hunks_groups hBuilt hMarked hGroups
  refine ⟨hChained, fun hZero => ⟨hNodup, fun x y => ?_⟩⟩
  constructor
  · intro h
    obtain ⟨_, rfl⟩ | ⟨hFiles, ms, hMembers, hEq⟩ := groups_eq_ok hGroups
    · obtain ⟨_, hGroup, _⟩ := h
      cases hGroup
    refine ⟨hFiles, ?_, ?_⟩
    · rw [hEq] at h
      rcases together_groupsOf_iff.1 h with ⟨c, hc, m, hm, _, _, rfl, _⟩ | ⟨_, hx⟩
      · exact .inr (exists_node_of_mem_hunks hMembers (arranged_mergeClusters s hMembers) hc hm)
      · exact .inl hx
    · by_cases hSame : x = y
      · rw [hSame]
      · obtain ⟨m, hm, hx, n, _, hy, hChain⟩ := hChained x y hSame h
        exact hChain.reflTransGen (fun p hp q hq hNear =>
          hBuilt.eq_of_id (List.mem_filter.1 hp).1 (List.mem_filter.1 hq).1 (hNear.id_eq hZero))
            hm hx hy
  · rintro ⟨hFiles, hKnown, hChain⟩
    have hShares {x y : String} (h : g.SharesNode x y) : Together gs x y :=
      together_of_sharesNode hBuilt hMarked hGroups hFiles h
    induction hChain with
    | refl =>
        rcases hKnown with hx | ⟨n, hn, hx⟩
        · obtain ⟨hNone, _⟩ | ⟨_, ms, _, rfl⟩ := groups_eq_ok hGroups
          · exact absurd hNone hFiles
          · exact together_groupsOf_iff.2 (.inr ⟨rfl, hx⟩)
        · exact hShares ⟨n, hn, hx, hx⟩
    | tail _ hStep ih => exact ih.trans hNodup (hShares hStep)

/-- One edge is between the two methods. They are grouped together at distance one only. -/
theorem groups_within_callPair :
    ∃ gs gs',
      groups { minSimilarity := .finite 0, maxDistance := 1 } callPair twoHunks = .ok gs ∧
      groups { minSimilarity := .finite 0, maxDistance := 0 } callPair twoHunks = .ok gs' ∧
      gs.map (·.hunks) = [["0:0", "0:1"]] ∧ gs'.map (·.hunks) = [["0:0"], ["0:1"]] ∧
      callPair.Chained (callPair.Within 1) "0:0" "0:1" ∧
      ∀ x y, Together gs' x y ↔ hunkNames twoHunks ≠ [] ∧
        (x ∈ hunkNames twoHunks ∨ ∃ n ∈ callPair.nodes, x ∈ n.marks) ∧
          Relation.ReflTransGen callPair.SharesNode x y := by
  have hHunks : (groups { minSimilarity := .finite 0, maxDistance := 1 } callPair
      twoHunks).toOption.map (·.map (·.hunks)) = some [["0:0", "0:1"]] := by decide +kernel
  have hHunks' : (groups { minSimilarity := .finite 0, maxDistance := 0 } callPair
      twoHunks).toOption.map (·.map (·.hunks)) = some [["0:0"], ["0:1"]] := by decide +kernel
  obtain ⟨gs, hGroups, hTogether⟩ := exists_ok_of_toOption hHunks
  obtain ⟨gs', hGroups', hApart⟩ := exists_ok_of_toOption hHunks'
  refine ⟨gs, gs', hGroups, hGroups', hTogether, hApart, ?_, ?_⟩
  · have hMem : ["0:0", "0:1"] ∈ gs.map (·.hunks) := by simp [hTogether]
    obtain ⟨group, hGroup, hEq⟩ := List.mem_map.1 hMem
    exact (groups_within built_callPair hunkMarked_callPair hGroups).1 "0:0" "0:1" (by decide)
      ⟨group, hGroup, by simp [hEq], by simp [hEq]⟩
  · exact ((groups_within built_callPair hunkMarked_callPair hGroups').2 rfl).2

end Grouping

end ChangeSplit
