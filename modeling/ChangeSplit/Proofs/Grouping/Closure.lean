import ChangeSplit.Proofs.Grouping.Attraction
import ChangeSplit.Proofs.Grouping.Together
import Mathlib.Order.Bounds.Basic
import Mathlib.Order.Partition.Finpartition

/-! Merging as a closure. If no overlap of facts is asked for, clusters are merged just if their
nodes attract each other, and attraction outlasts growth. So the course of merging does not matter:
every course ends with the finest partition of the touched nodes in which nothing is apart that was
together to begin with, and no two blocks attract each other. Settings that ask for less lead to a
coarser partition. -/

namespace ChangeSplit

namespace Graph

/-- The numbers of the nodes that some hunk touched. -/
def touchedIds (g : Graph) : Finset Nat := (g.touched.map (·.id)).toFinset

/-- Whether no two blocks of a partition of the touched nodes attract each other. -/
def AtRest (g : Graph) (s : Settings) (p : Finpartition g.touchedIds) : Prop :=
  ∀ A ∈ p.parts, ∀ B ∈ p.parts, A ≠ B → ¬ g.Attracts s A B

/-- A partition that is at rest stays at rest under settings that ask for more. -/
theorem AtRest.anti {g : Graph} {s s' : Settings} {p : Finpartition g.touchedIds}
    (h : g.AtRest s' p) (hDistance : s.maxDistance ≤ s'.maxDistance)
    (hThreshold : s'.weightThreshold.le s.weightThreshold = true) : g.AtRest s p :=
  fun A hA B hB hNe hAttracts => h A hA B hB hNe
    (hAttracts.relax hDistance hThreshold)

end Graph

namespace Grouping

variable {g : Graph} {s s' : Settings} {ms ms' : List Member} {maxDistance : Int}
variable {clusters clusters' result : List Cluster}

/-- Whether clusters are the blocks of a partition, one each. -/
def Forms {ids : Finset Nat} (clusters : List Cluster) (p : Finpartition ids) : Prop :=
  p.parts.val = Multiset.ofList (clusters.map Cluster.block)

theorem Forms.mem_parts_iff {ids : Finset Nat} {p : Finpartition ids} (h : Forms clusters p)
    {A : Finset Nat} : A ∈ p.parts ↔ ∃ c ∈ clusters, c.block = A := by
  rw [← Finset.mem_val, h, Multiset.mem_coe, List.mem_map]

/-- No node is in two blocks. -/
theorem Arranged.pairwise_disjoint (h : Arranged ms clusters)
    (hIds : (ms.map (·.node.id)).Nodup) :
    clusters.Pairwise fun a b => Disjoint a.block b.block := by
  have hNodup : (clusters.flatMap fun c => c.members.map (·.node.id)).Nodup := by
    rw [← List.map_flatMap]
    exact (h.perm.map _).nodup_iff.2 hIds
  refine (List.nodup_flatMap.1 hNodup).2.imp fun hApart => ?_
  rw [Finset.disjoint_left]
  intro id ha hb
  rw [Cluster.block, List.mem_toFinset] at ha hb
  exact hApart ha hb

/-- Clusters that hold the touched nodes, each once, form a partition of them. -/
theorem exists_forms (hBuilt : g.Built) (hMembers : members g maxDistance = .ok ms)
    (h : Arranged ms clusters) : ∃ p : Finpartition g.touchedIds, Forms clusters p := by
  have hApart := h.pairwise_disjoint (nodup_ids_of_members hBuilt hMembers)
  have hNonempty : ∀ c ∈ clusters, c.block.Nonempty := by
    intro c hc
    obtain ⟨m, hm⟩ := List.exists_mem_of_ne_nil _ (h.gathered c hc).nonempty
    exact ⟨m.node.id, Cluster.mem_block.2 ⟨m, hm, rfl⟩⟩
  have hTouched {id : Nat} : id ∈ g.touchedIds ↔ ∃ m ∈ ms, m.node.id = id := by
    rw [Graph.touchedIds, List.mem_toFinset, ← (members_eq_ok hMembers).1, List.map_map,
      List.mem_map]
    rfl
  have hNodup : (clusters.map Cluster.block).Nodup := by
    refine List.pairwise_map.2 (hApart.imp_of_mem fun ha _ hDisjoint hSame => ?_)
    rw [← hSame] at hDisjoint
    exact (hNonempty _ ha).ne_empty (Finset.disjoint_self_iff_empty _ |>.1 hDisjoint)
  refine ⟨.ofExistsUnique ⟨_, Multiset.coe_nodup.2 hNodup⟩ ?_ ?_ ?_, rfl⟩
  · intro A hA id hId
    obtain ⟨c, hc, rfl⟩ := List.mem_map.1 hA
    obtain ⟨m, hm, rfl⟩ := Cluster.mem_block.1 hId
    exact hTouched.2 ⟨m, h.mem hc hm, rfl⟩
  · intro id hId
    obtain ⟨m, hm, rfl⟩ := hTouched.1 hId
    obtain ⟨c, hc, hmc⟩ := h.exists_cluster hm
    have hIn : m.node.id ∈ c.block := Cluster.mem_block.2 ⟨m, hmc, rfl⟩
    refine ⟨c.block, ⟨List.mem_map_of_mem hc, hIn⟩, ?_⟩
    rintro B ⟨hB, hIn'⟩
    obtain ⟨d, hd, rfl⟩ := List.mem_map.1 hB
    by_contra hNe
    have hSymm : Std.Symm fun a b : Cluster => Disjoint a.block b.block :=
      ⟨fun _ _ hDisjoint => hDisjoint.symm⟩
    have hDisjoint := hApart.forall hd hc fun hSame => hNe (congrArg Cluster.block hSame)
    exact Finset.disjoint_left.1 hDisjoint hIn' hIn
  · intro hEmpty
    obtain ⟨c, hc, hBlock⟩ := List.mem_map.1 hEmpty
    exact (hNonempty c hc).ne_empty hBlock

section Settles

variable (hBuilt : g.Built) (hMembers : members g s.maxDistance = .ok ms)
variable (hSimilarity : s.minSimilarity.plain = .finite 0)
variable (hThreshold : s.weightThreshold ≠ .undefined)

include hMembers in
theorem Arranged.described (h : Arranged ms clusters) {c : Cluster} (hc : c ∈ clusters) :
    c.Described g s.maxDistance :=
  fun m hm => (members_eq_ok hMembers).2 m (h.mem hc hm)

/-- Clusters only take in others, so what is in one block stays so. -/
theorem settles_grow (hNumbered : Numbered g (some s.maxDistance) clusters)
    (hSettles : Greedy.Settles s g.edges clusters result) :
    ∀ d ∈ clusters, ∃ c ∈ result, d.block ⊆ c.block := by
  refine (hSettles.invariant (motive := fun l => ∀ d ∈ clusters, ∃ c ∈ l, d.block ⊆ c.block)
    ?_ hNumbered fun d hd => ⟨d, hd, subset_rfl⟩).2.1
  intro l a b _ hl hBlocks ha hb hId _ d hd
  obtain ⟨c, hc, hSub⟩ := hBlocks d hd
  have hGrown : a.absorb b ∈ absorbed l a b := (mem_absorbed ha hId).2 (.inl rfl)
  by_cases hca : c.id = a.id
  · rw [hl.eq_of_id hc ha hca] at hSub
    exact ⟨_, hGrown, hSub.trans (by simp [Cluster.block_absorb])⟩
  · by_cases hcb : c.id = b.id
    · rw [hl.eq_of_id hc hb hcb] at hSub
      exact ⟨_, hGrown, hSub.trans (by simp [Cluster.block_absorb])⟩
    · exact ⟨c, (mem_absorbed ha hId).2 (.inr ⟨hc, hca, hcb⟩), hSub⟩

include hBuilt hMembers hSimilarity hThreshold

/-- Clusters within the blocks of a partition at rest never leave them: if two of them pass the
gates, they attract each other, and so would their blocks if these were two. -/
theorem settles_within (hNumbered : Numbered g (some s.maxDistance) clusters)
    (h : Arranged ms clusters) (hSettles : Greedy.Settles s g.edges clusters result)
    {p : Finpartition g.touchedIds} (hRest : g.AtRest s p)
    (hWithin : ∀ c ∈ clusters, ∃ A ∈ p.parts, c.block ⊆ A) :
    ∀ c ∈ result, ∃ A ∈ p.parts, c.block ⊆ A := by
  refine (hSettles.invariant (motive := fun l =>
    Arranged ms l ∧ ∀ c ∈ l, ∃ A ∈ p.parts, c.block ⊆ A) ?_ hNumbered ⟨h, hWithin⟩).2.1.2
  rintro l a b distance hl ⟨hArranged, hWithin⟩ ha hb hId hPasses
  refine ⟨hArranged.absorbed hl ha hb hId, fun c hc => ?_⟩
  rcases (mem_absorbed ha hId).1 hc with rfl | ⟨hc, _⟩
  · obtain ⟨A, hA, hSubA⟩ := hWithin a ha
    obtain ⟨B, hB, hSubB⟩ := hWithin b hb
    have hAttracts : g.Attracts s a.block b.block :=
      (exists_passes_iff hBuilt hSimilarity hThreshold (hArranged.described hMembers ha)
        (hArranged.described hMembers hb)).1 ⟨distance, hPasses⟩
    have hSame : A = B := by
      by_contra hNe
      exact hRest A hA B hB hNe (hAttracts.grow hSubA hSubB)
    refine ⟨A, hA, ?_⟩
    rw [Cluster.block_absorb]
    exact Finset.union_subset hSubA (hSame ▸ hSubB)
  · exact hWithin c hc

/-- Where no pair passes the gates, no two blocks attract each other. -/
theorem atRest_of_not_offered (hNumbered : Numbered g (some s.maxDistance) result)
    (h : Arranged ms result) (hNone : ∀ c, ¬ Greedy.Offered s g.edges result c)
    {p : Finpartition g.touchedIds} (hForms : Forms result p) : g.AtRest s p := by
  intro A hA B hB hNe hAttracts
  obtain ⟨a, ha, rfl⟩ := hForms.mem_parts_iff.1 hA
  obtain ⟨b, hb, rfl⟩ := hForms.mem_parts_iff.1 hB
  obtain ⟨distance, hPasses⟩ := (exists_passes_iff hBuilt hSimilarity hThreshold
    (h.described hMembers ha) (h.described hMembers hb)).2 hAttracts
  have hId : a.id ≠ b.id := fun hSame =>
    hNe (congrArg Cluster.block (hNumbered.eq_of_id ha hb hSame))
  exact hNone _ (Greedy.offered_of_passes ha hb hId hPasses)

/-- Every course of merging ends with the finest partition at rest that keeps together what was
together. -/
theorem settles_isLeast (hNumbered : Numbered g (some s.maxDistance) clusters)
    (h : Arranged ms clusters) {start : Finpartition g.touchedIds} (hStart : Forms clusters start)
    (hSettles : Greedy.Settles s g.edges clusters result) :
    ∃ finest : Finpartition g.touchedIds, Forms result finest ∧
      IsLeast {p | start ≤ p ∧ g.AtRest s p} finest := by
  have hArranged := h.settles hNumbered hSettles
  have hGrow := settles_grow hNumbered hSettles
  obtain ⟨hNumbered', _, hNone⟩ := hSettles.invariant (motive := fun _ => True)
    (fun _ _ _ _ _ _ _ _ _ _ => trivial) hNumbered trivial
  obtain ⟨finest, hFinest⟩ := exists_forms hBuilt hMembers hArranged
  refine ⟨finest, hFinest, ⟨fun A hA => ?_, ?_⟩, ?_⟩
  · obtain ⟨c, hc, rfl⟩ := hStart.mem_parts_iff.1 hA
    obtain ⟨d, hd, hSub⟩ := hGrow c hc
    exact ⟨d.block, hFinest.mem_parts_iff.2 ⟨d, hd, rfl⟩, hSub⟩
  · exact atRest_of_not_offered hBuilt hMembers hSimilarity hThreshold hNumbered' hArranged hNone
      hFinest
  · rintro p ⟨hLe, hRest⟩ A hA
    obtain ⟨c, hc, rfl⟩ := hFinest.mem_parts_iff.1 hA
    refine settles_within hBuilt hMembers hSimilarity hThreshold hNumbered h hSettles hRest
      (fun d hd => hLe (hStart.mem_parts_iff.2 ⟨d, hd, rfl⟩)) c hc

end Settles

/-- Under two settings, a graph has the same nodes to be grouped. -/
theorem corresponds_members (hBuilt : g.Built) {other : Int}
    (h : members g maxDistance = .ok ms) (h' : members g other = .ok ms') :
    Corresponds (fun m n => m.node = n.node) ms ms' where
  total m hm := by
    obtain ⟨n, hn, hSame⟩ := exists_member h' ((members_eq_ok h).2 m hm).touched
    exact ⟨n, hn, hSame.symm⟩
  unique m _ n hn n' hn' hSame hSame' :=
    List.inj_on_of_nodup_map (nodup_ids_of_members hBuilt h') hn hn'
      (congrArg Node.id (hSame.symm.trans hSame'))
  marks m hm n hn hSame mark := by
    rw [((members_eq_ok h).2 m hm).marks, ((members_eq_ok h').2 n hn).marks, hSame]
  closed _ _ _ _ n' hn' _ _ := exists_member h ((members_eq_ok h').2 n' hn').touched

/-- Settings that ask for less leave no two nodes apart that were together. -/
theorem block_mono (hBuilt : g.Built) (hMembers : members g s.maxDistance = .ok ms)
    (hMembers' : members g s'.maxDistance = .ok ms')
    (hSimilarity : s.minSimilarity.plain = .finite 0)
    (hSimilarity' : s'.minSimilarity.plain = .finite 0)
    (hDistance : s.maxDistance ≤ s'.maxDistance)
    (hThreshold : s'.weightThreshold.le s.weightThreshold = true)
    (hResult : Greedy.Settles s g.edges (Cluster.initial ms) result)
    (hResult' : Greedy.Settles s' g.edges (Cluster.initial ms') clusters') {c : Cluster}
    (hc : c ∈ result) : ∃ c' ∈ clusters', c.block ⊆ c'.block := by
  obtain ⟨hUsed, hUsed'⟩ := Binary64.ne_undefined_of_le hThreshold
  have hStart := components_initial ms
  have hStart' := components_initial ms'
  obtain ⟨start, hForms⟩ := exists_forms hBuilt hMembers hStart.toArranged
  obtain ⟨start', hForms'⟩ := exists_forms hBuilt hMembers' hStart'.toArranged
  obtain ⟨finest, hFinest, hLeast⟩ := settles_isLeast hBuilt hMembers hSimilarity hUsed'
    (numbered_initial hMembers) hStart.toArranged hForms hResult
  obtain ⟨finest', hFinest', hLeast'⟩ := settles_isLeast hBuilt hMembers' hSimilarity' hUsed
    (numbered_initial hMembers') hStart'.toArranged hForms' hResult'
  have hSame : start ≤ start' := by
    intro A hA
    obtain ⟨d, hd, rfl⟩ := hForms.mem_parts_iff.1 hA
    obtain ⟨d', hd', hImage⟩ := hStart.exists_image hStart'
      (corresponds_members hBuilt hMembers hMembers') hd
    refine ⟨d'.block, hForms'.mem_parts_iff.2 ⟨d', hd', rfl⟩, fun id hId => ?_⟩
    obtain ⟨m, hm, rfl⟩ := Cluster.mem_block.1 hId
    obtain ⟨n, hn, hNode⟩ :=
      (corresponds_members hBuilt hMembers hMembers').total m (hStart.mem hd hm)
    exact Cluster.mem_block.2 ⟨n, (hImage n hn).2 ⟨m, hm, hNode⟩, by rw [hNode]⟩
  have hLe : finest ≤ finest' :=
    hLeast.2 ⟨hSame.trans hLeast'.1.1, hLeast'.1.2.anti hDistance hThreshold⟩
  obtain ⟨A, hA, hSub⟩ := hLe (hFinest.mem_parts_iff.2 ⟨c, hc, rfl⟩)
  obtain ⟨c', hc', rfl⟩ := hFinest'.mem_parts_iff.1 hA
  exact ⟨c', hc', hSub⟩

/-- A cluster whose nodes are all in another one has no hunk that the other one does not have. -/
theorem mem_hunks_mono (hBuilt : g.Built) {other : Int}
    (hMembers : members g maxDistance = .ok ms) (hMembers' : members g other = .ok ms')
    (h : Arranged ms clusters) (h' : Arranged ms' clusters') {c c' : Cluster} (hc : c ∈ clusters)
    (hc' : c' ∈ clusters') (hSub : c.block ⊆ c'.block) {mark : HunkMark} (hMark : mark ∈ c.hunks) :
    mark ∈ c'.hunks := by
  obtain ⟨m, hm, hMark⟩ := ((h.gathered c hc).hunks mark).1 hMark
  obtain ⟨n, hn, hId⟩ := Cluster.mem_block.1 (hSub (Cluster.mem_block.2 ⟨m, hm, rfl⟩))
  have hDescribes := (members_eq_ok hMembers).2 m (h.mem hc hm)
  have hDescribes' := (members_eq_ok hMembers').2 n (h'.mem hc' hn)
  have hNode : n.node = m.node := hBuilt.eq_of_id hDescribes'.mem_nodes hDescribes.mem_nodes hId
  rw [hDescribes.marks, ← hNode, ← hDescribes'.marks] at hMark
  exact ((h'.gathered c' hc').hunks mark).2 ⟨n, hn, hMark⟩

/-- Settings that ask for less leave no two hunks apart that were together. -/
theorem together_mono (hBuilt : g.Built) (hSimilarity : s.minSimilarity.plain = .finite 0)
    (hSimilarity' : s'.minSimilarity.plain = .finite 0)
    (hDistance : s.maxDistance ≤ s'.maxDistance)
    (hThreshold : s'.weightThreshold.le s.weightThreshold = true) {files : List FileChange}
    {gs : List Group} (hGroups : groups s g files = .ok gs) :
    ∃ gs', groups s' g files = .ok gs' ∧ ∀ x y, Together gs x y → Together gs' x y := by
  obtain ⟨hNone, rfl⟩ | ⟨hSome, ms, hMembers, rfl⟩ := groups_eq_ok hGroups
  · exact ⟨[], groups_of_isEmpty s' g (List.isEmpty_iff.2 hNone), fun x y h => h⟩
  obtain ⟨ms', hMembers'⟩ := exists_members_of_eq_ok hMembers s'.maxDistance
  have hGroups' : groups s' g files =
      .ok (groupsOf g files (mergeClusters s' g.edges (Cluster.initial ms'))) := by
    rw [groups_eq s' g (by simpa using hSome), hMembers']
    rfl
  refine ⟨_, hGroups', fun x y hTogether => ?_⟩
  rw [together_groupsOf_iff] at hTogether ⊢
  refine hTogether.imp_left ?_
  rintro ⟨c, hc, m, hm, n, hn, hNames⟩
  have hSettles : Greedy.Settles s g.edges (Cluster.initial ms) _ :=
    settles_mergeClusters (numbered_initial hMembers)
  have hSettles' : Greedy.Settles s' g.edges (Cluster.initial ms') _ :=
    settles_mergeClusters (numbered_initial hMembers')
  obtain ⟨c', hc', hSub⟩ := block_mono hBuilt hMembers hMembers' hSimilarity hSimilarity'
    hDistance hThreshold hSettles hSettles' hc
  have hArranged := arranged_mergeClusters s hMembers
  have hArranged' := arranged_mergeClusters s' hMembers'
  have hMono {k : HunkMark} (hk : k ∈ c.hunks) : k ∈ c'.hunks :=
    mem_hunks_mono hBuilt hMembers hMembers' hArranged hArranged' hc hc' hSub hk
  exact ⟨c', hc', m, hMono hm, n, hMono hn, hNames⟩

/-- If no overlap of facts is asked for, merging ends with the finest partition of the touched nodes
that is at rest and keeps together what shares hunks to begin with. Every other course of merging
ends with the same one. With a greater distance and a smaller threshold, hunks that were grouped
together still are. -/
theorem mergeClusters_finest (hBuilt : g.Built) (hSimilarity : s.minSimilarity.plain = .finite 0)
    (hThreshold : s.weightThreshold ≠ .undefined) (hMembers : members g s.maxDistance = .ok ms) :
    (∃ start finest : Finpartition g.touchedIds, Forms (Cluster.initial ms) start ∧
      Forms (mergeClusters s g.edges (Cluster.initial ms)) finest ∧
        IsLeast {p | start ≤ p ∧ g.AtRest s p} finest ∧
          ∀ result, Greedy.Settles s g.edges (Cluster.initial ms) result → Forms result finest) ∧
    ∀ s' : Settings, s'.minSimilarity.plain = .finite 0 → s.maxDistance ≤ s'.maxDistance →
      s'.weightThreshold.le s.weightThreshold = true → ∀ files gs, groups s g files = .ok gs →
        ∃ gs', groups s' g files = .ok gs' ∧ ∀ x y, Together gs x y → Together gs' x y := by
  constructor
  · have hArranged := (components_initial ms).toArranged
    have hNumbered := numbered_initial hMembers
    obtain ⟨start, hStart⟩ := exists_forms hBuilt hMembers hArranged
    obtain ⟨finest, hFinest, hLeast⟩ := settles_isLeast hBuilt hMembers hSimilarity hThreshold
      hNumbered hArranged hStart (settles_mergeClusters hNumbered)
    refine ⟨start, finest, hStart, hFinest, hLeast, fun result hResult => ?_⟩
    obtain ⟨other, hOther, hLeast'⟩ := settles_isLeast hBuilt hMembers hSimilarity hThreshold
      hNumbered hArranged hStart hResult
    rwa [hLeast.unique hLeast']
  · intro s' hSimilarity' hDistance hLower files gs hGroups
    exact together_mono hBuilt hSimilarity hSimilarity' hDistance hLower hGroups

/-- Two methods, one of which calls the other, are one edge apart. -/
theorem mergeClusters_finest_callPair :
    ∃ ms gs gs', members callPair 0 = .ok ms ∧
      groups { minSimilarity := .finite 0, maxDistance := 0 } callPair twoHunks = .ok gs ∧
      groups { minSimilarity := .finite 0, maxDistance := 1 } callPair twoHunks = .ok gs' ∧
      gs.length = 2 ∧ gs'.length = 1 ∧
      (∃ finest : Finpartition callPair.touchedIds,
        Forms (mergeClusters { minSimilarity := .finite 0, maxDistance := 0 } callPair.edges
          (Cluster.initial ms)) finest ∧
        callPair.AtRest { minSimilarity := .finite 0, maxDistance := 0 } finest) ∧
      ∀ x y, Together gs x y → Together gs' x y := by
  have hCount : (groups { minSimilarity := .finite 0, maxDistance := 0 } callPair
      twoHunks).toOption.map List.length = some 2 := by decide +kernel
  have hCount' : (groups { minSimilarity := .finite 0, maxDistance := 1 } callPair
      twoHunks).toOption.map List.length = some 1 := by decide +kernel
  have hNames : ∀ n ∈ callPair.nodes, n.entityName?.isSome = true := by decide +kernel
  obtain ⟨ms, hMembers⟩ := exists_members hunkMarked_callPair
    (fun n hn => Option.isSome_iff_exists.1 (hNames n hn)) 0
  obtain ⟨gs, hGroups, hLength⟩ := exists_ok_of_toOption hCount
  obtain ⟨⟨_, finest, _, hForms, hLeast, _⟩, hWider⟩ := mergeClusters_finest
    (s := { minSimilarity := .finite 0, maxDistance := 0 }) built_callPair rfl (by simp) hMembers
  obtain ⟨gs', hGroups', hTogether⟩ := hWider { minSimilarity := .finite 0, maxDistance := 1 }
    rfl (by decide) (by decide) twoHunks gs hGroups
  rw [hGroups'] at hCount'
  exact ⟨ms, gs, gs', hMembers, hGroups, hGroups', hLength, Option.some.inj hCount',
    ⟨finest, hForms, hLeast.1.2⟩, hTogether⟩

end Grouping

end ChangeSplit
