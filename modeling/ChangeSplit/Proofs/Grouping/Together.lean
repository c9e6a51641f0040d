import ChangeSplit.Proofs.Grouping.Arrangement
import ChangeSplit.Proofs.Grouping.Partition

/-! Which hunks are grouped together: those of one cluster. Sorting, numbers and descriptions make
no difference to it. -/

namespace ChangeSplit.Grouping

/-- Whether two hunks are in one group. A hunk that is in some group is together with itself. -/
def Together (groups : List Group) (x y : String) : Prop :=
  ∃ group ∈ groups, x ∈ group.hunks ∧ y ∈ group.hunks

variable {g : Graph} {s : Settings} {files : List FileChange} {clusters : List Cluster}
variable {x y : String}

theorem exists_group_iff {p : List String → Prop} :
    (∃ group ∈ groupsOf g files clusters, p group.hunks) ↔
      ∃ d ∈ draftsOf g files clusters, p (d.hunks.map (·.name)) := by
  have hHunks : (∃ group ∈ groupsOf g files clusters, p group.hunks) ↔
      ∃ hunks ∈ (groupsOf g files clusters).map (·.hunks), p hunks := by
    simp
  rw [hHunks, groupsOf_eq, map_hunks_named]
  simp only [List.mem_map, exists_exists_and_eq_and, mem_sortBy]

/-- Hunks are grouped together if one cluster has them. A hunk that no cluster has is by itself. -/
theorem together_groupsOf_iff :
    Together (groupsOf g files clusters) x y ↔
      (∃ c ∈ clusters, ∃ m ∈ c.hunks, ∃ n ∈ c.hunks, m.name = x ∧ n.name = y) ∨
        x = y ∧ x ∈ hunkNames files := by
  rw [Together, exists_group_iff (p := fun hunks => x ∈ hunks ∧ y ∈ hunks)]
  simp only [List.mem_map]
  constructor
  · rintro ⟨d, hd, ⟨m, hm, rfl⟩, n, hn, rfl⟩
    rcases List.mem_append.1 hd with hd | hd
    · obtain ⟨c, hc, rfl⟩ := List.mem_map.1 hd
      exact .inl ⟨c, hc, m, hm, n, hn, rfl, rfl⟩
    · obtain ⟨k, hk, hHunks, _⟩ := mem_leftOver hd
      rw [hHunks, List.mem_singleton] at hm hn
      rw [hm, hn, ← map_name_marksOf]
      exact .inr ⟨rfl, List.mem_map_of_mem hk⟩
  · rintro (⟨c, hc, m, hm, n, hn, rfl, rfl⟩ | ⟨rfl, hx⟩)
    · exact ⟨_, List.mem_append_left _ (List.mem_map_of_mem hc), ⟨m, hm, rfl⟩, n, hn, rfl⟩
    · rw [← map_name_marksOf] at hx
      obtain ⟨m, hm, rfl⟩ := List.mem_map.1 hx
      by_cases hSome : ∃ c ∈ clusters, ∃ n ∈ c.hunks, n.name = m.name
      · obtain ⟨c, hc, n, hn, hName⟩ := hSome
        exact ⟨_, List.mem_append_left _ (List.mem_map_of_mem hc), ⟨n, hn, hName⟩, n, hn, hName⟩
      · obtain ⟨d, hd, hHunks⟩ := exists_leftOver clusters hm
          fun c hc n hn hName => hSome ⟨c, hc, n, hn, hName⟩
        have hMem : m ∈ d.hunks := by simp [hHunks]
        exact ⟨d, List.mem_append_right _ hd, ⟨m, hMem, rfl⟩, m, hMem, rfl⟩

/-- A change without hunks has no groups, whatever its graph. -/
theorem groups_of_isEmpty (s : Settings) (g : Graph) (h : (hunkNames files).isEmpty = true) :
    groups s g files = .ok [] := by
  rw [groups, run, h]
  rfl

theorem groups_eq (s : Settings) (g : Graph) (h : (hunkNames files).isEmpty = false) :
    groups s g files = (members g s.maxDistance).map fun ms =>
      groupsOf g files (mergeClusters s g.edges (Cluster.initial ms)) := by
  rw [groups, run, h]
  cases members g s.maxDistance <;> rfl

/-- Groups come from the clusters with which merging ends, unless the change has no hunks. -/
theorem groups_eq_ok {gs : List Group} (hGroups : groups s g files = .ok gs) :
    hunkNames files = [] ∧ gs = [] ∨ hunkNames files ≠ [] ∧
      ∃ ms, members g s.maxDistance = .ok ms ∧
        gs = groupsOf g files (mergeClusters s g.edges (Cluster.initial ms)) := by
  cases hEmpty : (hunkNames files).isEmpty with
  | true =>
      rw [groups_of_isEmpty s g hEmpty] at hGroups
      cases hGroups
      exact .inl ⟨List.isEmpty_iff.1 hEmpty, rfl⟩
  | false =>
      rw [groups_eq s g hEmpty] at hGroups
      obtain ⟨ms, hMembers, rfl⟩ := exists_ok_of_map hGroups
      exact .inr ⟨by simpa using hEmpty, ms, hMembers, rfl⟩

/-- Only marks of the graph come into play, so a graph without marks leaves nothing to be merged. A
change without hunks need not be told apart, then. -/
theorem groups_eq_of_marks (s : Settings) (hBuilt : g.Built)
    (hMarks : ∀ n ∈ g.nodes, ∀ name ∈ n.marks, name ∈ hunkNames files) :
    groups s g files = (members g s.maxDistance).map fun ms =>
      groupsOf g files (mergeClusters s g.edges (Cluster.initial ms)) := by
  cases hEmpty : (hunkNames files).isEmpty with
  | false => exact groups_eq s g hEmpty
  | true =>
      have hNone := List.isEmpty_iff.1 hEmpty
      have hTouched : g.touched = [] := by
        rw [Graph.touched, List.filter_eq_nil_iff]
        intro n hn hTouched
        obtain ⟨name, hName⟩ := (hBuilt.isTouched_iff hn).1 hTouched
        have hKnown := hMarks n hn name hName
        rw [hNone] at hKnown
        cases hKnown
      have hMembers : members g s.maxDistance = .ok [] := by
        rw [members, factsOf, hTouched]
        rfl
      rw [groups_of_isEmpty s g hEmpty, hMembers]
      exact congrArg Except.ok (groupsOf_nil g hNone).symm

/-- Where grouping succeeds, the groups come from the clusters with which merging ends. -/
theorem groups_eq_ok_iff (s : Settings) (hBuilt : g.Built)
    (hMarks : ∀ n ∈ g.nodes, ∀ name ∈ n.marks, name ∈ hunkNames files) {gs : List Group} :
    groups s g files = .ok gs ↔ ∃ ms, members g s.maxDistance = .ok ms ∧
      gs = groupsOf g files (mergeClusters s g.edges (Cluster.initial ms)) := by
  rw [groups_eq_of_marks s hBuilt hMarks]
  cases members g s.maxDistance with
  | error e => simp [Except.map]
  | ok ms => simp [Except.map, eq_comm]

/-- The hunks of a cluster are marks of nodes. -/
theorem exists_node_of_mem_hunks {maxDistance : Int} {ms : List Member}
    (hMembers : members g maxDistance = .ok ms) (h : Arranged ms clusters) {c : Cluster}
    (hc : c ∈ clusters) {m : HunkMark} (hm : m ∈ c.hunks) : ∃ n ∈ g.nodes, m.name ∈ n.marks := by
  obtain ⟨member, hMember, hMark⟩ := ((h.gathered c hc).hunks m).1 hm
  have hDescribes := (members_eq_ok hMembers).2 member (h.mem hc hMember)
  obtain ⟨name, hName, hOf⟩ := (hDescribes.marks m).1 hMark
  rw [HunkMark.name_of_ofName hOf]
  exact ⟨member.node, (List.mem_filter.1 hDescribes.touched).1, hName⟩

section Same

variable {g' : Graph} {clusters' : List Cluster}

/-- What a group shows of itself but its description. -/
def Group.content (group : Group) : String × List String := (group.id, group.hunks)

theorem map_content_named {drafts drafts' : List Draft}
    (h : drafts.map (·.hunks) = drafts'.map (·.hunks)) (next : Nat) :
    (named next drafts).map Group.content = (named next drafts').map Group.content := by
  induction drafts generalizing drafts' next with
  | nil =>
      rw [List.map_eq_nil_iff.1 h.symm]
  | cons d rest ih =>
      cases drafts' with
      | nil => cases h
      | cons d' rest' =>
          obtain ⟨hHead, hTail⟩ := List.cons.inj h
          simp only [named, List.map_cons, Group.content, hHead]
          rw [ih hTail]

/-- The hunks that are left over depend on the hunks of the clusters only. -/
theorem leftOver_congr
    (h : ∀ hunks, (∃ c ∈ clusters, c.hunks = hunks) ↔ ∃ c ∈ clusters', c.hunks = hunks) :
    leftOver files clusters = leftOver files clusters' := by
  have hAnchored (l l' : List Cluster)
      (hSub : ∀ hunks, (∃ c ∈ l, c.hunks = hunks) → ∃ c ∈ l', c.hunks = hunks) (name : String) :
      name ∈ (l.flatMap fun c => c.hunks.toList.map (·.name)) →
        name ∈ l'.flatMap fun c => c.hunks.toList.map (·.name) := by
    rw [List.mem_flatMap, List.mem_flatMap]
    rintro ⟨c, hc, hName⟩
    obtain ⟨c', hc', hHunks⟩ := hSub c.hunks ⟨c, hc, rfl⟩
    exact ⟨c', hc', by rw [hHunks]; exact hName⟩
  rw [leftOver, leftOver]
  congr 1
  apply List.filter_congr
  intro m _
  congr 1
  rw [Bool.eq_iff_iff, List.contains_iff_mem, List.contains_iff_mem]
  exact ⟨hAnchored _ _ (fun hunks => (h hunks).1) m.name,
    hAnchored _ _ (fun hunks => (h hunks).2) m.name⟩

section Separate

variable {limit limit' : Option Int} (hSeparate : Separate g limit clusters)
variable (hSeparate' : Separate g' limit' clusters')
variable (h : ∀ hunks, (∃ c ∈ clusters, c.hunks = hunks) ↔ ∃ c ∈ clusters', c.hunks = hunks)

include hSeparate hSeparate' h

/-- Separate clusters with the same hunks make the same drafts, in some order. -/
theorem perm_hunks_draftsOf :
    ((draftsOf g files clusters).map (·.hunks)).Perm
      ((draftsOf g' files clusters').map (·.hunks)) := by
  have hPerm : (clusters.map (·.hunks)).Perm (clusters'.map (·.hunks)) := by
    refine (List.perm_ext_iff_of_nodup hSeparate.nodup_hunks hSeparate'.nodup_hunks).2
      fun hunks => ?_
    simpa using h hunks
  have hClusters := hPerm.map OrderedSet.toList
  rw [List.map_map, List.map_map] at hClusters
  rw [draftsOf, draftsOf, List.map_append, List.map_append, leftOver_congr h, List.map_map,
    List.map_map]
  exact hClusters.append_right _

/-- Separate clusters with the same hunks make the same groups, in whatever order the clusters
are. -/
theorem map_content_groupsOf :
    (groupsOf g files clusters).map Group.content =
      (groupsOf g' files clusters').map Group.content := by
  rw [groupsOf_eq, groupsOf_eq]
  apply map_content_named
  have hSorted (l : List Draft) :
      ((sortBy (fun a b => HunkName.le (Draft.first a) (Draft.first b)) l).map (·.hunks)).Pairwise
        fun a b => HunkName.le (Draft.first ⟨a, ""⟩) (Draft.first ⟨b, ""⟩) = true :=
    List.pairwise_map.2 (pairwise_sortBy (fun a b => HunkName.le_total a.first b.first)
      (fun a b c => HunkName.le_trans a.first b.first c.first) l)
  have hSort (l : List Draft) := (sortBy_perm (fun a b => HunkName.le (Draft.first a)
    (Draft.first b)) l).map (·.hunks)
  refine List.Perm.eq_of_pairwise (fun a b ha hb hab hba => ?_) (hSorted _) (hSorted _)
    ((hSort _).trans ((perm_hunks_draftsOf hSeparate hSeparate' h).trans (hSort _).symm))
  obtain ⟨d, hd, rfl⟩ := List.mem_map.1 ((hSort _).mem_iff.1 ha)
  obtain ⟨e, he, rfl⟩ := List.mem_map.1
    ((perm_hunks_draftsOf hSeparate hSeparate' h).mem_iff.2 ((hSort _).mem_iff.1 hb))
  -- groups that begin at the same place have a hunk in common
  by_contra hNe
  have hSymm : Std.Symm Draft.Disjoint := ⟨fun _ _ => Draft.Disjoint.symm⟩
  have hDisjoint := (disjoint_draftsOf hSeparate).forall hd he fun hSame =>
    hNe (congrArg Draft.hunks hSame)
  exact (sound_of_mem_draftsOf hSeparate hd).first_ne (sound_of_mem_draftsOf hSeparate he) hDisjoint
    (HunkName.le_antisymm hab hba)

end Separate

end Same

/-- A change of one file with two hunks. -/
def twoHunks : List FileChange := [{ index := 0, hunks := [{ index := 0 }, { index := 1 }] }]

end ChangeSplit.Grouping
