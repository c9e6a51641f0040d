import ChangeSplit.Proofs.ChangeGraph.Build
import ChangeSplit.Proofs.ChangeGraph.Wiring
import ChangeSplit.Proofs.Grouping.Judgement
import ChangeSplit.Proofs.Grouping.Merging

/-! Groups are a partition of the hunks of a change. The clusters that merging leaves have no hunk
in common, the hunks that touch nothing come on top of them, and sorting puts all of them in the
order of the change. -/

namespace ChangeSplit

namespace Grouping

/-- What groups of hunks have to be. -/
structure Partitions (g : Graph) (files : List FileChange) (groups : List Group) : Prop where
  /-- Every hunk is in one group, once, and nothing else is in any. -/
  once : ∀ name, (groups.flatMap (·.hunks)).count name = if name ∈ hunkNames files then 1 else 0
  /-- A hunk that touches no node is by itself. -/
  alone : ∀ name ∈ hunkNames files, (∀ n ∈ g.nodes, ¬ name ∈ n.marks) →
    ∃ group ∈ groups, group.hunks = [name]
  ids : groups.map (·.id) = (List.range groups.length).map fun i => "group" ++ toString i
  nonempty : ∀ group ∈ groups, group.hunks ≠ []
  increasing : ∀ group ∈ groups, group.hunks.Pairwise HunkName.Before
  /-- Groups go by their first hunks, which are their least ones. -/
  ordered : groups.Pairwise fun a b =>
    ∃ x y, a.hunks.head? = some x ∧ b.hunks.head? = some y ∧ HunkName.Before x y
  accepted : partitionFault? groups files = none

namespace HunkMark

theorem Proper.before {m n : HunkMark} (hm : m.Proper) (hn : n.Proper)
    (h : HunkName.lt m.position n.position = true) : HunkName.Before m.name n.name := by
  refine ⟨m.position, n.position, ?_, ?_, h⟩
  · rw [hm, HunkName.indexes_ofIndexes]
    rfl
  · rw [hn, HunkName.indexes_ofIndexes]
    rfl

theorem Proper.eq_of_name {m n : HunkMark} (hm : m.Proper) (hn : n.Proper)
    (h : m.name = n.name) : m = n := by
  rw [hm, hn] at h
  obtain ⟨hFile, hHunk⟩ := HunkName.ofIndexes_inj h
  exact hm.ext hn (Prod.ext hFile hHunk)

theorem Proper.lt_position {m n : HunkMark} (hm : m.Proper) (hn : n.Proper)
    (h : compare m n = .lt) : HunkName.lt m.position n.position = true := by
  refine HunkName.lt_of_le_of_ne (le_position_of_lt h) fun hPosition => ?_
  rw [hm.ext hn hPosition] at h
  simp [Std.ReflCmp.compare_self] at h

end HunkMark

/-- The hunks of a change with their places. -/
def marksOf (files : List FileChange) : List HunkMark :=
  files.flatMap fun f => f.hunks.map fun h =>
    ⟨f.index, h.index, HunkName.ofIndexes f.index h.index⟩

theorem map_name_marksOf (files : List FileChange) :
    (marksOf files).map (·.name) = hunkNames files := by
  simp [marksOf, hunkNames, List.map_flatMap, Function.comp_def]

theorem proper_of_mem_marksOf {files : List FileChange} {m : HunkMark} (h : m ∈ marksOf files) :
    m.Proper := by
  obtain ⟨f, _, hm⟩ := List.mem_flatMap.1 h
  obtain ⟨hunk, _, rfl⟩ := List.mem_map.1 hm
  rfl

namespace Draft

/-- A group in the making that has hunks, in the order of the change. -/
structure Sound (d : Draft) : Prop where
  nonempty : d.hunks ≠ []
  proper : ∀ m ∈ d.hunks, m.Proper
  sorted : d.hunks.Pairwise fun m n => HunkName.lt m.position n.position = true

/-- No hunk is in both groups. -/
def Disjoint (d e : Draft) : Prop := ∀ m ∈ d.hunks, ¬ m ∈ e.hunks

theorem Disjoint.symm {d e : Draft} (h : d.Disjoint e) : e.Disjoint d :=
  fun m he hd => h m hd he

theorem Sound.nodup {d : Draft} (h : d.Sound) : d.hunks.Nodup := by
  refine h.sorted.imp fun hLess hSame => ?_
  subst hSame
  simp [HunkName.lt, HunkName.le_refl] at hLess

/-- The first place of a group is that of its first hunk. -/
theorem Sound.exists_first {d : Draft} (h : d.Sound) :
    ∃ m rest, d.hunks = m :: rest ∧ d.first = m.position := by
  cases hHunks : d.hunks with
  | nil => exact absurd hHunks h.nonempty
  | cons m rest => exact ⟨m, rest, rfl, by simp [first, hHunks]⟩

/-- Groups without a common hunk begin at different places. -/
theorem Sound.first_ne {d e : Draft} (hd : d.Sound) (he : e.Sound) (h : d.Disjoint e) :
    d.first ≠ e.first := by
  obtain ⟨m, _, hm, hFirst⟩ := hd.exists_first
  obtain ⟨n, _, hn, hFirst'⟩ := he.exists_first
  have hmMem : m ∈ d.hunks := by simp [hm]
  have hnMem : n ∈ e.hunks := by simp [hn]
  intro hEq
  rw [hFirst, hFirst'] at hEq
  have hSame := (hd.proper m hmMem).ext (he.proper n hnMem) hEq
  exact h m hmMem (hSame ▸ hnMem)

end Draft

/-- The groups in the making. -/
def draftsOf (g : Graph) (files : List FileChange) (clusters : List Cluster) : List Draft :=
  (clusters.map fun c => ⟨c.hunks.toList, describe g c⟩) ++ leftOver files clusters

theorem groupsOf_eq (g : Graph) (files : List FileChange) (clusters : List Cluster) :
    groupsOf g files clusters =
      named 0 (sortBy (fun a b => HunkName.le a.first b.first) (draftsOf g files clusters)) := rfl

theorem mem_leftOver {files : List FileChange} {clusters : List Cluster} {d : Draft}
    (h : d ∈ leftOver files clusters) :
    ∃ m ∈ marksOf files, d.hunks = [m] ∧ ∀ c ∈ clusters, ∀ n ∈ c.hunks, n.name ≠ m.name := by
  obtain ⟨m, hm, rfl⟩ := List.mem_map.1 h
  obtain ⟨hMark, hNone⟩ := List.mem_filter.1 hm
  refine ⟨m, List.mem_eraseDups.1 hMark, rfl, fun c hc n hn hName => ?_⟩
  have hAnchored : m.name ∈ clusters.flatMap fun c => c.hunks.toList.map (·.name) :=
    List.mem_flatMap.2 ⟨c, hc, List.mem_map.2 ⟨n, hn, hName⟩⟩
  simp [hAnchored] at hNone

/-- A hunk that is in no cluster is left over. -/
theorem exists_leftOver {files : List FileChange} {m : HunkMark} (clusters : List Cluster)
    (hm : m ∈ marksOf files) (hNone : ∀ c ∈ clusters, ∀ n ∈ c.hunks, n.name ≠ m.name) :
    ∃ d ∈ leftOver files clusters, d.hunks = [m] := by
  refine ⟨_, List.mem_map_of_mem (List.mem_filter.2 ⟨List.mem_eraseDups.2 hm, ?_⟩), rfl⟩
  rw [Bool.not_eq_true', ← Bool.not_eq_true, List.contains_iff_mem]
  intro hAnchored
  obtain ⟨c, hc, hName⟩ := List.mem_flatMap.1 hAnchored
  obtain ⟨n, hn, hEq⟩ := List.mem_map.1 hName
  exact hNone c hc n hn hEq

section Drafts

variable {g : Graph} {limit : Option Int} {files : List FileChange} {clusters : List Cluster}

theorem sound_of_mem_draftsOf (h : Separate g limit clusters) {d : Draft}
    (hd : d ∈ draftsOf g files clusters) : d.Sound := by
  rcases List.mem_append.1 hd with hd | hd
  · obtain ⟨c, hc, rfl⟩ := List.mem_map.1 hd
    obtain ⟨⟨m, hm⟩, hProper, _⟩ := h.sound c hc
    refine ⟨List.ne_nil_of_mem hm, hProper, ?_⟩
    exact c.hunks.sorted.imp_of_mem fun ha hb hLess =>
      (hProper _ ha).lt_position (hProper _ hb) hLess
  · obtain ⟨m, hm, hHunks, _⟩ := mem_leftOver hd
    refine ⟨by simp [hHunks], fun n hn => ?_, by simp [hHunks]⟩
    rw [hHunks, List.mem_singleton] at hn
    exact hn ▸ proper_of_mem_marksOf hm

theorem disjoint_draftsOf (h : Separate g limit clusters) :
    (draftsOf g files clusters).Pairwise Draft.Disjoint := by
  rw [draftsOf, List.pairwise_append, List.pairwise_map]
  refine ⟨h.disjoint, ?_, ?_⟩
  · rw [leftOver, List.pairwise_map]
    refine ((nodup_eraseDups _).filter _).imp fun hNe x hx hy => hNe ?_
    rw [← List.mem_singleton.1 hx, ← List.mem_singleton.1 hy]
  · intro d hd e he x hx hy
    obtain ⟨c, hc, rfl⟩ := List.mem_map.1 hd
    obtain ⟨m, _, hHunks, hNone⟩ := mem_leftOver he
    rw [hHunks, List.mem_singleton] at hy
    exact hNone c hc x hx (congrArg HunkMark.name hy)

/-- The groups in the making hold exactly the hunks of the change, if the clusters hold no
others. -/
theorem mem_hunks_draftsOf (h : Separate g limit clusters)
    (hKnown : ∀ c ∈ clusters, ∀ m ∈ c.hunks, m ∈ marksOf files) {m : HunkMark} :
    m ∈ (draftsOf g files clusters).flatMap (·.hunks) ↔ m ∈ marksOf files := by
  rw [List.mem_flatMap]
  constructor
  · rintro ⟨d, hd, hm⟩
    rcases List.mem_append.1 hd with hd | hd
    · obtain ⟨c, hc, rfl⟩ := List.mem_map.1 hd
      exact hKnown c hc m hm
    · obtain ⟨n, hn, hHunks, _⟩ := mem_leftOver hd
      rw [hHunks, List.mem_singleton] at hm
      exact hm ▸ hn
  · intro hm
    by_cases hSome : ∃ c ∈ clusters, ∃ n ∈ c.hunks, n.name = m.name
    · obtain ⟨c, hc, n, hn, hName⟩ := hSome
      have hSame := ((h.sound c hc).proper n hn).eq_of_name (proper_of_mem_marksOf hm) hName
      exact ⟨_, List.mem_append_left _ (List.mem_map_of_mem hc), hSame ▸ hn⟩
    · obtain ⟨d, hd, hHunks⟩ := exists_leftOver clusters hm
        fun c hc n hn hName => hSome ⟨c, hc, n, hn, hName⟩
      exact ⟨d, List.mem_append_right _ hd, by simp [hHunks]⟩

end Drafts

theorem map_hunks_named (next : Nat) (drafts : List Draft) :
    (named next drafts).map (·.hunks) = drafts.map fun d => d.hunks.map (·.name) := by
  induction drafts generalizing next with
  | nil => rfl
  | cons d rest ih => simp [named, ih]

theorem map_id_named (next : Nat) (drafts : List Draft) :
    (named next drafts).map (·.id) =
      (List.range' next drafts.length).map fun i => "group" ++ toString i := by
  induction drafts generalizing next with
  | nil => rfl
  | cons d rest ih => simp [named, ih, List.range'_succ]

/-- Groups that hold the hunks of a change, each once, are accepted as a partition of them. -/
theorem partitionFault?_eq_none {groups : List Group} {files : List FileChange}
    (hNodup : (assigned groups).Nodup)
    (hMem : ∀ name, name ∈ assigned groups ↔ name ∈ hunkNames files) :
    partitionFault? groups files = none := by
  have hKnown : assigned groups ⊆ hunkNames files := fun _ h => (hMem _).1 h
  have hAll : hunkNames files ⊆ assigned groups := fun _ h => (hMem _).2 h
  rw [partitionFault?_eq, if_pos hKnown, if_pos hNodup, if_pos hAll]

section Named

variable {drafts : List Draft}

theorem flatMap_hunks_named (next : Nat) (drafts : List Draft) :
    (named next drafts).flatMap (·.hunks) = (drafts.flatMap (·.hunks)).map (·.name) := by
  rw [List.flatMap_def, map_hunks_named, List.map_flatMap, List.flatMap_def]

/-- Names tell hunks apart, so a hunk that is in one place only has its name in one place only. -/
theorem nodup_hunks_named (next : Nat) (hSound : ∀ d ∈ drafts, d.Sound)
    (hDisjoint : drafts.Pairwise Draft.Disjoint) :
    ((named next drafts).flatMap (·.hunks)).Nodup := by
  have hProper : ∀ m ∈ drafts.flatMap (·.hunks), m.Proper := by
    intro m hm
    obtain ⟨d, hd, hMem⟩ := List.mem_flatMap.1 hm
    exact (hSound d hd).proper m hMem
  have hNodup : (drafts.flatMap (·.hunks)).Nodup := by
    rw [List.nodup_flatMap]
    exact ⟨fun d hd => (hSound d hd).nodup, hDisjoint.imp fun hApart m hm hn => hApart m hm hn⟩
  rw [flatMap_hunks_named]
  exact hNodup.map_on fun m hm n hn hName => (hProper m hm).eq_of_name (hProper n hn) hName

theorem increasing_named (next : Nat) (hSound : ∀ d ∈ drafts, d.Sound) :
    ∀ group ∈ named next drafts, group.hunks ≠ [] ∧ group.hunks.Pairwise HunkName.Before := by
  intro group hGroup
  have hHunks : group.hunks ∈ drafts.map fun d => d.hunks.map (·.name) := by
    rw [← map_hunks_named next]
    exact List.mem_map_of_mem hGroup
  obtain ⟨d, hd, hEq⟩ := List.mem_map.1 hHunks
  have hd := hSound d hd
  rw [← hEq]
  refine ⟨by simpa using hd.nonempty, List.pairwise_map.2 ?_⟩
  exact hd.sorted.imp_of_mem fun hm hn hLess => (hd.proper _ hm).before (hd.proper _ hn) hLess

theorem ordered_named (next : Nat) (hSound : ∀ d ∈ drafts, d.Sound)
    (hOrder : drafts.Pairwise fun d e => HunkName.lt d.first e.first = true) :
    (named next drafts).Pairwise fun a b =>
      ∃ x y, a.hunks.head? = some x ∧ b.hunks.head? = some y ∧ HunkName.Before x y := by
  have hHunks : ((named next drafts).map (·.hunks)).Pairwise fun a b =>
      ∃ x y, a.head? = some x ∧ b.head? = some y ∧ HunkName.Before x y := by
    rw [map_hunks_named, List.pairwise_map]
    refine hOrder.imp_of_mem fun hd he hLess => ?_
    obtain ⟨m, _, hm, hFirst⟩ := (hSound _ hd).exists_first
    obtain ⟨n, _, hn, hFirst'⟩ := (hSound _ he).exists_first
    rw [hFirst, hFirst'] at hLess
    have hmProper := (hSound _ hd).proper m (by simp [hm])
    have hnProper := (hSound _ he).proper n (by simp [hn])
    exact ⟨m.name, n.name, by simp [hm], by simp [hn], hmProper.before hnProper hLess⟩
  exact List.pairwise_map.1 hHunks

end Named

/-- The groups of separate clusters are drafts in order, and no two of them share a hunk. -/
theorem exists_drafts_of_separate {g : Graph} {limit : Option Int} {files : List FileChange}
    {clusters : List Cluster} (h : Separate g limit clusters) :
    ∃ drafts, groupsOf g files clusters = named 0 drafts ∧
      drafts.Perm (draftsOf g files clusters) ∧
      drafts.Pairwise (fun a b => HunkName.le a.first b.first = true) ∧
      (∀ d ∈ drafts, d.Sound) ∧ drafts.Pairwise Draft.Disjoint := by
  have hPerm := sortBy_perm (fun a b => HunkName.le (Draft.first a) (Draft.first b))
    (draftsOf g files clusters)
  refine ⟨_, groupsOf_eq .., hPerm, ?_, fun d hd => ?_, ?_⟩
  · exact pairwise_sortBy (fun a b => HunkName.le_total a.first b.first)
      (fun a b c => HunkName.le_trans a.first b.first c.first) _
  · exact sound_of_mem_draftsOf h (hPerm.mem_iff.1 hd)
  · exact (hPerm.pairwise_iff Draft.Disjoint.symm).2 (disjoint_draftsOf h)

/-- Separate clusters of hunks of the change, all of which touch nodes, lead to a partition. -/
theorem partitions_groupsOf {g : Graph} {limit : Option Int} {files : List FileChange}
    {clusters : List Cluster} (h : Separate g limit clusters)
    (hKnown : ∀ c ∈ clusters, ∀ m ∈ c.hunks, m ∈ marksOf files)
    (hMarks : ∀ c ∈ clusters, ∀ m ∈ c.hunks, ∃ n ∈ g.nodes, m.name ∈ n.marks) :
    Partitions g files (groupsOf g files clusters) := by
  obtain ⟨drafts, hGroups, hPerm, hSorted, hSound, hDisjoint⟩ := exists_drafts_of_separate h
  rw [hGroups]
  have hOrder : drafts.Pairwise fun d e => HunkName.lt d.first e.first = true :=
    (hSorted.and hDisjoint).imp_of_mem fun hd he hBoth =>
      HunkName.lt_of_le_of_ne hBoth.1 ((hSound _ hd).first_ne (hSound _ he) hBoth.2)
  have hMem : ∀ name, name ∈ (named 0 drafts).flatMap (·.hunks) ↔ name ∈ hunkNames files := by
    intro name
    rw [flatMap_hunks_named, ← map_name_marksOf, List.mem_map, List.mem_map]
    refine exists_congr fun m => and_congr_left fun _ => ?_
    rw [(hPerm.flatMap_right (·.hunks)).mem_iff, mem_hunks_draftsOf h hKnown]
  have hNodup := nodup_hunks_named 0 hSound hDisjoint
  constructor
  · intro name
    rw [hNodup.count]
    simp only [hMem]
  · intro name hName hUnmarked
    rw [← map_name_marksOf] at hName
    obtain ⟨m, hm, rfl⟩ := List.mem_map.1 hName
    obtain ⟨d, hd, hHunks⟩ := exists_leftOver clusters hm fun c hc n hn hEq => by
      obtain ⟨node, hNode, hMark⟩ := hMarks c hc n hn
      exact hUnmarked node hNode (hEq ▸ hMark)
    have hd : d ∈ drafts := hPerm.mem_iff.2 (List.mem_append_right _ hd)
    have hGroup : [m.name] ∈ (named 0 drafts).map (·.hunks) := by
      rw [map_hunks_named]
      exact List.mem_map.2 ⟨d, hd, by simp [hHunks]⟩
    exact List.mem_map.1 hGroup
  · have hLength : (named 0 drafts).length = drafts.length := by
      simpa using congrArg List.length (map_hunks_named 0 drafts)
    rw [map_id_named, hLength, List.range_eq_range']
  · exact fun group hGroup => (increasing_named 0 hSound group hGroup).1
  · exact fun group hGroup => (increasing_named 0 hSound group hGroup).2
  · exact ordered_named 0 hSound hOrder
  · exact partitionFault?_eq_none hNodup hMem

/-- Without hunks there is nothing to be left over either. -/
theorem groupsOf_nil (g : Graph) {files : List FileChange} (hNone : hunkNames files = []) :
    groupsOf g files [] = [] := by
  have hMarks : marksOf files = [] := by
    rw [← map_name_marksOf] at hNone
    exact List.map_eq_nil_iff.1 hNone
  have hLeftOver : leftOver files [] = [] := by
    rw [List.eq_nil_iff_forall_not_mem]
    intro d hd
    obtain ⟨m, hm, _⟩ := mem_leftOver hd
    rw [hMarks] at hm
    cases hm
  rw [groupsOf_eq, draftsOf, hLeftOver]
  rfl

/-- A name of a hunk of the change tells its place. -/
theorem exists_mark_of_mem_hunkNames {files : List FileChange} {name : String}
    (h : name ∈ hunkNames files) :
    ∃ m ∈ marksOf files, m.name = name ∧ HunkMark.ofName name = .ok m := by
  rw [← map_name_marksOf] at h
  obtain ⟨m, hm, rfl⟩ := List.mem_map.1 h
  have hName : m.name = HunkName.ofIndexes m.file m.hunk := proper_of_mem_marksOf hm
  have hOf := HunkMark.ofName_ofIndexes m.file m.hunk
  rw [← hName] at hOf
  exact ⟨m, hm, rfl, hOf⟩

/-- Names of hunks of a change are of the usual form. -/
theorem hunkMarked_of_known {g : Graph} {files : List FileChange}
    (h : ∀ n ∈ g.nodes, ∀ name ∈ n.marks, name ∈ hunkNames files) : g.HunkMarked := by
  intro n hn name hName
  obtain ⟨m, hm, rfl, _⟩ := exists_mark_of_mem_hunkNames (h n hn name hName)
  exact ⟨m.file, m.hunk, proper_of_mem_marksOf hm⟩

/-- Grouping the graph of a change gives a partition, if the marks of the graph are hunks of the
change. Merging may take any course, since it keeps clusters separate and keeps their hunks. -/
theorem exists_groups (s : Settings) {g : Graph} {files : List FileChange} (hBuilt : g.Built)
    (hScoped : g.Scoped) (hMarks : ∀ n ∈ g.nodes, ∀ name ∈ n.marks, name ∈ hunkNames files) :
    ∃ groups, Grouping.groups s g files = .ok groups ∧ Partitions g files groups := by
  have hMarked : g.HunkMarked := hunkMarked_of_known hMarks
  cases hEmpty : (hunkNames files).isEmpty with
  | true =>
      have hSeparate : Separate g none [] := ⟨by simp, .nil, .nil⟩
      refine ⟨groupsOf g files [], ?_, partitions_groupsOf hSeparate (by simp) (by simp)⟩
      simp only [groups, run, hEmpty, groupsOf_nil g (List.isEmpty_iff.1 hEmpty)]
      rfl
  | false =>
      obtain ⟨ms, hMembers⟩ := exists_members hMarked hScoped s.maxDistance
      obtain ⟨_, hDescribes⟩ := members_eq_ok hMembers
      have hSeparate := separate_initial hBuilt hMarked hMembers
      have hEnds : Greedy.Ends s g.edges (Cluster.initial ms)
          (mergeClusters s g.edges (Cluster.initial ms)) := by
        rw [mergeClusters_eq hSeparate]
        exact Greedy.ends_run hSeparate (Nat.le_refl _)
      obtain ⟨hAfter, hHunks⟩ := hEnds.separate hSeparate
      have hFrom : ∀ c ∈ mergeClusters s g.edges (Cluster.initial ms), ∀ m ∈ c.hunks,
          m ∈ marksOf files ∧ ∃ n ∈ g.nodes, m.name ∈ n.marks := by
        intro c hc m hm
        obtain ⟨member, hMember, hMark⟩ := exists_mem_initial.1 ((hHunks m).1 ⟨c, hc, hm⟩)
        obtain ⟨hTouched, hNames, _⟩ := hDescribes member hMember
        obtain ⟨name, hName, hOf⟩ := (hNames m).1 hMark
        have hNode : member.node ∈ g.nodes := (List.mem_filter.1 hTouched).1
        obtain ⟨m', hm', rfl, hOf'⟩ := exists_mark_of_mem_hunkNames (hMarks _ hNode name hName)
        rw [hOf] at hOf'
        cases hOf'
        exact ⟨hm', member.node, hNode, hName⟩
      refine ⟨_, ?_, partitions_groupsOf hAfter (fun c hc m hm => (hFrom c hc m hm).1)
        fun c hc m hm => (hFrom c hc m hm).2⟩
      simp only [groups, run, hEmpty, hMembers]
      rfl

/-- Grouping all hunks of a change over the graph of its Java sources gives a partition of them.
Nothing is asked of the sources but that the graph can be built, and nothing of the settings. -/
theorem groups_partition (s : Settings) {rootPath : String} {root : Folder} {path : List String}
    {files : List FileChange} {g : ChangeGraph}
    (hBuild : ChangeGraph.build rootPath root path (javaFiles files) = .ok g) :
    ∃ groups, Grouping.groups s g.graph files = .ok groups ∧
      Partitions g.graph files groups := by
  obtain ⟨placed, n, hFormed, rfl⟩ := ChangeGraph.exists_formed_of_build hBuild
  have hNodes : (placed.wire.note n).graph.nodes = placed.graph.nodes := placed.wire_nodes
  refine exists_groups s (ChangeGraph.built_wire hFormed.built) ?_ ?_
  · intro node hNode
    rw [hNodes] at hNode
    exact hFormed.scoped_graph node hNode
  · intro node hNode name hName
    rw [hNodes] at hNode
    have hJava := hFormed.mem_of_mem_marks hNode hName
    obtain ⟨f, hf, hName⟩ := List.mem_flatMap.1 hJava
    exact List.mem_flatMap.2 ⟨f, (List.mem_filter.1 hf).1, hName⟩

/-- A change of a class and of a file that is no source. -/
def classAndText : List FileChange := [
  { index := 0, currentPath := some "A.java"
    hunks := [{ index := 0, current := ⟨1, 1, ["class A\x7b\x7d"]⟩ }] },
  { index := 1, currentPath := some "notes.txt"
    hunks := [{ index := 0, current := ⟨1, 1, ["text"]⟩ }] }]

/-- The one source of that change, `class A` with an empty body. -/
def emptyClass : Folder :=
  ⟨[(["current", "A.java"], [0x63, 0x6C, 0x61, 0x73, 0x73, 0x20, 0x41, 0x7B, 0x7D])]⟩

/-- The hunk of the class touches its node, the other one touches none. -/
theorem groups_partition_classAndText :
    ∃ g, ChangeGraph.build "" emptyClass [] (javaFiles classAndText) = .ok g ∧
      g.graph.touched.map (·.marks.toList) = [["0:0"]] ∧
      ∃ groups, Grouping.groups {} g.graph classAndText = .ok groups ∧
        Partitions g.graph classAndText groups := by
  have hTouched : (ChangeGraph.build "" emptyClass [] (javaFiles classAndText)).toOption.map
      (fun g => g.graph.touched.map (·.marks.toList)) = some [["0:0"]] := by decide +kernel
  cases hBuild : ChangeGraph.build "" emptyClass [] (javaFiles classAndText) with
  | error e =>
      rw [hBuild] at hTouched
      cases hTouched
  | ok g =>
      rw [hBuild] at hTouched
      exact ⟨g, rfl, Option.some.inj hTouched, groups_partition {} hBuild⟩

end Grouping

end ChangeSplit
