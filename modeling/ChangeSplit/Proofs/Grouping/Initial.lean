import ChangeSplit.Proofs.Graph.Facts
import ChangeSplit.Proofs.Grouping.Separation

/-! The clusters that grouping begins with. Every hunk of a touched node is in exactly one of them,
since a node takes in all clusters with which it shares a hunk. -/

namespace ChangeSplit

/-- All marks of a graph are names of hunks. -/
def Graph.HunkMarked (g : Graph) : Prop :=
  ∀ n ∈ g.nodes, ∀ name ∈ n.marks, ∃ file hunk, name = HunkName.ofIndexes file hunk

namespace Grouping

/-- A member is a touched node together with what the graph tells of it. -/
structure Member.Describes (g : Graph) (maxDistance : Int) (m : Member) : Prop where
  touched : m.node ∈ g.touched
  marks : ∀ h, h ∈ m.marks ↔ ∃ name ∈ m.node.marks, HunkMark.ofName name = .ok h
  facts : g.facts? m.node = some m.facts
  reach : m.reach = g.distancesFrom m.node.id (some maxDistance)
  containers : m.containers = (g.containers m.node).map (·.id)

/-- A node with its facts, which must be there. -/
def withFacts (g : Graph) (n : Node) : Except Fault (Node × OrderedSet String) :=
  match g.facts? n with
  | some facts => .ok (n, facts)
  | none => .error .unscoped

theorem withFacts_eq_ok {g : Graph} {n : Node} {t : Node × OrderedSet String}
    (h : withFacts g n = .ok t) : t.1 = n ∧ g.facts? n = some t.2 := by
  unfold withFacts at h
  split at h
  case h_1 facts hFacts =>
    cases h
    exact ⟨rfl, hFacts⟩
  case h_2 => cases h

/-- The touched nodes come with the facts that the graph tells of each. -/
theorem factsOf_eq_ok {g : Graph} {touched : List (Node × OrderedSet String)}
    (h : factsOf g = .ok touched) :
    touched.map (·.1) = g.touched ∧ ∀ t ∈ touched, g.facts? t.1 = some t.2 := by
  have hWalk : g.touched.mapM (withFacts g) = .ok touched := h
  constructor
  · simpa using map_eq_of_mapM (p := id) hWalk fun n t hOk => (withFacts_eq_ok hOk).1
  · intro t ht
    obtain ⟨n, _, hOk⟩ := exists_source_of_mapM hWalk ht
    obtain ⟨hNode, hFacts⟩ := withFacts_eq_ok hOk
    rw [hNode]
    exact hFacts

/-- A touched node as a member. Its marks must be names of hunks. -/
def asMember (g : Graph) (maxDistance : Int) (t : Node × OrderedSet String) :
    Except Fault Member :=
  match t.1.marks.toList.mapM HunkMark.ofName with
  | .error e => .error (.misnamed e)
  | .ok marks =>
    .ok ⟨t.1, .ofList marks, t.2, g.distancesFrom t.1.id (some maxDistance),
      (g.containers t.1).map (·.id)⟩

theorem asMember_eq_ok {g : Graph} {maxDistance : Int} {t : Node × OrderedSet String} {m : Member}
    (h : asMember g maxDistance t = .ok m) :
    m.node = t.1 ∧
      (t.1 ∈ g.touched → g.facts? t.1 = some t.2 → m.Describes g maxDistance) := by
  unfold asMember at h
  split at h
  case h_1 => cases h
  case h_2 marks hMarks =>
    cases h
    refine ⟨rfl, fun hTouched hFacts => ⟨hTouched, ?_, hFacts, rfl, rfl⟩⟩
    intro mark
    rw [OrderedSet.mem_ofList]
    constructor
    · exact exists_source_of_mapM hMarks
    · rintro ⟨name, hName, hMark⟩
      obtain ⟨mark', hMem, hMark'⟩ := exists_result_of_mapM hMarks hName
      rw [hMark] at hMark'
      cases hMark'
      exact hMem

theorem members_eq (g : Graph) (maxDistance : Int) :
    members g maxDistance =
      match factsOf g with
      | .error e => .error e
      | .ok touched => touched.mapM (asMember g maxDistance) := rfl

/-- Members are the touched nodes in order, each with what the graph tells of it. -/
theorem members_eq_ok {g : Graph} {maxDistance : Int} {ms : List Member}
    (h : members g maxDistance = .ok ms) :
    ms.map (·.node) = g.touched ∧ ∀ m ∈ ms, m.Describes g maxDistance := by
  rw [members_eq] at h
  split at h
  case h_1 => cases h
  case h_2 touched hFactsOf =>
    obtain ⟨hNodes, hFacts⟩ := factsOf_eq_ok hFactsOf
    constructor
    · rw [← hNodes]
      exact map_eq_of_mapM h fun t m hOk => (asMember_eq_ok hOk).1
    · intro m hm
      obtain ⟨t, ht, hOk⟩ := exists_source_of_mapM h hm
      have hTouched : t.1 ∈ g.touched := by
        rw [← hNodes]
        exact List.mem_map_of_mem ht
      exact (asMember_eq_ok hOk).2 hTouched (hFacts t ht)

/-- A node whose marks have names of the usual form makes a member. -/
theorem exists_asMember {g : Graph} (hMarked : g.HunkMarked) (maxDistance : Int)
    {t : Node × OrderedSet String} (ht : t.1 ∈ g.nodes) :
    ∃ m, asMember g maxDistance t = .ok m := by
  have hMarks : ∃ marks, t.1.marks.toList.mapM HunkMark.ofName = .ok marks := by
    refine exists_mapM_ok fun name hName => ?_
    obtain ⟨file, hunk, rfl⟩ := hMarked t.1 ht name hName
    exact ⟨_, HunkMark.ofName_ofIndexes file hunk⟩
  obtain ⟨marks, hMarks⟩ := hMarks
  exact ⟨_, by rw [asMember, hMarks]⟩

theorem mem_nodes_of_factsOf {g : Graph} {touched : List (Node × OrderedSet String)}
    (h : factsOf g = .ok touched) {t : Node × OrderedSet String} (ht : t ∈ touched) :
    t.1 ∈ g.nodes := by
  have hMem : t.1 ∈ g.touched := by
    rw [← (factsOf_eq_ok h).1]
    exact List.mem_map_of_mem ht
  exact (List.mem_filter.1 hMem).1

/-- If marks have names of the usual form, nodes can be grouped just if their facts can be told. -/
theorem exists_members_iff {g : Graph} (hMarked : g.HunkMarked) (maxDistance : Int) :
    (∃ ms, members g maxDistance = .ok ms) ↔
      ∀ n ∈ g.touched, ∃ facts, g.facts? n = some facts := by
  constructor
  · rintro ⟨ms, h⟩ n hn
    obtain ⟨hNodes, hDescribes⟩ := members_eq_ok h
    rw [← hNodes] at hn
    obtain ⟨m, hm, rfl⟩ := List.mem_map.1 hn
    exact ⟨m.facts, (hDescribes m hm).facts⟩
  · intro hFacts
    have hWalk : ∃ touched, g.touched.mapM (withFacts g) = .ok touched := by
      refine exists_mapM_ok fun n hn => ?_
      obtain ⟨facts, hFacts⟩ := hFacts n hn
      exact ⟨(n, facts), by rw [withFacts, hFacts]⟩
    obtain ⟨touched, hTouched⟩ : ∃ touched, factsOf g = .ok touched := hWalk
    rw [members_eq, hTouched]
    exact exists_mapM_ok fun t ht => exists_asMember hMarked _ (mem_nodes_of_factsOf hTouched ht)

/-- If marks have names of the usual form, only a name without a revision can keep nodes from being
grouped. -/
theorem members_eq_error {g : Graph} (hMarked : g.HunkMarked) {maxDistance : Int} {e : Fault}
    (h : members g maxDistance = .error e) : e = .unscoped := by
  rw [members_eq] at h
  cases hFactsOf : factsOf g with
  | error e' =>
      rw [hFactsOf] at h
      cases h
      have hWalk : g.touched.mapM (withFacts g) = .error e := hFactsOf
      obtain ⟨n, _, hError⟩ := exists_error_of_mapM hWalk
      unfold withFacts at hError
      split at hError
      case h_1 => cases hError
      case h_2 =>
        cases hError
        rfl
  | ok touched =>
      rw [hFactsOf] at h
      obtain ⟨t, ht, hError⟩ := exists_error_of_mapM h
      obtain ⟨m, hOk⟩ := exists_asMember hMarked maxDistance (mem_nodes_of_factsOf hFactsOf ht)
      rw [hOk] at hError
      cases hError

/-- Names of the usual form never keep the nodes of a graph from being grouped. -/
theorem exists_members {g : Graph} (hMarked : g.HunkMarked) (hScoped : g.Scoped)
    (maxDistance : Int) : ∃ ms, members g maxDistance = .ok ms :=
  (exists_members_iff hMarked maxDistance).2 fun _ hn =>
    hScoped.exists_facts? (List.mem_filter.1 hn).1

/-- Whether the nodes of a graph can be grouped does not depend on the distance. -/
theorem exists_members_of_eq_ok {g : Graph} {maxDistance : Int} {ms : List Member}
    (h : members g maxDistance = .ok ms) (other : Int) : ∃ ms', members g other = .ok ms' := by
  rw [members_eq] at h ⊢
  cases hFactsOf : factsOf g with
  | error e =>
      rw [hFactsOf] at h
      cases h
  | ok touched =>
      rw [hFactsOf] at h
      refine exists_mapM_ok fun t ht => ?_
      obtain ⟨m, _, hOk⟩ := exists_result_of_mapM h ht
      unfold asMember at hOk ⊢
      cases hMarks : t.1.marks.toList.mapM HunkMark.ofName with
      | error e =>
          rw [hMarks] at hOk
          cases hOk
      | ok marks => exact ⟨_, rfl⟩

/-- What a member brings into its cluster is sound, if marks have names of the usual form. -/
theorem Member.Describes.sound {g : Graph} {maxDistance : Int} {m : Member} (hBuilt : g.Built)
    (hMarked : g.HunkMarked) (h : m.Describes g maxDistance) :
    (Cluster.ofMember m).Sound g (some maxDistance) where
  nonempty := by
    obtain ⟨hNode, hTouched⟩ := List.mem_filter.1 h.touched
    obtain ⟨name, hLast⟩ := Option.isSome_iff_exists.1 hTouched
    have hName := hBuilt.lastMark_mem hNode hLast
    obtain ⟨file, hunk, rfl⟩ := hMarked _ hNode name hName
    exact ⟨_, (h.marks _).2 ⟨_, hName, HunkMark.ofName_ofIndexes file hunk⟩⟩
  proper mark hMark := by
    obtain ⟨hNode, _⟩ := List.mem_filter.1 h.touched
    obtain ⟨name, hName, hOf⟩ := (h.marks mark).1 hMark
    obtain ⟨file, hunk, rfl⟩ := hMarked _ hNode name hName
    rw [HunkMark.ofName_ofIndexes] at hOf
    cases hOf
    rfl
  reach n hn := by
    rw [List.mem_singleton.1 hn]
    exact h.reach

namespace Cluster

theorem mem_foldl_absorb_hunks {l : List Cluster} {c : Cluster} {h : HunkMark} :
    h ∈ (l.foldl absorb c).hunks ↔ h ∈ c.hunks ∨ ∃ d ∈ l, h ∈ d.hunks := by
  induction l generalizing c with
  | nil => simp
  | cons d rest ih => simp [ih, or_assoc]

theorem Sound.foldl_absorb {g : Graph} {limit : Option Int} {l : List Cluster} {c : Cluster}
    (hc : c.Sound g limit) (hl : ∀ d ∈ l, d.Sound g limit) :
    (l.foldl Cluster.absorb c).Sound g limit := by
  induction l generalizing c with
  | nil => exact hc
  | cons d rest ih =>
      exact ih (hc.absorb (hl d (List.mem_cons_self ..)))
        fun e he => hl e (List.mem_cons_of_mem _ he)

theorem sharesHunk_iff {a b : Cluster} : a.sharesHunk b = true ↔ ∃ h ∈ a.hunks, h ∈ b.hunks := by
  simp [sharesHunk, OrderedSet.sharedCount_pos]

/-- No hunk is lost or made up when a node joins. -/
theorem exists_mem_join {clusters : List Cluster} {m : Member} {h : HunkMark} :
    (∃ c ∈ join clusters m, h ∈ c.hunks) ↔ h ∈ m.marks ∨ ∃ c ∈ clusters, h ∈ c.hunks := by
  have hOwn : h ∈ (ofMember m).hunks ↔ h ∈ m.marks := Iff.rfl
  simp only [join, List.mem_append, List.mem_filter, List.mem_singleton]
  constructor
  · rintro ⟨c, ⟨hc, _⟩ | rfl, hh⟩
    · exact .inr ⟨c, hc, hh⟩
    · rcases mem_foldl_absorb_hunks.1 hh with hh | ⟨d, hd, hh⟩
      · exact .inl hh
      · exact .inr ⟨d, (List.mem_filter.1 hd).1, hh⟩
  · rintro (hh | ⟨c, hc, hh⟩)
    · exact ⟨_, .inr rfl, mem_foldl_absorb_hunks.2 (.inl (hOwn.2 hh))⟩
    · cases hShares : (ofMember m).sharesHunk c with
      | true =>
          exact ⟨_, .inr rfl,
            mem_foldl_absorb_hunks.2 (.inr ⟨c, List.mem_filter.2 ⟨hc, hShares⟩, hh⟩)⟩
      | false => exact ⟨c, .inl ⟨hc, by simp [hShares]⟩, hh⟩

/-- The clusters that stay apart share nothing with the new node, and nothing with the clusters
that it takes in. -/
theorem disjoint_join {clusters : List Cluster} {m : Member} (h : clusters.Pairwise Disjoint) :
    (join clusters m).Pairwise Disjoint := by
  rw [join, List.pairwise_append]
  refine ⟨h.filter _, List.pairwise_singleton _ _, ?_⟩
  intro c hc d hd mark hMark hMark'
  rw [List.mem_singleton.1 hd] at hMark'
  obtain ⟨hMem, hApart⟩ := List.mem_filter.1 hc
  have hNone : ¬ ∃ x ∈ (ofMember m).hunks, x ∈ c.hunks := by
    rw [← sharesHunk_iff]
    simpa using hApart
  rcases mem_foldl_absorb_hunks.1 hMark' with hOwn | ⟨e, he, hOther⟩
  · exact hNone ⟨mark, hOwn, hMark⟩
  · obtain ⟨hMem', hShares⟩ := List.mem_filter.1 he
    have hNe : c ≠ e := by
      rintro rfl
      exact hNone (sharesHunk_iff.1 hShares)
    exact h.forall hMem hMem' hNe mark hMark hOther

theorem sound_join {g : Graph} {limit : Option Int} {clusters : List Cluster} {m : Member}
    (hm : (ofMember m).Sound g limit) (h : ∀ c ∈ clusters, c.Sound g limit) :
    ∀ c ∈ join clusters m, c.Sound g limit := by
  intro c hc
  rcases List.mem_append.1 hc with hc | hc
  · exact h c (List.mem_filter.1 hc).1
  · rw [List.mem_singleton.1 hc]
    exact hm.foldl_absorb fun d hd => h d (List.mem_filter.1 hd).1

theorem exists_mem_foldl_join {ms : List Member} {clusters : List Cluster} {h : HunkMark} :
    (∃ c ∈ ms.foldl join clusters, h ∈ c.hunks) ↔
      (∃ m ∈ ms, h ∈ m.marks) ∨ ∃ c ∈ clusters, h ∈ c.hunks := by
  induction ms generalizing clusters with
  | nil => simp
  | cons m rest ih =>
      rw [List.foldl_cons, ih, exists_mem_join, List.exists_mem_cons_iff]
      exact or_left_comm.trans or_assoc.symm

theorem disjoint_foldl_join {ms : List Member} {clusters : List Cluster}
    (h : clusters.Pairwise Disjoint) : (ms.foldl join clusters).Pairwise Disjoint := by
  induction ms generalizing clusters with
  | nil => exact h
  | cons m rest ih => exact ih (disjoint_join h)

theorem sound_foldl_join {g : Graph} {limit : Option Int} {ms : List Member}
    {clusters : List Cluster} (hms : ∀ m ∈ ms, (ofMember m).Sound g limit)
    (h : ∀ c ∈ clusters, c.Sound g limit) : ∀ c ∈ ms.foldl join clusters, c.Sound g limit := by
  induction ms generalizing clusters with
  | nil => exact h
  | cons m rest ih =>
      exact ih (fun n hn => hms n (List.mem_cons_of_mem _ hn))
        (sound_join (hms m (List.mem_cons_self ..)) h)

theorem map_id_numbered (next : Nat) (l : List Cluster) :
    (numbered next l).map (·.id) = List.range' next l.length := by
  induction l generalizing next with
  | nil => rfl
  | cons c rest ih => simp [numbered, ih, List.range'_succ]

/-- What does not depend on numbers and stamps is the same for numbered clusters. -/
theorem map_numbered {α : Type} (f : Cluster → α) (hf : ∀ c id, f { c with id, stamp := 0 } = f c)
    (next : Nat) (l : List Cluster) : (numbered next l).map f = l.map f := by
  induction l generalizing next with
  | nil => rfl
  | cons c rest ih => simp [numbered, ih, hf]

theorem disjoint_numbered {next : Nat} {l : List Cluster} (h : l.Pairwise Disjoint) :
    (numbered next l).Pairwise Disjoint := by
  have hMap {l : List Cluster} : l.Pairwise Disjoint ↔
      (l.map (·.hunks)).Pairwise fun s t => ∀ m ∈ s, ¬ m ∈ t := by
    rw [List.pairwise_map]
    rfl
  rw [hMap, map_numbered (·.hunks) fun _ _ => rfl, ← hMap]
  exact h

theorem mem_numbered {next : Nat} {l : List Cluster} {c : Cluster} (h : c ∈ numbered next l) :
    ∃ d ∈ l, c = { d with id := c.id, stamp := 0 } := by
  induction l generalizing next with
  | nil => cases h
  | cons d rest ih =>
      rcases List.mem_cons.1 h with rfl | h
      · exact ⟨d, List.mem_cons_self .., rfl⟩
      · obtain ⟨e, he, hEq⟩ := ih h
        exact ⟨e, List.mem_cons_of_mem _ he, hEq⟩

end Cluster

/-- The clusters to begin with are separate, and their hunks are the marks of the nodes. -/
theorem separate_initial {g : Graph} {maxDistance : Int} {ms : List Member} (hBuilt : g.Built)
    (hMarked : g.HunkMarked) (h : members g maxDistance = .ok ms) :
    Separate g (some maxDistance) (Cluster.initial ms) := by
  have hms : ∀ m ∈ ms, (Cluster.ofMember m).Sound g (some maxDistance) :=
    fun m hm => ((members_eq_ok h).2 m hm).sound hBuilt hMarked
  have hSound : ∀ c ∈ ms.foldl Cluster.join [], c.Sound g (some maxDistance) :=
    Cluster.sound_foldl_join hms (by simp)
  have hDisjoint : (ms.foldl Cluster.join []).Pairwise Cluster.Disjoint :=
    Cluster.disjoint_foldl_join .nil
  constructor
  · intro c hc
    obtain ⟨d, hd, hEq⟩ := Cluster.mem_numbered hc
    obtain ⟨hNonempty, hProper, hReach⟩ := hSound d (mem_sortBy.1 hd)
    rw [hEq]
    exact ⟨hNonempty, hProper, hReach⟩
  · rw [Cluster.initial, Cluster.map_id_numbered]
    exact List.nodup_range'
  · have hPerm := sortBy_perm (fun a b => HunkName.le (Cluster.first a) (Cluster.first b))
      (ms.foldl Cluster.join [])
    exact Cluster.disjoint_numbered ((hPerm.pairwise_iff Cluster.Disjoint.symm).2 hDisjoint)

/-- The clusters to begin with hold exactly the marks of the members. -/
theorem exists_mem_initial {ms : List Member} {h : HunkMark} :
    (∃ c ∈ Cluster.initial ms, h ∈ c.hunks) ↔ ∃ m ∈ ms, h ∈ m.marks := by
  have hMap (l : List Cluster) : (∃ c ∈ l, h ∈ c.hunks) ↔ ∃ s ∈ l.map (·.hunks), h ∈ s := by
    simp
  rw [Cluster.initial, hMap, Cluster.map_numbered (·.hunks) fun _ _ => rfl, ← hMap]
  simp only [mem_sortBy, Cluster.exists_mem_foldl_join, List.not_mem_nil, false_and, exists_false,
    or_false]

end Grouping

end ChangeSplit
