import ChangeSplit.Proofs.Grouping.Chain

/-! What the weight threshold is for. A threshold that is not negative keeps apart what no edge
joins, since no edges weigh nothing. A threshold that is no number compares with nothing: the
settings let it pass, and so does every pair of clusters then. -/

namespace ChangeSplit

theorem Settings.fault?_eq_none {s : Settings} (h : s.fault? = none) :
    (0 ≤ s.maxDistance ∧ s.maxDistance ≤ 3) ∧
      ((Binary64.finite 0).le s.minSimilarity = true ∧
        s.minSimilarity.le (.finite 1) = true) ∧ s.weightThreshold.lt (.finite 0) = false := by
  unfold fault? at h
  split_ifs at h with hDistance hSimilarity hThreshold
  refine ⟨?_, ?_, by simpa using hThreshold⟩
  · simp only [Bool.or_eq_true, decide_eq_true_eq] at hDistance
    omega
  · simpa using hSimilarity

namespace Graph

/-- Whether a number is that of a node, or of one that contains what the node stands for. -/
def StandsAt (g : Graph) (n : Node) (id : Nat) : Prop := n.id = id ∨ ∃ c ∈ g.containers n, c.id = id

/-- Whether an edge joins two nodes. One end of it is one of them, and the other end is the other
one or contains it. -/
def JoinsNodes (g : Graph) (m n : Node) (e : Edge) : Prop :=
  (m.id = e.source ∧ g.StandsAt n e.target) ∨ (m.id = e.target ∧ g.StandsAt n e.source) ∨
    (n.id = e.source ∧ g.StandsAt m e.target) ∨ (n.id = e.target ∧ g.StandsAt m e.source)

/-- Whether some edge joins two nodes. -/
def Bridged (g : Graph) (m n : Node) : Prop := ∃ e ∈ g.edges, g.JoinsNodes m n e

theorem Bridged.symm {g : Graph} {m n : Node} (h : g.Bridged m n) : g.Bridged n m := by
  obtain ⟨e, he, h | h | h | h⟩ := h
  · exact ⟨e, he, .inr (.inr (.inl h))⟩
  · exact ⟨e, he, .inr (.inr (.inr h))⟩
  · exact ⟨e, he, .inl h⟩
  · exact ⟨e, he, .inr (.inl h)⟩

end Graph

namespace Grouping

variable {g : Graph} {s : Settings} {a b : Cluster}

/-- Whether settings keep apart what no edge joins: in every change, a chain of touched nodes links
any two hunks of a group, each of which has a hunk in common with the next or is joined to it by an
edge. -/
def KeepsApart (s : Settings) : Prop :=
  ∀ (g : Graph) (files : List FileChange) (gs : List Group), g.Built →
    groups s g files = .ok gs → ∀ x y, x ≠ y → Together gs x y → g.Chained g.Bridged x y

theorem Cluster.exists_joinsNodes {maxDistance : Int} (ha : a.Described g maxDistance)
    (hb : b.Described g maxDistance) {e : Edge} (h : a.joinedBy b e = true) :
    ∃ m ∈ a.members, ∃ n ∈ b.members, g.JoinsNodes m.node n.node e := by
  have hHas {c : Cluster} {id : Nat} (h : c.has id = true) : ∃ m ∈ c.members, m.node.id = id := by
    simpa [has] using h
  have hReaches {c : Cluster} {id : Nat} (hc : c.Described g maxDistance)
      (h : c.reaches id = true) : ∃ m ∈ c.members, g.StandsAt m.node id := by
    simp only [reaches, List.any_eq_true, Bool.or_eq_true, decide_eq_true_eq,
      List.contains_iff_mem] at h
    obtain ⟨m, hm, hId | hContainer⟩ := h
    · exact ⟨m, hm, .inl hId⟩
    · rw [(hc m hm).containers, List.mem_map] at hContainer
      exact ⟨m, hm, .inr hContainer⟩
  simp only [joinedBy, Bool.or_eq_true, Bool.and_eq_true] at h
  rcases h with ((⟨hEnd, hOther⟩ | ⟨hEnd, hOther⟩) | ⟨hEnd, hOther⟩) | ⟨hEnd, hOther⟩
  · obtain ⟨m, hm, hId⟩ := hHas hEnd
    obtain ⟨n, hn, hStands⟩ := hReaches hb hOther
    exact ⟨m, hm, n, hn, .inl ⟨hId, hStands⟩⟩
  · obtain ⟨m, hm, hId⟩ := hHas hEnd
    obtain ⟨n, hn, hStands⟩ := hReaches hb hOther
    exact ⟨m, hm, n, hn, .inr (.inl ⟨hId, hStands⟩)⟩
  · obtain ⟨n, hn, hId⟩ := hHas hEnd
    obtain ⟨m, hm, hStands⟩ := hReaches ha hOther
    exact ⟨m, hm, n, hn, .inr (.inr (.inl ⟨hId, hStands⟩))⟩
  · obtain ⟨n, hn, hId⟩ := hHas hEnd
    obtain ⟨m, hm, hStands⟩ := hReaches ha hOther
    exact ⟨m, hm, n, hn, .inr (.inr (.inr ⟨hId, hStands⟩))⟩

/-- No edges weigh nothing. -/
theorem Tie.exists_edge {edges : List Edge} {t : Tie} (h : t.quarters edges ≠ 0) :
    ∃ e ∈ edges, e.id ∈ t.edges := by
  obtain ⟨e, hMem⟩ := List.exists_mem_of_ne_nil (edges.filter fun e => t.edges.contains e.id)
    fun hNil => h (by rw [quarters, hNil]; rfl)
  obtain ⟨he, hTie⟩ := List.mem_filter.1 hMem
  exact ⟨e, he, OrderedSet.contains_iff.1 hTie⟩

/-- Nothing is not more than a threshold that the settings let pass, if it is a number. -/
theorem quarters_ne_zero_of_passes (hFault : s.fault? = none)
    (hThreshold : s.weightThreshold ≠ .undefined) {edges : List Edge} {t : Tie}
    {similarity : Rat} {distance : Nat} (h : Passes s edges t similarity distance) :
    t.quarters edges ≠ 0 := by
  intro hNothing
  have hHeavy := h.heavy
  have hZero : mkRat (0 : Nat) 4 = 0 := by decide +kernel
  rw [hNothing, hZero, ← Binary64.lt_finite_iff hThreshold] at hHeavy
  rw [(Settings.fault?_eq_none hFault).2.2] at hHeavy
  cases hHeavy

theorem keepsApart_of_ne_undefined (hFault : s.fault? = none)
    (hThreshold : s.weightThreshold ≠ .undefined) : KeepsApart s := by
  intro g files gs _ hGroups x y
  refine chained_of_together hGroups (fun _ _ => Graph.Bridged.symm) fun a b ha hb _ hPasses => ?_
  obtain ⟨_, _, hTie⟩ :=
    Tie.exists_edge (quarters_ne_zero_of_passes hFault hThreshold hPasses)
  obtain ⟨e, he, hJoined, _⟩ := Tie.mem_edges_between.1 hTie
  obtain ⟨m, hm, n, hn, hJoins⟩ := Cluster.exists_joinsNodes ha hb hJoined
  exact ⟨m, hm, n, hn, e, he, hJoins⟩

/-- At distance zero there is nothing to be merged, whatever the threshold is. -/
theorem keepsApart_of_maxDistance_eq_zero (hDistance : s.maxDistance = 0) : KeepsApart s := by
  intro g files gs hBuilt hGroups x y hNe hTogether
  have hSymm : ∀ m n, g.Within s.maxDistance m n → g.Within s.maxDistance n m :=
    fun _ _ => Graph.Within.symm
  obtain ⟨m, hm, hx, n, hn, hy, hChain⟩ := chained_of_together hGroups hSymm
    (fun a b ha _ _ => exists_within_of_passes ha) hNe hTogether
  refine ⟨m, hm, hx, n, hn, hy, hChain.imp hm fun p hp q hq hNear => .inl ?_⟩
  obtain ⟨hpNode, hpTouched⟩ := List.mem_filter.1 hp
  obtain rfl := hBuilt.eq_of_id hpNode (List.mem_filter.1 hq).1 (hNear.id_eq hDistance)
  obtain ⟨name, hName⟩ := (hBuilt.isTouched_iff hpNode).1 hpTouched
  exact ⟨name, hName, hName⟩

/-- A method in a revision. -/
def versionLabel (r : Revision) : NodeLabel := {
  kind := .method, identifier := "f", name := r.scope "A.f", revision := r
  package := some "", owner := some "A", member := some "A.f" }

/-- Both versions of a method, each touched by a hunk of its own. No edge joins them. -/
def twoVersions : Graph :=
  let nodes : List Node :=
    [⟨versionLabel .base, 1, none, ∅⟩, ⟨versionLabel .current, 2, none, ∅⟩]
  ((⟨nodes, []⟩ : Graph).mark 1 "0:0").mark 2 "0:1"

theorem built_twoVersions : twoVersions.Built :=
  .mark 2 _ (.mark 1 _
    ((Graph.Built.empty.append (versionLabel .base) rfl).append (versionLabel .current) rfl))

theorem hunkMarked_twoVersions : twoVersions.HunkMarked := by
  have hNames : ∀ n ∈ twoVersions.nodes, ∀ name ∈ n.marks.toList,
      name = HunkName.ofIndexes 0 0 ∨ name = HunkName.ofIndexes 0 1 := by decide
  intro n hn name hName
  rcases hNames n hn name hName with rfl | rfl
  · exact ⟨0, 0, rfl⟩
  · exact ⟨0, 1, rfl⟩

theorem not_chained_twoVersions : ¬ twoVersions.Chained twoVersions.Bridged "0:0" "0:1" := by
  rintro ⟨m, hm, hx, n, _, hy, hChain⟩
  have hOwn : ∀ n ∈ twoVersions.nodes, ∀ x ∈ n.marks.toList, ∀ y ∈ n.marks.toList, x = y := by
    decide
  have hShared := hChain.reflTransGen (fun _ _ _ _ ⟨e, he, _⟩ => by cases he) hm hx hy
  have hSame : ∀ y, Relation.ReflTransGen twoVersions.SharesNode "0:0" y → "0:0" = y := by
    intro y h
    induction h with
    | refl => rfl
    | tail _ hStep ih =>
        obtain ⟨n, hn, hFrom, hTo⟩ := hStep
        exact ih.trans (hOwn n hn _ hFrom _ hTo)
  exact absurd (hSame _ hShared) (by decide)

/-- The two versions are one member, and their facts are the same. -/
theorem initial_twoVersions {maxDistance : Int} (hLow : 1 ≤ maxDistance) (hHigh : maxDistance ≤ 3) :
    ∃ ms, members twoVersions maxDistance = .ok ms ∧ (Cluster.initial ms).length = 2 ∧
      ∃ a b, (a, b) ∈ Greedy.pairs (Cluster.initial ms) ∧ a.similarity b = 1 ∧
        (Tie.between twoVersions.edges a b).distance = some 1 := by
  have hAll : ∀ d ∈ ([1, 2, 3] : List Int), (members twoVersions d).toOption.map (fun ms =>
      ((Cluster.initial ms).length, (Greedy.pairs (Cluster.initial ms)).map fun p =>
        (p.1.similarity p.2, (Tie.between twoVersions.edges p.1 p.2).distance))) =
          some (2, [(1, some 1)]) := by
    decide +kernel
  have hMem : maxDistance ∈ ([1, 2, 3] : List Int) := by
    simp only [List.mem_cons, List.not_mem_nil, or_false]
    omega
  obtain ⟨ms, hMembers, hInitial⟩ := exists_ok_of_toOption (hAll maxDistance hMem)
  obtain ⟨hLength, hPairs⟩ := Prod.mk.inj hInitial
  obtain ⟨⟨a, b⟩, hOnly, hTie⟩ := List.map_eq_singleton_iff.1 hPairs
  obtain ⟨hSimilarity, hDistance⟩ := Prod.mk.inj hTie
  exact ⟨ms, hMembers, hLength, a, b, by simp [hOnly], hSimilarity, hDistance⟩

/-- Nothing is at most what is no number, so a threshold of this kind stops no pair that passes the
other gates. -/
theorem passes_of_undefined (hFault : s.fault? = none)
    (hThreshold : s.weightThreshold = .undefined) {edges : List Edge} {t : Tie} {distance : Nat}
    (hDistance : t.distance = some distance) (hNear : (distance : Int) ≤ s.maxDistance) :
    Passes s edges t 1 distance where
  distance_eq := hDistance
  near := hNear
  similar := by
    rw [Binary64.lt, (Settings.fault?_eq_none hFault).2.1.2]
    simp
  heavy := by
    rw [hThreshold]
    rfl

/-- A threshold that is no number lets the two versions be merged. -/
theorem together_twoVersions (hFault : s.fault? = none)
    (hThreshold : s.weightThreshold = .undefined) (hDistance : s.maxDistance ≠ 0) :
    ∃ gs, groups s twoVersions twoHunks = .ok gs ∧ Together gs "0:0" "0:1" := by
  obtain ⟨⟨hLow, hHigh⟩, _⟩ := Settings.fault?_eq_none hFault
  obtain ⟨ms, hMembers, hLength, a, b, hPair, hSimilarity, hTie⟩ :=
    initial_twoVersions (by omega) hHigh
  have hNumbered := numbered_initial hMembers
  obtain ⟨ha, hb, hId⟩ := Greedy.of_mem_pairs (List.pairwise_map.1 hNumbered.ids) hPair
  have hPasses :
      Passes s twoVersions.edges (Tie.between twoVersions.edges a b) (a.similarity b) 1 := by
    rw [hSimilarity]
    exact passes_of_undefined hFault hThreshold hTie (by omega)
  have hSettles : Greedy.Settles s twoVersions.edges (Cluster.initial ms) _ :=
    settles_mergeClusters hNumbered
  -- merging cannot end with the clusters that it began with
  obtain ⟨_, hEnd, hNone⟩ := hSettles.invariant
    (motive := fun l => l = Cluster.initial ms ∨ l.length < 2)
    (fun l c d _ _ hl hc hd _ _ => .inr <| by
      have hFewer : (absorbed l c d).length < l.length := length_absorbed_lt hd
      rcases hl with rfl | hl <;> omega) hNumbered (.inl rfl)
  have hOne : (mergeClusters s twoVersions.edges (Cluster.initial ms)).length < 2 :=
    hEnd.resolve_left fun hSame =>
      hNone _ (hSame ▸ Greedy.offered_of_passes ha hb hId hPasses)
  have hTouched : ∀ name ∈ ["0:0", "0:1"], ∃ n ∈ twoVersions.touched, name ∈ n.marks.toList := by
    decide
  have hMark : ∀ name ∈ ["0:0", "0:1"],
      ∃ c ∈ mergeClusters s twoVersions.edges (Cluster.initial ms), ∃ k ∈ c.hunks,
        k.name = name := by
    intro name hName
    obtain ⟨n, hn, hMark⟩ := hTouched name hName
    obtain ⟨c, hc, hMarks⟩ := exists_cluster_of_touched hunkMarked_twoVersions hMembers
      (arranged_mergeClusters s hMembers) hn
    exact ⟨c, hc, hMarks name hMark⟩
  obtain ⟨c, hc, k, hk, hName⟩ := hMark "0:0" (by simp)
  obtain ⟨d, hd, l, hl, hName'⟩ := hMark "0:1" (by simp)
  obtain ⟨only, hOnly⟩ := List.length_eq_one_iff.1
    (Nat.le_antisymm (Nat.le_of_lt_succ hOne) (List.length_pos_of_mem hc))
  have hSame : d = c := by
    rw [hOnly, List.mem_singleton] at hc hd
    rw [hc, hd]
  have hFiles : (hunkNames twoHunks).isEmpty = false := by decide +kernel
  refine ⟨_, by rw [groups_eq s twoVersions hFiles, hMembers]; rfl, ?_⟩
  exact together_groupsOf_iff.2 (.inl ⟨c, hc, k, hk, l, hSame ▸ hl, hName, hName'⟩)

/-- Settings that are let pass keep apart what no edge joins, unless the threshold is no number.
Such a threshold does harm at every distance but zero: both versions of a method are merged then,
whatever overlap of their facts is asked for, though no edge joins them. -/
theorem keepsApart_iff (hFault : s.fault? = none) :
    KeepsApart s ↔ s.weightThreshold ≠ .undefined ∨ s.maxDistance = 0 := by
  constructor
  · intro hApart
    by_contra hNot
    obtain ⟨hThreshold, hDistance⟩ := not_or.1 hNot
    obtain ⟨gs, hGroups, hTogether⟩ :=
      together_twoVersions hFault (not_not.1 hThreshold) hDistance
    exact not_chained_twoVersions
      (hApart twoVersions twoHunks gs built_twoVersions hGroups "0:0" "0:1" (by decide) hTogether)
  · rintro (hThreshold | hDistance)
    · exact keepsApart_of_ne_undefined hFault hThreshold
    · exact keepsApart_of_maxDistance_eq_zero hDistance

/-- The settings to begin with are of the good kind. With a threshold that is no number they are
still let pass, and both versions of the method are merged. -/
theorem keepsApart_iff_undefined :
    ({} : Settings).fault? = none ∧ KeepsApart {} ∧
      ({ weightThreshold := .undefined } : Settings).fault? = none ∧
        ¬ KeepsApart { weightThreshold := .undefined } ∧
          (groups {} twoVersions twoHunks).toOption.map (·.map (·.hunks)) =
            some [["0:0"], ["0:1"]] ∧
          (groups { weightThreshold := .undefined } twoVersions twoHunks).toOption.map
            (·.map (·.hunks)) = some [["0:0", "0:1"]] := by
  have hFault : ({} : Settings).fault? = none := by decide +kernel
  have hFault' : ({ weightThreshold := .undefined } : Settings).fault? = none := by decide +kernel
  refine ⟨hFault, (keepsApart_iff hFault).2 (.inl (by decide)), hFault', fun hApart => ?_,
    by decide +kernel, by decide +kernel⟩
  have hGood := (keepsApart_iff hFault').1 hApart
  revert hGood
  decide

end Grouping

end ChangeSplit
