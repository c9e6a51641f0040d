import ChangeSplit.Proofs.ChangeGraph.Part
import ChangeSplit.Proofs.Graph.Distance
import ChangeSplit.Proofs.Graph.Facts

/-! A graph inside a larger one, under other numbers and with no edge to the rest of it. Walks from
its nodes stay inside, so distances, containers and facts are the same as in the graph alone. The
search may be cut off at the number of nodes, but no shortest walk is as long as that. -/

namespace ChangeSplit.Graph

/-- Whether a number is that of a node. -/
def Has (g : Graph) (id : Nat) : Prop := ∃ n ∈ g.nodes, n.id = id

theorem has_id {g : Graph} {n : Node} (hn : n ∈ g.nodes) : g.Has n.id := ⟨n, hn, rfl⟩

/-- Whether all nodes and edges of a graph are in another one, under other numbers, and all edges
that are there at these nodes are edges of the graph. -/
structure Embeds (a u : Graph) (f : Nat → Nat) : Prop where
  closed : a.Closed
  inj : ∀ x y, a.Has x → a.Has y → f x = f y → x = y
  node : ∀ m ∈ a.nodes, ∃ n ∈ u.nodes,
    n.id = f m.id ∧ n.toNodeLabel = m.toNodeLabel ∧ n.marks = m.marks
  links : ((u.edges.map Edge.link).filter fun l =>
      l.source ∈ a.nodes.map (f ·.id) ∨ l.target ∈ a.nodes.map (f ·.id)).Perm
    (a.edges.map (·.link.renumber f))

theorem Closed.has_source {g : Graph} (h : g.Closed) {e : Edge} (he : e ∈ g.edges) :
    g.Has e.source :=
  (h e he).1

theorem Closed.has_target {g : Graph} (h : g.Closed) {e : Edge} (he : e ∈ g.edges) :
    g.Has e.target :=
  (h e he).2

/-- A walk never leaves a graph all edges of which join its nodes. -/
theorem Closed.has_of_walk {g : Graph} (h : g.Closed) {x y n : Nat} (hx : g.Has x)
    (hWalk : g.Walk x n y) : g.Has y := by
  cases hWalk with
  | here => exact hx
  | next prior last =>
      obtain ⟨e, he, ⟨_, rfl⟩ | ⟨_, rfl⟩⟩ := last
      · exact h.has_target he
      · exact h.has_source he

/-- A shortest walk meets each node once, so it has fewer edges than there are nodes. -/
theorem Closed.lt_of_apart {g : Graph} (h : g.Closed) {x y d : Nat} (hx : g.Has x)
    (hApart : g.Apart x d y) : d < g.nodes.length := by
  have hWay : ∀ k : Fin (d + 1), ∃ z, g.Apart x k z :=
    fun k => hApart.exists_nearer (Nat.le_of_lt_succ k.isLt)
  choose z hz using hWay
  have hInj : Function.Injective z := by
    intro k l hSame
    have hk := hz k
    rw [hSame] at hk
    exact Fin.ext (hk.unique (hz l))
  have hSub : (List.finRange (d + 1)).map z ⊆ g.nodes.map (·.id) := by
    intro id hId
    obtain ⟨k, _, rfl⟩ := List.mem_map.1 hId
    obtain ⟨n, hn, hSame⟩ := h.has_of_walk hx (hz k).1
    exact List.mem_map.2 ⟨n, hn, hSame⟩
  have hLength := (((List.nodup_finRange _).map hInj).subperm hSub).length_le
  rw [List.length_map, List.length_finRange, List.length_map] at hLength
  omega

namespace Embeds

variable {a u : Graph} {f : Nat → Nat} {x y : Nat} {m n : Node}

theorem mem_image : x ∈ a.nodes.map (f ·.id) ↔ ∃ y, a.Has y ∧ f y = x := by
  simp [Has]

/-- Every edge of the graph is in the larger one. -/
theorem exists_image (h : a.Embeds u f) {e : Edge} (he : e ∈ a.edges) :
    ∃ e' ∈ u.edges, e'.kind = e.kind ∧ e'.source = f e.source ∧ e'.target = f e.target := by
  have hMem := h.links.mem_iff.2 (List.mem_map_of_mem he)
  obtain ⟨e', he', hLink⟩ := List.mem_map.1 (List.mem_filter.1 hMem).1
  have hFields := ChangeGraph.Link.mk.inj hLink
  exact ⟨e', he', hFields.2.2, hFields.1, hFields.2.1⟩

/-- Every edge at a node of the graph comes from it. -/
theorem exists_source (h : a.Embeds u f) {e : Edge} (he : e ∈ u.edges) (hx : a.Has x)
    (hEnd : e.source = f x ∨ e.target = f x) :
    ∃ d ∈ a.edges, d.kind = e.kind ∧ f d.source = e.source ∧ f d.target = e.target := by
  have hMem : e.link ∈ (u.edges.map Edge.link).filter fun l =>
      l.source ∈ a.nodes.map (f ·.id) ∨ l.target ∈ a.nodes.map (f ·.id) := by
    refine List.mem_filter.2 ⟨List.mem_map_of_mem he, ?_⟩
    rw [decide_eq_true_eq]
    exact hEnd.imp (fun hSource => mem_image.2 ⟨x, hx, hSource.symm⟩)
      fun hTarget => mem_image.2 ⟨x, hx, hTarget.symm⟩
  obtain ⟨d, hd, hLink⟩ := List.mem_map.1 (h.links.mem_iff.1 hMem)
  have hFields := ChangeGraph.Link.mk.inj hLink
  exact ⟨d, hd, hFields.2.2, hFields.1, hFields.2.1⟩

theorem joined_iff (h : a.Embeds u f) (hx : a.Has x) :
    u.Joined (f x) y ↔ ∃ z, a.Joined x z ∧ f z = y := by
  constructor
  · rintro ⟨e, he, ⟨hSource, rfl⟩ | ⟨hTarget, rfl⟩⟩
    · obtain ⟨d, hd, _, hs, ht⟩ := h.exists_source he hx (.inl hSource)
      have hSame : d.source = x := h.inj _ _ (h.closed.has_source hd) hx (hs.trans hSource)
      exact ⟨d.target, ⟨d, hd, .inl ⟨hSame, rfl⟩⟩, ht⟩
    · obtain ⟨d, hd, _, hs, ht⟩ := h.exists_source he hx (.inr hTarget)
      have hSame : d.target = x := h.inj _ _ (h.closed.has_target hd) hx (ht.trans hTarget)
      exact ⟨d.source, ⟨d, hd, .inr ⟨hSame, rfl⟩⟩, hs⟩
  · rintro ⟨z, ⟨d, hd, hEnds⟩, rfl⟩
    obtain ⟨e, he, _, hs, ht⟩ := h.exists_image hd
    rcases hEnds with ⟨rfl, rfl⟩ | ⟨rfl, rfl⟩
    · exact ⟨e, he, .inl ⟨hs, ht⟩⟩
    · exact ⟨e, he, .inr ⟨ht, hs⟩⟩

theorem walk_iff (h : a.Embeds u f) (hx : a.Has x) {k : Nat} :
    u.Walk (f x) k y ↔ ∃ z, a.Walk x k z ∧ f z = y := by
  induction k generalizing y with
  | zero =>
      constructor
      · rintro ⟨⟩
        exact ⟨x, .here x, rfl⟩
      · rintro ⟨z, ⟨⟩, rfl⟩
        exact .here _
  | succ k ih =>
      constructor
      · intro hWalk
        cases hWalk with
        | next prior last =>
            obtain ⟨z, hWalk, rfl⟩ := ih.1 prior
            obtain ⟨w, hJoined, rfl⟩ := (h.joined_iff (h.closed.has_of_walk hx hWalk)).1 last
            exact ⟨w, .next hWalk hJoined, rfl⟩
      · rintro ⟨w, hWalk, rfl⟩
        cases hWalk with
        | next prior last =>
            exact .next (ih.2 ⟨_, prior, rfl⟩)
              ((h.joined_iff (h.closed.has_of_walk hx prior)).2 ⟨w, last, rfl⟩)

theorem walk_map_iff (h : a.Embeds u f) (hx : a.Has x) (hy : a.Has y) {k : Nat} :
    u.Walk (f x) k (f y) ↔ a.Walk x k y := by
  rw [h.walk_iff hx]
  constructor
  · rintro ⟨z, hWalk, hSame⟩
    rwa [← h.inj _ _ (h.closed.has_of_walk hx hWalk) hy hSame]
  · intro hWalk
    exact ⟨y, hWalk, rfl⟩

theorem apart_map_iff (h : a.Embeds u f) (hx : a.Has x) (hy : a.Has y) {d : Nat} :
    u.Apart (f x) d (f y) ↔ a.Apart x d y := by
  simp only [Apart, h.walk_map_iff hx hy]

theorem length_le (h : a.Embeds u f) (hNodup : (a.nodes.map (·.id)).Nodup) :
    a.nodes.length ≤ u.nodes.length := by
  have hImage : (a.nodes.map (f ·.id)).Nodup := by
    have hMap : a.nodes.map (f ·.id) = (a.nodes.map (·.id)).map f := by rw [List.map_map]; rfl
    rw [hMap]
    refine hNodup.map_on fun i hi j hj hSame => ?_
    exact h.inj i j (List.mem_map.1 hi) (List.mem_map.1 hj) hSame
  have hSub : a.nodes.map (f ·.id) ⊆ u.nodes.map (·.id) := by
    intro id hId
    obtain ⟨m, hm, rfl⟩ := List.mem_map.1 hId
    obtain ⟨n, hn, hSame, _⟩ := h.node m hm
    exact List.mem_map.2 ⟨n, hn, hSame⟩
  simpa using (hImage.subperm hSub).length_le

/-- The search finds the same distances between nodes of the graph, whatever its limit. -/
theorem lookup_distancesFrom (h : a.Embeds u f) (hNodup : (a.nodes.map (·.id)).Nodup)
    (hx : a.Has x) (hy : a.Has y) (limit : Option Int) :
    (u.distancesFrom (f x) limit).lookup (f y) = (a.distancesFrom x limit).lookup y := by
  apply Option.ext
  intro d
  rw [Graph.lookup_distancesFrom, Graph.lookup_distancesFrom, h.apart_map_iff hx hy]
  refine and_congr_left fun hApart => ?_
  have hShort := h.closed.lt_of_apart hx hApart
  have hLonger := h.length_le hNodup
  cases limit with
  | none =>
      simp only [reachOf, Option.elim]
      omega
  | some l =>
      simp only [reachOf, Option.elim]
      omega

/-- No search from a node of the graph finds anything outside. -/
theorem lookup_distancesFrom_outside (h : a.Embeds u f) (hx : a.Has x)
    (hy : ∀ z, a.Has z → f z ≠ y) (limit : Option Int) :
    (u.distancesFrom (f x) limit).lookup y = none := by
  rw [Option.eq_none_iff_forall_ne_some]
  intro d hFound
  obtain ⟨_, hWalk, _⟩ := (Graph.lookup_distancesFrom ..).1 hFound
  obtain ⟨z, hWalk, hSame⟩ := (h.walk_iff hx).1 hWalk
  exact hy z (h.closed.has_of_walk hx hWalk) hSame

section Nodes

variable (ha : a.Built) (hu : u.Built)

include hu in
/-- A node is the same under its other number. -/
theorem same (h : a.Embeds u f) (hm : m ∈ a.nodes) (hn : n ∈ u.nodes) (hId : n.id = f m.id) :
    n.toNodeLabel = m.toNodeLabel ∧ n.marks = m.marks := by
  obtain ⟨n', hn', hId', hLabel, hMarks⟩ := h.node m hm
  rw [hu.eq_of_id hn hn' (hId.trans hId'.symm)]
  exact ⟨hLabel, hMarks⟩

include hu in
theorem entityName?_eq (h : a.Embeds u f) (hm : m ∈ a.nodes) (hn : n ∈ u.nodes)
    (hId : n.id = f m.id) : n.entityName? = m.entityName? := by
  rw [Node.entityName?, Node.entityName?, (h.same hu hm hn hId).1]

include ha hu

/-- The nodes that edges join to a node are those that they join to it in the graph, whether edges
are followed from source to target or back. -/
theorem exists_joined_iff (h : a.Embeds u f) (hm : m ∈ a.nodes) (hId : n.id = f m.id)
    {near far : Edge → Nat}
    (hEnds : near = Edge.source ∧ far = Edge.target ∨ near = Edge.target ∧ far = Edge.source)
    {p : EdgeKind → Prop} {c : Node} :
    (∃ e ∈ u.edges, p e.kind ∧ near e = n.id ∧ u.node? (far e) = some c) ↔
      c ∈ u.nodes ∧ ∃ b, (∃ e ∈ a.edges, p e.kind ∧ near e = m.id ∧
        a.node? (far e) = some b) ∧ c.id = f b.id := by
  have hEither (e : Edge) :
      near e = e.source ∧ far e = e.target ∨ near e = e.target ∧ far e = e.source := by
    rcases hEnds with ⟨rfl, rfl⟩ | ⟨rfl, rfl⟩
    · exact .inl ⟨rfl, rfl⟩
    · exact .inr ⟨rfl, rfl⟩
  have hImage {d e : Edge} (hs : f d.source = e.source) (ht : f d.target = e.target) :
      f (near d) = near e ∧ f (far d) = far e := by
    rcases hEnds with ⟨rfl, rfl⟩ | ⟨rfl, rfl⟩
    · exact ⟨hs, ht⟩
    · exact ⟨ht, hs⟩
  have hHas {d : Edge} (hd : d ∈ a.edges) : a.Has (near d) ∧ a.Has (far d) := by
    rcases hEither d with ⟨hNear, hFar⟩ | ⟨hNear, hFar⟩
    · exact ⟨hNear ▸ h.closed.has_source hd, hFar ▸ h.closed.has_target hd⟩
    · exact ⟨hNear ▸ h.closed.has_target hd, hFar ▸ h.closed.has_source hd⟩
  constructor
  · rintro ⟨e, he, hKind, hNear, hNode⟩
    obtain ⟨hc, hSame⟩ := mem_of_node? hNode
    rw [hId] at hNear
    have hTouches : e.source = f m.id ∨ e.target = f m.id := by
      rcases hEither e with ⟨hEnd, _⟩ | ⟨hEnd, _⟩
      · exact .inl (hEnd.symm.trans hNear)
      · exact .inr (hEnd.symm.trans hNear)
    obtain ⟨d, hd, hk, hs, ht⟩ := h.exists_source he (has_id hm) hTouches
    obtain ⟨hNear', hFar'⟩ := hImage hs ht
    obtain ⟨b, hb, hEnd⟩ := (hHas hd).2
    refine ⟨hc, b, ⟨d, hd, hk ▸ hKind, ?_, hEnd ▸ ha.node?_id hb⟩, ?_⟩
    · exact h.inj _ _ (hHas hd).1 (has_id hm) (hNear'.trans hNear)
    · rw [hSame, ← hFar', hEnd]
  · rintro ⟨hc, b, ⟨d, hd, hKind, hNear, hNode⟩, hSame⟩
    obtain ⟨e, he, hk, hs, ht⟩ := h.exists_image hd
    obtain ⟨hNear', hFar'⟩ := hImage hs.symm ht.symm
    refine ⟨e, he, hk ▸ hKind, by rw [← hNear', hNear, hId], ?_⟩
    rw [← hFar', ← (mem_of_node? hNode).2, ← hSame]
    exact hu.node?_id hc

/-- The containers of a node are those that it has in the graph. -/
theorem mem_containers_iff (h : a.Embeds u f) (hm : m ∈ a.nodes) (hn : n ∈ u.nodes)
    (hId : n.id = f m.id) {c : Node} :
    c ∈ u.containers n ↔ c ∈ u.nodes ∧ ∃ b ∈ a.containers m, c.id = f b.id := by
  have hKind : n.kind = m.kind := congrArg NodeLabel.kind (h.same hu hm hn hId).1
  rw [mem_containers, h.exists_joined_iff ha hu hm hId (.inr ⟨rfl, rfl⟩) (p := (· = .contains)),
    hKind]
  simp only [mem_containers]
  constructor
  · rintro ⟨hHunk, hc, b, hb, hSame⟩
    exact ⟨hc, b, ⟨hHunk, hb⟩, hSame⟩
  · rintro ⟨hc, b, ⟨hHunk, hb⟩, hSame⟩
    exact ⟨hHunk, hc, b, hb, hSame⟩

theorem mem_referred_iff (h : a.Embeds u f) (hm : m ∈ a.nodes) (hId : n.id = f m.id) {c : Node} :
    c ∈ u.referred n ↔ c ∈ u.nodes ∧ ∃ b ∈ a.referred m, c.id = f b.id := by
  rw [mem_referred, h.exists_joined_iff ha hu hm hId (.inl ⟨rfl, rfl⟩) (p := (· ≠ .contains))]
  simp only [mem_referred]

/-- A node without containers stands for its own name in both graphs. -/
theorem mem_namesakes_iff (h : a.Embeds u f) (hm : m ∈ a.nodes) (hn : n ∈ u.nodes)
    (hId : n.id = f m.id) {c : Node} :
    c ∈ u.namesakes n ↔ c ∈ u.nodes ∧ ∃ b ∈ a.namesakes m, c.id = f b.id := by
  have hContainers := fun c => h.mem_containers_iff ha hu hm hn hId (c := c)
  have hEmpty : (u.containers n).isEmpty = (a.containers m).isEmpty := by
    rw [Bool.eq_iff_iff, List.isEmpty_iff, List.isEmpty_iff, List.eq_nil_iff_forall_not_mem,
      List.eq_nil_iff_forall_not_mem]
    constructor
    · intro hNone b hb
      obtain ⟨c, hc, hSame, _⟩ := h.node b (mem_of_mem_containers hb)
      exact hNone c ((hContainers c).2 ⟨hc, b, hb, hSame⟩)
    · intro hNone c hc
      obtain ⟨_, b, hb, _⟩ := (hContainers c).1 hc
      exact hNone b hb
  rw [namesakes, namesakes, hEmpty]
  split
  case isTrue =>
    simp only [List.mem_singleton, exists_eq_left]
    constructor
    · rintro rfl
      exact ⟨hn, hId⟩
    · rintro ⟨hc, hSame⟩
      exact hu.eq_of_id hc hn (hSame.trans hId.symm)
  case isFalse => exact hContainers c

/-- The facts of a node are those that it has in the graph. -/
theorem facts?_eq (h : a.Embeds u f) (hm : m ∈ a.nodes) (hn : n ∈ u.nodes) (hId : n.id = f m.id) :
    u.facts? n = a.facts? m := by
  have hSources {b : Node} (hb : b ∈ a.namesakes m ∨ b ∈ a.referred m) : b ∈ a.nodes := by
    exact hb.elim (mem_of_mem_namesakes hm) mem_of_mem_referred
  have hImage {c : Node} : (c ∈ u.namesakes n ∨ c ∈ u.referred n) ↔ c ∈ u.nodes ∧
      ∃ b, (b ∈ a.namesakes m ∨ b ∈ a.referred m) ∧ c.id = f b.id := by
    rw [h.mem_namesakes_iff ha hu hm hn hId, h.mem_referred_iff ha hu hm hId, ← and_or_left]
    simp only [or_and_right, exists_or]
  apply Option.ext
  intro facts
  rw [facts?_eq_some_iff, facts?_eq_some_iff]
  have hNames {p : Option String → Prop} :
      (∃ c, (c ∈ u.namesakes n ∨ c ∈ u.referred n) ∧ p c.entityName?) ↔
        ∃ b, (b ∈ a.namesakes m ∨ b ∈ a.referred m) ∧ p b.entityName? := by
    constructor
    · rintro ⟨c, hc, hName⟩
      obtain ⟨hMem, b, hb, hSame⟩ := hImage.1 hc
      exact ⟨b, hb, h.entityName?_eq hu (hSources hb) hMem hSame ▸ hName⟩
    · rintro ⟨b, hb, hName⟩
      obtain ⟨c, hc, hSame, _⟩ := h.node b (hSources hb)
      exact ⟨c, hImage.2 ⟨hc, b, hb, hSame⟩,
        (h.entityName?_eq hu (hSources hb) hc hSame).symm ▸ hName⟩
  refine and_congr ?_ (forall_congr' fun name => ?_)
  · have hMissing := not_congr (hNames (p := fun name? => ¬ ∃ name, name? = some name))
    push Not at hMissing
    exact hMissing
  · rw [hNames (p := fun name? => name? = some name)]

end Nodes

end Embeds

end ChangeSplit.Graph
