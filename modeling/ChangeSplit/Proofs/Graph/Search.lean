import ChangeSplit.Proofs.Graph.Embedding

/-! What the search for distances tells of a graph that was drawn node by node and edge by edge. It
lists every node that a walk within the limit leads to, once, with the length of a shortest walk.
The search stops by itself after as many layers as there are nodes, but no shortest walk is longer
than that, so without a limit it misses nothing. -/

namespace ChangeSplit.Graph

/-- A graph that was drawn by adding nodes, by adding edges between nodes that it had already, and
by marking. Any number of edges may join two nodes, and an edge may lead back to where it
starts. -/
inductive Drawn : Graph → Prop where
  | empty : Drawn {}
  | addNode {g g' : Graph} {label : NodeLabel} {n : Node} (prior : Drawn g)
      (hAdd : g.addNode label = .ok (g', n)) : Drawn g'
  | addEdge {g : Graph} {m n : Node} (prior : Drawn g) (hm : m ∈ g.nodes) (hn : n ∈ g.nodes)
      (kind : EdgeKind) : Drawn (g.addEdge m.id n.id kind)
  | mark {g : Graph} (id : Nat) (hunk : String) (prior : Drawn g) : Drawn (g.mark id hunk)

/-- A node whose name is new can be added. -/
theorem Drawn.append {g : Graph} (h : Drawn g) (label : NodeLabel)
    (hFresh : g.find? label.kind label.name = none) :
    Drawn ⟨g.nodes ++ [{ toNodeLabel := label, id := g.nodes.length + 1 }], g.edges⟩ :=
  h.addNode (addNode_of_find?_eq_none hFresh)

theorem Drawn.built {g : Graph} (h : g.Drawn) : g.Built := by
  induction h with
  | empty => exact .empty
  | addNode prior hAdd ih => exact .addNode ih hAdd
  | addEdge prior hm hn kind ih => exact .addEdge _ _ kind ih
  | mark id hunk prior ih => exact .mark id hunk ih

theorem Closed.grow {g g' : Graph} (h : g.Closed) (hNodes : ∀ id, g.Has id → g'.Has id)
    (hEdges : ∀ e ∈ g'.edges, e ∈ g.edges ∨ g'.Has e.source ∧ g'.Has e.target) : g'.Closed := by
  intro e he
  rcases hEdges e he with hOld | hNew
  · exact ⟨hNodes _ (h e hOld).1, hNodes _ (h e hOld).2⟩
  · exact hNew

/-- The ends of every edge are nodes, since they were when it was added and nodes never go. -/
theorem Drawn.closed {g : Graph} (h : g.Drawn) : g.Closed := by
  induction h with
  | empty => exact fun e he => absurd he List.not_mem_nil
  | addNode prior hAdd ih =>
      obtain ⟨_, rfl, rfl⟩ := addNode_eq_ok hAdd
      refine ih.grow ?_ fun e he => .inl he
      rintro _ ⟨n, hn, rfl⟩
      exact has_id (List.mem_append_left _ hn)
  | addEdge prior hm hn kind ih =>
      refine ih.grow (fun _ hHas => hHas) ?_
      intro e he
      rcases List.mem_append.1 he with hOld | hNew
      · exact .inl hOld
      · rw [List.mem_singleton.1 hNew]
        exact .inr ⟨has_id hm, has_id hn⟩
  | mark id hunk prior ih =>
      refine ih.grow ?_ fun e he => .inl he
      rintro _ ⟨n, hn, rfl⟩
      obtain ⟨m, hm, _, hId⟩ := exists_mem_mark hn id hunk
      exact ⟨m, hm, hId⟩

/-- From a layer on, the search lists no node twice: those of a layer are at its depth, and those
that follow are further away. -/
theorem nodup_layers {g : Graph} {a reach depth : Nat} {seen layer : List Nat}
    (hSeen : ∀ x, x ∈ seen ↔ ∃ d ≤ depth, g.Apart a d x)
    (hLayer : ∀ x, x ∈ layer ↔ g.Apart a depth x) (hNodup : layer.Nodup) :
    ((g.layers reach depth seen layer).map Prod.fst).Nodup := by
  have hFirsts (layer : List Nat) (depth : Nat) :
      (layer.map (·, depth)).map Prod.fst = layer := by
    simp [Function.comp_def]
  induction reach generalizing depth seen layer with
  | zero => rwa [layers, hFirsts]
  | succ reach ih =>
      cases hEmpty : layer.isEmpty with
      | true =>
          rw [layers, hEmpty]
          exact List.nodup_nil
      | false =>
          have hSeen' : ∀ x, x ∈ seen ++ g.nextLayer seen layer ↔
              ∃ d ≤ depth + 1, g.Apart a d x :=
            fun x => mem_append_nextLayer hSeen hLayer
          have hLayer' : ∀ x, x ∈ g.nextLayer seen layer ↔ g.Apart a (depth + 1) x :=
            fun x => mem_nextLayer hSeen hLayer
          rw [layers_succ g reach depth seen hEmpty, List.map_append, hFirsts, List.nodup_append]
          refine ⟨hNodup, ih hSeen' hLayer' (nodup_eraseDups _), ?_⟩
          rintro x hx _ hLater rfl
          obtain ⟨⟨_, _⟩, hPair, rfl⟩ := List.mem_map.1 hLater
          obtain ⟨d, hFound⟩ := Option.ne_none_iff_exists'.1 fun hNone =>
            absurd rfl (bne_iff_ne.1 (List.lookup_eq_none_iff.1 hNone _ hPair))
          obtain ⟨hLow, _, hApart⟩ := (lookup_layers hSeen' hLayer' _ d).1 hFound
          have hSame := ((hLayer _).1 hx).unique hApart
          omega

theorem nodup_distancesFrom (g : Graph) (a : Nat) (limit : Option Int) :
    ((g.distancesFrom a limit).map Prod.fst).Nodup :=
  nodup_layers (mem_start_iff_exists g a) (mem_start_iff g a) (List.nodup_singleton a)

theorem mem_distancesFrom {g : Graph} {a b d : Nat} {limit : Option Int} :
    (b, d) ∈ g.distancesFrom a limit ↔ d ≤ g.reachOf limit ∧ g.Apart a d b := by
  rw [← lookup_eq_some_iff_mem (nodup_distancesFrom g a limit), lookup_distancesFrom]

/-- Whether a limit allows so many edges. -/
def Allows (limit : Option Nat) (n : Nat) : Prop := ∀ l ∈ limit, n ≤ l

/-- The reach of a search is cut off at the number of nodes, which no shortest walk comes up to. -/
theorem Closed.le_reachOf_iff {g : Graph} (h : g.Closed) {a b d : Nat} (ha : g.Has a)
    (hApart : g.Apart a d b) (limit : Option Nat) :
    d ≤ g.reachOf (limit.map Int.ofNat) ↔ Allows limit d := by
  have hShort := h.lt_of_apart ha hApart
  cases limit with
  | none => simp [reachOf, Allows, hShort.le]
  | some l => simp [reachOf, Allows, hShort.le]

/-- The distances from a node up to a limit, as a list: the nodes that a walk within the limit leads
to, each of them once and with the length of a shortest walk. -/
structure Surveys (g : Graph) (a : Nat) (limit : Option Nat) (found : List (Nat × Nat)) : Prop where
  once : (found.map Prod.fst).Nodup
  nodes : ∀ b ∈ found.map Prod.fst, g.Has b
  reached : ∀ b, b ∈ found.map Prod.fst ↔ ∃ n, g.Walk a n b ∧ Allows limit n
  least : ∀ b d, (b, d) ∈ found → g.Apart a d b

theorem Closed.surveys_distancesFrom {g : Graph} (h : g.Closed) {a : Nat} (ha : g.Has a)
    (limit : Option Nat) : g.Surveys a limit (g.distancesFrom a (limit.map Int.ofNat)) where
  once := nodup_distancesFrom g a _
  nodes := by
    intro b hb
    obtain ⟨⟨_, d⟩, hPair, rfl⟩ := List.mem_map.1 hb
    exact h.has_of_walk ha (mem_distancesFrom.1 hPair).2.1
  reached := by
    intro b
    constructor
    · intro hb
      obtain ⟨⟨_, d⟩, hPair, rfl⟩ := List.mem_map.1 hb
      obtain ⟨hReach, hApart⟩ := mem_distancesFrom.1 hPair
      exact ⟨d, hApart.1, (h.le_reachOf_iff ha hApart limit).1 hReach⟩
    · rintro ⟨n, hWalk, hAllowed⟩
      obtain ⟨d, hd, hApart⟩ := hWalk.exists_apart
      have hReach : Allows limit d := fun l hl => hd.trans (hAllowed l hl)
      exact List.mem_map.2 ⟨(b, d),
        mem_distancesFrom.2 ⟨(h.le_reachOf_iff ha hApart limit).2 hReach, hApart⟩, rfl⟩
  least := fun b d hPair => (mem_distancesFrom.1 hPair).2

/-- Only the node itself is at no distance by its edges. -/
theorem eq_of_distance?_eq_zero {g : Graph} {a b : Nat} {limit : Option Int}
    (h : g.distance? a b limit = some 0) : b = a :=
  apart_zero_iff.1 ((lookup_distancesFrom g a b 0 limit).1 h).2

end ChangeSplit.Graph

namespace ChangeSplit

/-- Only the node itself belongs as closely together with a node as it does. -/
theorem structuralTier?_eq_zero_iff {a b : Node} :
    structuralTier? a b = some 0 ↔ a.id = b.id := by
  constructor
  · intro h
    unfold structuralTier? at h
    split at h
    case isTrue hSame => exact hSame
    case isFalse => split at h <;> [cases h; split at h <;> [cases h; split at h <;> cases h]]
  · intro h
    rw [structuralTier?, if_pos h]

namespace Graph

theorem nodeDistance?_eq_zero_iff {g : Graph} {a b : Node} {limit : Option Int} :
    g.nodeDistance? a b limit = some 0 ↔ a.id = b.id := by
  rw [nodeDistance?, nearer_eq_some_iff]
  constructor
  · rintro ⟨hTier | hEdges, _, _⟩
    · exact structuralTier?_eq_zero_iff.1 hTier
    · exact (eq_of_distance?_eq_zero hEdges).symm
  · intro hSame
    exact ⟨.inl (structuralTier?_eq_zero_iff.2 hSame), fun e _ => Nat.zero_le e,
      fun e _ => Nat.zero_le e⟩

/-- From every node of a graph that was drawn step by step, and whatever the limit, the search
lists the nodes that a walk within the limit leads to, with the lengths of shortest walks. So
distances are the same from both ends, and only a node itself is at distance zero. -/
theorem Drawn.distances_shortest {g : Graph} (h : g.Drawn) {a : Node} (ha : a ∈ g.nodes)
    (limit : Option Nat) :
    g.Surveys a.id limit (g.distancesFrom a.id (limit.map Int.ofNat)) ∧
      ∀ b ∈ g.nodes,
        g.distance? a.id b.id (limit.map Int.ofNat) =
            g.distance? b.id a.id (limit.map Int.ofNat) ∧
          g.nodeDistance? a b (limit.map Int.ofNat) = g.nodeDistance? b a (limit.map Int.ofNat) ∧
          (g.nodeDistance? a b (limit.map Int.ofNat) = some 0 ↔ a = b) := by
  refine ⟨h.closed.surveys_distancesFrom (has_id ha) limit, ?_⟩
  intro b hb
  refine ⟨lookup_distancesFrom_comm g a.id b.id _, nodeDistance?_comm g a b _, ?_⟩
  rw [nodeDistance?_eq_zero_iff]
  exact ⟨h.built.eq_of_id ha hb, fun hSame => congrArg Node.id hSame⟩

/-- What a class in a package of its own is. -/
def loneClass (name : String) : NodeLabel := {
  kind := .classType, identifier := name, name := "current:" ++ name, revision := .current }

/-- Three classes. The second calls itself and is called twice by the first and once by the third.
A fourth class is joined to none of them. -/
def loopedGraph : Graph :=
  let nodes : List Node := [⟨loneClass "A", 1, none, ∅⟩, ⟨loneClass "B", 2, none, ∅⟩,
    ⟨loneClass "C", 3, none, ∅⟩, ⟨loneClass "D", 4, none, ∅⟩]
  ((((⟨nodes, []⟩ : Graph).addEdge 1 2 .calls).addEdge 1 2 .calls).addEdge 2 2 .calls).addEdge
    3 2 .calls

theorem drawn_loopedGraph : loopedGraph.Drawn := by
  have hFour : Drawn ⟨loopedGraph.nodes, []⟩ :=
    (((Drawn.empty.append (loneClass "A") rfl).append (loneClass "B") rfl).append
      (loneClass "C") rfl).append (loneClass "D") rfl
  have hA : (⟨loneClass "A", 1, none, ∅⟩ : Node) ∈ loopedGraph.nodes := by
    simp [loopedGraph, Graph.addEdge]
  have hB : (⟨loneClass "B", 2, none, ∅⟩ : Node) ∈ loopedGraph.nodes := by
    simp [loopedGraph, Graph.addEdge]
  have hC : (⟨loneClass "C", 3, none, ∅⟩ : Node) ∈ loopedGraph.nodes := by
    simp [loopedGraph, Graph.addEdge]
  exact (((hFour.addEdge hA hB .calls).addEdge hA hB .calls).addEdge hB hB .calls).addEdge hC hB
    .calls

/-- The third class is two edges away from the first, against the direction of the second edge, so
a search for one edge does not find it. -/
theorem distances_shortest_loopedGraph :
    loopedGraph.distancesFrom 1 (some 1) = [(1, 0), (2, 1)] ∧
      loopedGraph.distancesFrom 1 none = [(1, 0), (2, 1), (3, 2)] ∧
      ∃ a ∈ loopedGraph.nodes, a.id = 1 ∧ ∀ limit : Option Nat,
        loopedGraph.Surveys a.id limit
            (loopedGraph.distancesFrom a.id (limit.map Int.ofNat)) ∧
          ∀ b ∈ loopedGraph.nodes,
            loopedGraph.distance? a.id b.id (limit.map Int.ofNat) =
                loopedGraph.distance? b.id a.id (limit.map Int.ofNat) ∧
              loopedGraph.nodeDistance? a b (limit.map Int.ofNat) =
                  loopedGraph.nodeDistance? b a (limit.map Int.ofNat) ∧
              (loopedGraph.nodeDistance? a b (limit.map Int.ofNat) = some 0 ↔ a = b) := by
  have hA : (⟨loneClass "A", 1, none, ∅⟩ : Node) ∈ loopedGraph.nodes := by
    simp [loopedGraph, Graph.addEdge]
  exact ⟨by decide +kernel, by decide +kernel, _, hA, rfl,
    fun limit => drawn_loopedGraph.distances_shortest hA limit⟩

end Graph

end ChangeSplit
