import ChangeSplit.Graph.Basic
import ChangeSplit.Proofs.Collection.OrderedSet
import Mathlib.Data.List.Nodup

/-! Graphs as they come to be: by adding nodes, by adding edges, and by marking.
Numbers and marks of nodes are in order in every such graph. -/

namespace ChangeSplit.Graph

/-- The only thing that adding a node can do, if it is not refused. -/
theorem addNode_eq_ok {g g' : Graph} {label : NodeLabel} {n : Node}
    (h : g.addNode label = .ok (g', n)) :
    g.find? label.kind label.name = none ∧ n = { toNodeLabel := label, id := g.nodes.length + 1 } ∧
      g' = { g with nodes := g.nodes ++ [n] } := by
  unfold addNode at h
  split at h
  case h_1 => cases h
  case h_2 hFresh =>
    cases h
    exact ⟨hFresh, rfl, rfl⟩

theorem mem_addNode {g g' : Graph} {label : NodeLabel} {n : Node}
    (h : g.addNode label = .ok (g', n)) : n ∈ g'.nodes ∧ n.toNodeLabel = label := by
  obtain ⟨_, rfl, rfl⟩ := addNode_eq_ok h
  exact ⟨List.mem_append_right _ (List.mem_singleton.2 rfl), rfl⟩

/-- A node whose name is new is not refused. -/
theorem addNode_of_find?_eq_none {g : Graph} {label : NodeLabel}
    (hFresh : g.find? label.kind label.name = none) :
    g.addNode label = .ok (
      ⟨g.nodes ++ [{ toNodeLabel := label, id := g.nodes.length + 1 }], g.edges⟩,
      { toNodeLabel := label, id := g.nodes.length + 1 }) := by
  rw [addNode, hFresh]

theorem exists_node_of_addNode_error {g : Graph} {label : NodeLabel} {d : DuplicateNode}
    (h : g.addNode label = .error d) :
    ∃ n ∈ g.nodes, n.kind = label.kind ∧ n.name = label.name := by
  unfold addNode at h
  split at h
  case h_1 n hFound =>
    have hTest := List.find?_some hFound
    simp only [Bool.and_eq_true, decide_eq_true_eq] at hTest
    exact ⟨n, List.mem_of_find?_eq_some hFound, hTest⟩
  case h_2 => cases h

/-- A graph that was built step by step. Nodes that are refused leave no trace. Nothing is asked of
the ends of an edge. -/
inductive Built : Graph → Prop where
  | empty : Built {}
  | addNode {g g' : Graph} {label : NodeLabel} {n : Node} (prior : Built g)
      (hAdd : g.addNode label = .ok (g', n)) : Built g'
  | addEdge {g : Graph} (source target : Nat) (kind : EdgeKind) (prior : Built g) :
      Built (g.addEdge source target kind)
  | mark {g : Graph} (id : Nat) (hunk : String) (prior : Built g) : Built (g.mark id hunk)

/-- A node whose name is new can be added. -/
theorem Built.append {g : Graph} (h : Built g) (label : NodeLabel)
    (hFresh : g.find? label.kind label.name = none) :
    Built ⟨g.nodes ++ [{ toNodeLabel := label, id := g.nodes.length + 1 }], g.edges⟩ :=
  h.addNode (addNode_of_find?_eq_none hFresh)

/-- The nodes of a marked graph are those from before, some of them with one more mark. -/
theorem mem_mark_nodes {g : Graph} {id : Nat} {hunk : String} {n : Node}
    (h : n ∈ (g.mark id hunk).nodes) :
    ∃ m ∈ g.nodes, n = m ∧ m.id ≠ id ∨ n = m.mark hunk ∧ m.id = id := by
  obtain ⟨m, hm, hEq⟩ := List.mem_map.1 h
  by_cases hId : m.id = id
  · rw [if_pos hId] at hEq
    exact ⟨m, hm, .inr ⟨hEq.symm, hId⟩⟩
  · rw [if_neg hId] at hEq
    exact ⟨m, hm, .inl ⟨hEq.symm, hId⟩⟩

/-- A mark changes neither what a node is nor its number. -/
theorem same_of_mem_mark {g : Graph} {id : Nat} {hunk : String} {n : Node}
    (h : n ∈ (g.mark id hunk).nodes) :
    ∃ m ∈ g.nodes, n.toNodeLabel = m.toNodeLabel ∧ n.id = m.id ∧
      ∀ name ∈ n.marks, name = hunk ∨ name ∈ m.marks := by
  obtain ⟨m, hm, ⟨rfl, _⟩ | ⟨rfl, _⟩⟩ := mem_mark_nodes h
  · exact ⟨n, hm, rfl, rfl, fun name hName => .inr hName⟩
  · exact ⟨m, hm, rfl, rfl, fun name hName => OrderedSet.mem_insert.1 hName⟩

/-- Every node is still there after a mark. -/
theorem exists_mem_mark {g : Graph} {n : Node} (h : n ∈ g.nodes) (id : Nat) (hunk : String) :
    ∃ m ∈ (g.mark id hunk).nodes, m.toNodeLabel = n.toNodeLabel ∧ m.id = n.id := by
  refine ⟨_, List.mem_map_of_mem h, ?_⟩
  split
  case isTrue => exact ⟨rfl, rfl⟩
  case isFalse => exact ⟨rfl, rfl⟩

@[simp] theorem map_id_mark (g : Graph) (id : Nat) (hunk : String) :
    (g.mark id hunk).nodes.map (·.id) = g.nodes.map (·.id) := by
  rw [mark, List.map_map]
  apply List.map_congr_left
  intro n _
  by_cases h : n.id = id <;> simp [h, Node.mark]

/-- Nodes are numbered from one, in the order in which they came. -/
theorem Built.ids {g : Graph} (h : g.Built) :
    g.nodes.map (·.id) = List.range' 1 g.nodes.length := by
  induction h with
  | empty => rfl
  | addNode prior hAdd ih =>
      obtain ⟨_, rfl, rfl⟩ := addNode_eq_ok hAdd
      simp [ih, List.range'_concat, Nat.add_comm]
  | addEdge source target kind prior ih => exact ih
  | mark id hunk prior ih =>
      rw [map_id_mark, ih]
      simp [Graph.mark]

theorem Built.nodup_ids {g : Graph} (h : g.Built) : (g.nodes.map (·.id)).Nodup := by
  rw [h.ids]
  exact List.nodup_range'

/-- Edges are numbered from zero, in the order in which they came. -/
theorem Built.edge_ids {g : Graph} (h : g.Built) :
    g.edges.map (·.id) = List.range g.edges.length := by
  induction h with
  | empty => rfl
  | addNode prior hAdd ih =>
      obtain ⟨_, rfl, rfl⟩ := addNode_eq_ok hAdd
      exact ih
  | addEdge source target kind prior ih => simp [Graph.addEdge, ih, List.range_succ]
  | mark id hunk prior ih => exact ih

theorem Built.nodup_edge_ids {g : Graph} (h : g.Built) : (g.edges.map (·.id)).Nodup := by
  rw [h.edge_ids]
  exact List.nodup_range

theorem Built.eq_of_id {g : Graph} (h : g.Built) {m n : Node} (hm : m ∈ g.nodes)
    (hn : n ∈ g.nodes) (hId : m.id = n.id) : m = n :=
  List.inj_on_of_nodup_map h.nodup_ids hm hn hId

theorem mem_of_node? {g : Graph} {id : Nat} {n : Node} (h : g.node? id = some n) :
    n ∈ g.nodes ∧ n.id = id :=
  ⟨List.mem_of_find?_eq_some h, by simpa using List.find?_some h⟩

/-- A node is found under its number. -/
theorem Built.node?_id {g : Graph} (h : g.Built) {n : Node} (hn : n ∈ g.nodes) :
    g.node? n.id = some n := by
  cases hFound : g.node? n.id with
  | none => simpa using List.find?_eq_none.1 hFound n hn
  | some m =>
      obtain ⟨hm, hSame⟩ := mem_of_node? hFound
      rw [List.inj_on_of_nodup_map h.nodup_ids hm hn hSame]

/-- The mark that came last is among the marks of a node, so a touched node has marks. -/
theorem Built.lastMark_mem {g : Graph} (h : g.Built) {n : Node} (hn : n ∈ g.nodes) {hunk : String}
    (hLast : n.lastMark = some hunk) : hunk ∈ n.marks := by
  induction h generalizing n with
  | empty => cases hn
  | addNode prior hAdd ih =>
      obtain ⟨_, rfl, rfl⟩ := addNode_eq_ok hAdd
      rcases List.mem_append.1 hn with hn | hn
      · exact ih hn hLast
      · rw [List.mem_singleton.1 hn] at hLast
        cases hLast
  | addEdge source target kind prior ih => exact ih hn hLast
  | mark id hunk' prior ih =>
      obtain ⟨m, hm, ⟨rfl, _⟩ | ⟨rfl, _⟩⟩ := mem_mark_nodes hn
      · exact ih hm hLast
      · cases hLast
        exact OrderedSet.mem_insert.2 (.inl rfl)

/-- No two nodes of a kind have the same full name. -/
theorem Built.nodup_names {g : Graph} (h : g.Built) :
    (g.nodes.map fun n => (n.kind, n.name)).Nodup := by
  induction h with
  | empty => exact .nil
  | addNode prior hAdd ih =>
      obtain ⟨hFresh, rfl, rfl⟩ := addNode_eq_ok hAdd
      rw [List.map_append, List.nodup_append]
      refine ⟨ih, List.nodup_singleton _, ?_⟩
      intro name hName name' hName' hSame
      obtain ⟨m, hm, rfl⟩ := List.mem_map.1 hName
      rw [List.map_singleton, List.mem_singleton] at hName'
      have hFound := List.find?_eq_none.1 hFresh m hm
      obtain ⟨hKind, hFull⟩ := Prod.mk.inj (hSame.trans hName')
      simp [hKind, hFull] at hFound
  | addEdge source target kind prior ih => exact ih
  | @mark g id hunk prior ih =>
      have hNames : (g.mark id hunk).nodes.map (fun n => (n.kind, n.name)) =
          g.nodes.map fun n => (n.kind, n.name) := by
        rw [Graph.mark, List.map_map]
        apply List.map_congr_left
        intro n _
        by_cases hId : n.id = id <;> simp [hId, Node.mark]
      rwa [hNames]

theorem Built.eq_of_name {g : Graph} (h : g.Built) {m n : Node} (hm : m ∈ g.nodes)
    (hn : n ∈ g.nodes) (hKind : m.kind = n.kind) (hName : m.name = n.name) : m = n :=
  List.inj_on_of_nodup_map h.nodup_names hm hn (Prod.ext hKind hName)

/-- No two nodes are the same but for their numbers and marks. -/
theorem Built.nodup_labels {g : Graph} (h : g.Built) : (g.nodes.map (·.toNodeLabel)).Nodup := by
  apply List.Nodup.of_map fun label : NodeLabel => (label.kind, label.name)
  rw [List.map_map]
  exact h.nodup_names

/-- A node is touched just if it has marks. -/
theorem Built.isTouched_iff {g : Graph} (h : g.Built) {n : Node} (hn : n ∈ g.nodes) :
    n.isTouched = true ↔ ∃ name, name ∈ n.marks := by
  constructor
  · intro hTouched
    obtain ⟨name, hLast⟩ := Option.isSome_iff_exists.1 hTouched
    exact ⟨name, h.lastMark_mem hn hLast⟩
  · rintro ⟨name, hName⟩
    induction h generalizing n with
    | empty => cases hn
    | addNode prior hAdd ih =>
        obtain ⟨_, rfl, rfl⟩ := addNode_eq_ok hAdd
        rcases List.mem_append.1 hn with hn | hn
        · exact ih hn hName
        · rw [List.mem_singleton.1 hn] at hName
          cases hName
    | addEdge source target kind prior ih => exact ih hn hName
    | mark id hunk prior ih =>
        obtain ⟨m, hm, ⟨rfl, _⟩ | ⟨rfl, _⟩⟩ := mem_mark_nodes hn
        · exact ih hm hName
        · rfl

end ChangeSplit.Graph
