import ChangeSplit.Proofs.ChangeGraph.Reference
import ChangeSplit.Proofs.ChangeGraph.Wiring
import Mathlib.Data.List.Find

/-! The part of a graph that belongs to one revision, with its nodes and edges numbered anew. Nodes
of the revision are found in it as they are found in the whole graph, and what is done to them
there can be done to them in the part. What is done to nodes of the other revision leaves no trace
in it. -/

namespace ChangeSplit

/-- The node under another number. -/
def Node.renumber (f : Nat → Nat) (n : Node) : Node := { n with id := f n.id }

/-- The edge between nodes with other numbers. -/
def ChangeGraph.Link.renumber (f : Nat → Nat) (l : Link) : Link :=
  { l with source := f l.source, target := f l.target }

namespace Graph

/-- The numbers of the nodes of a revision, in order. -/
def numbers (g : Graph) (r : Revision) : List Nat :=
  (g.nodes.filter (·.revision = r)).map (·.id)

/-- The number of a node among those of its revision. -/
def rank (g : Graph) (r : Revision) (id : Nat) : Nat := (g.numbers r).idxOf id + 1

/-- The part of a graph that belongs to a revision. An edge belongs to the revision of the node that
it leaves. -/
def part (g : Graph) (r : Revision) : Graph where
  nodes := (g.nodes.filter (·.revision = r)).map (·.renumber (g.rank r))
  edges := ((g.edges.filter (·.source ∈ g.numbers r)).map (·.link.renumber (g.rank r))).mapIdx
    fun i l => ⟨i, l.kind, l.source, l.target⟩

variable {g g' : Graph} {r : Revision} {id : Nat} {n : Node} {label : NodeLabel}

theorem mem_numbers : id ∈ g.numbers r ↔ ∃ n ∈ g.nodes, n.revision = r ∧ n.id = id := by
  simp [numbers, and_assoc]

theorem id_mem_numbers (hn : n ∈ g.nodes) : n.id ∈ g.numbers n.revision :=
  mem_numbers.2 ⟨n, hn, rfl, rfl⟩

@[simp] theorem numbers_mark (g : Graph) (id : Nat) (hunk : String) (r : Revision) :
    (g.mark id hunk).numbers r = g.numbers r := by
  rw [numbers, numbers, mark]
  induction g.nodes with
  | nil => rfl
  | cons n rest ih =>
      by_cases hId : n.id = id <;> by_cases hr : n.revision = r <;> simp_all [Node.mark]

theorem numbers_addNode (h : g.addNode label = .ok (g', n)) (r : Revision) :
    g'.numbers r = g.numbers r ++ if label.revision = r then [n.id] else [] := by
  obtain ⟨_, rfl, rfl⟩ := addNode_eq_ok h
  by_cases hr : label.revision = r <;> simp [numbers, List.filter_append, hr]

theorem mem_numbers_addNode (h : g.addNode label = .ok (g', n)) (hId : id ∈ g.numbers r) :
    id ∈ g'.numbers r := by
  rw [numbers_addNode h]
  exact List.mem_append_left _ hId

theorem rank_mark (g : Graph) (id : Nat) (hunk : String) (r : Revision) :
    (g.mark id hunk).rank r = g.rank r := by
  funext i
  simp [rank]

theorem rank_addNode (h : g.addNode label = .ok (g', n)) (hId : id ∈ g.numbers r) :
    g'.rank r id = g.rank r id := by
  rw [rank, numbers_addNode h, List.idxOf_append_of_mem hId, rank]

/-- The number of a new node is new. -/
theorem Built.id_notMem_numbers (h : g.Built) (hAdd : g.addNode label = .ok (g', n)) :
    n.id ∉ g.numbers r := by
  obtain ⟨_, rfl, rfl⟩ := addNode_eq_ok hAdd
  intro hOld
  obtain ⟨m, hm, _, hId⟩ := mem_numbers.1 hOld
  have hRange := List.mem_map_of_mem (f := fun n : Node => n.id) hm
  rw [h.ids, List.mem_range'_1] at hRange
  dsimp only at hRange hId
  omega

/-- A number belongs to one revision only. -/
theorem Built.eq_of_mem_numbers (h : g.Built) {r' : Revision} (hId : id ∈ g.numbers r)
    (hId' : id ∈ g.numbers r') : r = r' := by
  obtain ⟨n, hn, rfl, rfl⟩ := mem_numbers.1 hId
  obtain ⟨m, hm, rfl, hSame⟩ := mem_numbers.1 hId'
  rw [List.inj_on_of_nodup_map h.nodup_ids hm hn hSame]

theorem revision_of_mem_part (hn : n ∈ (g.part r).nodes) : n.revision = r := by
  obtain ⟨m, hm, rfl⟩ := List.mem_map.1 hn
  show m.revision = r
  simpa using (List.mem_filter.1 hm).2

theorem length_numbers (g : Graph) (r : Revision) :
    (g.numbers r).length = (g.part r).nodes.length := by
  simp [numbers, part]

theorem rank_inj (hId : id ∈ g.numbers r) (other : Nat) :
    g.rank r id = g.rank r other ↔ id = other := by
  rw [rank, rank, Nat.add_right_cancel_iff, List.idxOf_inj hId]

/-- A new node of the revision comes last in its part. -/
theorem Built.rank_new (h : g.Built) (hAdd : g.addNode label = .ok (g', n))
    (hr : label.revision = r) : g'.rank r n.id = (g.part r).nodes.length + 1 := by
  rw [rank, numbers_addNode hAdd, if_pos hr, List.idxOf_append_of_notMem (h.id_notMem_numbers hAdd),
    length_numbers]
  simp

section Lookup

/-- Whether names of nodes tell their revision. -/
def TellsRevision (g : Graph) : Prop := ∀ n ∈ g.nodes, ∃ name, n.name = n.revision.scope name

theorem TellsRevision.revision_eq (h : g.TellsRevision) (hn : n ∈ g.nodes) {name : String}
    (hName : n.name = r.scope name) : n.revision = r := by
  obtain ⟨own, hOwn⟩ := h n hn
  exact (Revision.scope_inj (hOwn.symm.trans hName)).1

theorem TellsRevision.revision_of_find? (h : g.TellsRevision) {kind : NodeKind} {name : String}
    (hFound : g.find? kind (r.scope name) = some n) : n.revision = r := by
  have hTest := List.find?_some hFound
  simp only [Bool.and_eq_true, decide_eq_true_eq] at hTest
  exact h.revision_eq (List.mem_of_find?_eq_some hFound) hTest.2

/-- A search for nodes of the revision goes the same way in its part. -/
theorem find?_part {test test' : Node → Bool}
    (hTest : ∀ n ∈ g.nodes, test n = true → n.revision = r)
    (hSame : ∀ n ∈ g.nodes, n.revision = r → test' (n.renumber (g.rank r)) = test n) :
    (g.part r).nodes.find? test' = (g.nodes.find? test).map (·.renumber (g.rank r)) := by
  rw [part, List.find?_map, List.find?_filter]
  congr 1
  apply List.find?_congr
  intro n hn
  by_cases hr : n.revision = r
  · simpa [hr] using hSame n hn hr
  · cases hCase : test n with
    | false => simp [hr]
    | true => exact absurd (hTest n hn hCase) hr

theorem TellsRevision.find?_scope (h : g.TellsRevision) (kind : NodeKind) (name : String) :
    (g.part r).find? kind (r.scope name) =
      (g.find? kind (r.scope name)).map (·.renumber (g.rank r)) := by
  apply find?_part
  · intro n hn hTest
    simp only [Bool.and_eq_true, decide_eq_true_eq] at hTest
    exact h.revision_eq hn hTest.2
  · intro n _ _
    rfl

theorem findIdentifier?_part (g : Graph) (kind : NodeKind) (identifier : String) (r : Revision) :
    (g.part r).findIdentifier? kind identifier r =
      (g.findIdentifier? kind identifier r).map (·.renumber (g.rank r)) := by
  apply find?_part
  · intro n _ hTest
    simp only [Bool.and_eq_true, decide_eq_true_eq] at hTest
    exact hTest.1.2
  · intro n _ _
    rfl

theorem Built.node?_part (h : g.Built) (hId : id ∈ g.numbers r) :
    (g.part r).node? (g.rank r id) = (g.node? id).map (·.renumber (g.rank r)) := by
  apply find?_part
  · intro n hn hTest
    have hSame : n.id = id := by simpa using hTest
    exact h.eq_of_mem_numbers (hSame ▸ id_mem_numbers hn) hId
  · intro n hn hr
    have hOwn : n.id ∈ g.numbers r := hr ▸ id_mem_numbers hn
    simp [Node.renumber, rank_inj hOwn]

end Lookup

section Step

theorem part_mark (g : Graph) (id : Nat) (hunk : String) (r : Revision) :
    (g.mark id hunk).part r = (g.part r).mark (g.rank r id) hunk := by
  have hFilter : (g.mark id hunk).nodes.filter (·.revision = r) =
      (g.nodes.filter (·.revision = r)).map fun n => if n.id = id then n.mark hunk else n := by
    rw [mark, List.filter_map]
    congr 2
    funext n
    by_cases hCase : n.id = id <;> simp [hCase, Node.mark]
  unfold part
  rw [numbers_mark, rank_mark, hFilter]
  unfold mark
  dsimp only
  rw [List.map_map, List.map_map]
  congr 1
  apply List.map_congr_left
  intro n hn
  obtain ⟨hn, hr⟩ := List.mem_filter.1 hn
  have hOwn : n.id ∈ g.numbers r := mem_numbers.2 ⟨n, hn, by simpa using hr, rfl⟩
  by_cases hCase : n.id = id <;> simp [Node.renumber, Node.mark, rank_inj hOwn, hCase]

theorem part_mark_of_notMem (hId : id ∉ g.numbers r) (hunk : String) :
    (g.mark id hunk).part r = g.part r := by
  have hFilter : (g.mark id hunk).nodes.filter (·.revision = r) =
      g.nodes.filter (·.revision = r) := by
    have hMap : (g.nodes.filter (·.revision = r)).map
        (fun n => if n.id = id then n.mark hunk else n) = g.nodes.filter (·.revision = r) := by
      rw [List.map_congr_left (g := fun n => n), List.map_id']
      intro n hn
      have hNe : n.id ≠ id := by
        intro hSame
        apply hId
        rw [← hSame]
        exact List.mem_map_of_mem hn
      rw [if_neg hNe]
    rw [mark, List.filter_map]
    refine Eq.trans ?_ hMap
    congr 2
    funext n
    by_cases hCase : n.id = id <;> simp [hCase, Node.mark]
  unfold part
  rw [numbers_mark, rank_mark, hFilter, mark]

/-- Whether every edge joins two nodes of one revision. -/
def JoinsWithin (g : Graph) : Prop :=
  ∀ e ∈ g.edges, ∃ r, e.source ∈ g.numbers r ∧ e.target ∈ g.numbers r

theorem JoinsWithin.target_mem (h : g.JoinsWithin) (hBuilt : g.Built) {e : Edge} (he : e ∈ g.edges)
    (hSource : e.source ∈ g.numbers r) : e.target ∈ g.numbers r := by
  obtain ⟨r', hSource', hTarget⟩ := h e he
  rwa [hBuilt.eq_of_mem_numbers hSource hSource']

theorem edges_part_addNode (hBuilt : g.Built) (hJoins : g.JoinsWithin)
    (hAdd : g.addNode label = .ok (g', n)) : (g'.part r).edges = (g.part r).edges := by
  have hEdges : g'.edges = g.edges := by
    obtain ⟨_, rfl, rfl⟩ := addNode_eq_ok hAdd
    rfl
  have hFilter : g.edges.filter (·.source ∈ g'.numbers r) =
      g.edges.filter (·.source ∈ g.numbers r) := by
    apply List.filter_congr
    intro e he
    obtain ⟨r', hSource, _⟩ := hJoins e he
    have hNe : e.source ≠ n.id := by
      intro hSame
      rw [hSame] at hSource
      exact hBuilt.id_notMem_numbers hAdd hSource
    rw [numbers_addNode hAdd]
    split <;> simp [hNe]
  unfold part
  dsimp only
  rw [hEdges, hFilter]
  congr 1
  apply List.map_congr_left
  intro e he
  obtain ⟨he, hSource⟩ := List.mem_filter.1 he
  have hSource : e.source ∈ g.numbers r := by simpa using hSource
  have hTarget : e.target ∈ g.numbers r := hJoins.target_mem hBuilt he hSource
  simp [ChangeGraph.Link.renumber, Edge.link, rank_addNode hAdd, hSource, hTarget]

theorem nodes_part_addNode (hAdd : g.addNode label = .ok (g', n)) :
    (g'.part r).nodes =
      (g.part r).nodes ++ if label.revision = r then [n.renumber (g'.rank r)] else [] := by
  have hOld : (g.nodes.filter (·.revision = r)).map (·.renumber (g'.rank r)) =
      (g.part r).nodes := by
    apply List.map_congr_left
    intro m hm
    simp [Node.renumber, rank_addNode hAdd (List.mem_map_of_mem hm)]
  have hNodes : g'.nodes = g.nodes ++ [n] ∧ n.revision = label.revision := by
    obtain ⟨_, rfl, rfl⟩ := addNode_eq_ok hAdd
    exact ⟨rfl, rfl⟩
  rw [part, hNodes.1, List.filter_append, List.map_append, hOld]
  by_cases hr : label.revision = r <;> simp [hNodes.2, hr]

/-- A node of the other revision leaves the part as it is. -/
theorem part_addNode_of_ne (hBuilt : g.Built) (hJoins : g.JoinsWithin)
    (hAdd : g.addNode label = .ok (g', n)) (hr : label.revision ≠ r) : g'.part r = g.part r := by
  have hNodes : (g'.part r).nodes = (g.part r).nodes := by
    rw [nodes_part_addNode hAdd, if_neg hr, List.append_nil]
  show Graph.mk (g'.part r).nodes (g'.part r).edges = g.part r
  rw [hNodes, edges_part_addNode hBuilt hJoins hAdd]

/-- A node of the revision can be added to the part, too. -/
theorem part_addNode (hBuilt : g.Built) (hTells : g.TellsRevision) (hJoins : g.JoinsWithin)
    {name : String} (hName : label.name = r.scope name) (hr : label.revision = r)
    (hAdd : g.addNode label = .ok (g', n)) :
    (g.part r).addNode label = .ok (g'.part r, n.renumber (g'.rank r)) := by
  have hFresh : (g.part r).find? label.kind label.name = none := by
    rw [hName, hTells.find?_scope, ← hName, (addNode_eq_ok hAdd).1]
    rfl
  have hNode : n.renumber (g'.rank r) =
      { toNodeLabel := label, id := (g.part r).nodes.length + 1 } := by
    rw [Node.renumber, hBuilt.rank_new hAdd hr]
    obtain ⟨_, rfl, _⟩ := addNode_eq_ok hAdd
    rfl
  have hNodes : (g'.part r).nodes = (g.part r).nodes ++ [n.renumber (g'.rank r)] := by
    rw [nodes_part_addNode hAdd, if_pos hr]
  have hPart : g'.part r = ⟨(g.part r).nodes ++ [n.renumber (g'.rank r)], (g.part r).edges⟩ := by
    rw [← hNodes, ← edges_part_addNode hBuilt hJoins hAdd]
  rw [addNode, hFresh, hPart, hNode]

theorem part_addNode_error (hTells : g.TellsRevision) {name : String}
    (hName : label.name = r.scope name) {d : DuplicateNode} (hAdd : g.addNode label = .error d) :
    (g.part r).addNode label = .error d := by
  unfold addNode at hAdd ⊢
  rw [hName, hTells.find?_scope, ← hName]
  cases hFound : g.find? label.kind label.name with
  | none =>
      rw [hFound] at hAdd
      cases hAdd
  | some m =>
      rw [hFound] at hAdd
      exact hAdd

theorem part_addEdge {source target : Nat} (hSource : source ∈ g.numbers r) (kind : EdgeKind) :
    (g.addEdge source target kind).part r =
      (g.part r).addEdge (g.rank r source) (g.rank r target) kind := by
  have hNumbers : (g.addEdge source target kind).numbers r = g.numbers r := rfl
  have hRank : (g.addEdge source target kind).rank r = g.rank r := rfl
  unfold part
  rw [hNumbers, hRank]
  simp [addEdge, List.filter_append, hSource, Edge.link, ChangeGraph.Link.renumber]

theorem part_addEdge_of_notMem {source : Nat} (hSource : source ∉ g.numbers r) (target : Nat)
    (kind : EdgeKind) : (g.addEdge source target kind).part r = g.part r := by
  have hNumbers : (g.addEdge source target kind).numbers r = g.numbers r := rfl
  have hRank : (g.addEdge source target kind).rank r = g.rank r := rfl
  unfold part
  rw [hNumbers, hRank]
  simp [addEdge, List.filter_append, hSource]

end Step

section Union

/-- Whether every edge joins nodes of the graph. -/
def Closed (g : Graph) : Prop :=
  ∀ e ∈ g.edges, (∃ n ∈ g.nodes, n.id = e.source) ∧ ∃ n ∈ g.nodes, n.id = e.target

/-- Whether a graph is made up of the nodes and edges of two others, which are numbered anew so that
no two nodes share a number. -/
def IsUnion (g a b : Graph) : Prop :=
  a.Closed ∧ b.Closed ∧ (g.nodes.map (·.id)).Nodup ∧ ∃ f k : Nat → Nat,
    g.nodes.Perm (a.nodes.map (·.renumber f) ++ b.nodes.map (·.renumber k)) ∧
    (g.edges.map Edge.link).Perm
      (a.edges.map (·.link.renumber f) ++ b.edges.map (·.link.renumber k))

/-- The number that has a given rank among those of a revision. -/
def unrank (g : Graph) (r : Revision) (rank : Nat) : Nat := (g.numbers r).getD (rank - 1) 0

theorem unrank_rank (hId : id ∈ g.numbers r) : g.unrank r (g.rank r id) = id := by
  have hLt := List.idxOf_lt_length_iff.2 hId
  simp [unrank, rank, hLt]

theorem map_link_part (g : Graph) (r : Revision) :
    (g.part r).edges.map Edge.link =
      (g.edges.filter (·.source ∈ g.numbers r)).map (·.link.renumber (g.rank r)) := by
  apply List.ext_getElem (by simp [part])
  intro i hi hi'
  simp [part, Edge.link]

theorem nodes_of_part (g : Graph) (r : Revision) :
    (g.part r).nodes.map (·.renumber (g.unrank r)) = g.nodes.filter (·.revision = r) := by
  rw [part, List.map_map]
  refine Eq.trans (List.map_congr_left fun n hn => ?_) (List.map_id' _)
  simp [Node.renumber, unrank_rank (List.mem_map_of_mem hn)]

theorem JoinsWithin.edges_of_part (h : g.JoinsWithin) (hBuilt : g.Built) (r : Revision) :
    (g.part r).edges.map (·.link.renumber (g.unrank r)) =
      (g.edges.filter (·.source ∈ g.numbers r)).map Edge.link := by
  have hLinks : (g.part r).edges.map (·.link.renumber (g.unrank r)) =
      ((g.part r).edges.map Edge.link).map (·.renumber (g.unrank r)) := by
    rw [List.map_map]
    rfl
  rw [hLinks, map_link_part, List.map_map]
  apply List.map_congr_left
  intro e he
  obtain ⟨he, hSource⟩ := List.mem_filter.1 he
  have hSource : e.source ∈ g.numbers r := by simpa using hSource
  have hTarget : e.target ∈ g.numbers r := h.target_mem hBuilt he hSource
  simp [ChangeGraph.Link.renumber, Edge.link, unrank_rank hSource, unrank_rank hTarget]

theorem JoinsWithin.closed_part (h : g.JoinsWithin) (hBuilt : g.Built) (r : Revision) :
    (g.part r).Closed := by
  have hNode {id : Nat} (hId : id ∈ g.numbers r) : ∃ n ∈ (g.part r).nodes, n.id = g.rank r id := by
    obtain ⟨n, hn, hr, rfl⟩ := mem_numbers.1 hId
    exact ⟨_, List.mem_map_of_mem (List.mem_filter.2 ⟨hn, by simpa using hr⟩), rfl⟩
  intro e he
  have hLink : e.link ∈ (g.part r).edges.map Edge.link := List.mem_map_of_mem he
  rw [map_link_part] at hLink
  obtain ⟨d, hd, hSame⟩ := List.mem_map.1 hLink
  obtain ⟨hd, hSource⟩ := List.mem_filter.1 hd
  have hSource : d.source ∈ g.numbers r := by simpa using hSource
  have hEnds : e.source = g.rank r d.source ∧ e.target = g.rank r d.target := by
    exact ⟨congrArg ChangeGraph.Link.source hSame.symm, congrArg ChangeGraph.Link.target hSame.symm⟩
  rw [hEnds.1, hEnds.2]
  exact ⟨hNode hSource, hNode (h.target_mem hBuilt hd hSource)⟩

/-- A graph without edges between the revisions is made up of its parts. -/
theorem JoinsWithin.isUnion_parts (h : g.JoinsWithin) (hBuilt : g.Built) :
    g.IsUnion (g.part .base) (g.part .current) := by
  refine ⟨h.closed_part hBuilt _, h.closed_part hBuilt _, hBuilt.nodup_ids, g.unrank .base,
    g.unrank .current, ?_, ?_⟩
  · rw [nodes_of_part, nodes_of_part]
    have hOther : g.nodes.filter (·.revision = .current) =
        g.nodes.filter (fun n => !decide (n.revision = .base)) := by
      apply List.filter_congr
      intro n _
      cases n.revision <;> rfl
    rw [hOther]
    exact (List.filter_append_perm _ _).symm
  · rw [h.edges_of_part hBuilt, h.edges_of_part hBuilt, ← List.map_append]
    have hOther : g.edges.filter (·.source ∈ g.numbers .current) =
        g.edges.filter (fun e => !decide (e.source ∈ g.numbers .base)) := by
      apply List.filter_congr
      intro e he
      obtain ⟨r, hSource, _⟩ := h e he
      have hOne {r' : Revision} (hMem : e.source ∈ g.numbers r') : r' = r :=
        hBuilt.eq_of_mem_numbers hMem hSource
      cases r with
      | base =>
          have hNot : e.source ∉ g.numbers .current := fun hMem => nomatch hOne hMem
          simp [hSource, hNot]
      | current =>
          have hNot : e.source ∉ g.numbers .base := fun hMem => nomatch hOne hMem
          simp [hSource, hNot]
    rw [hOther]
    exact (List.filter_append_perm _ _).symm.map _

end Union

end Graph

end ChangeSplit
