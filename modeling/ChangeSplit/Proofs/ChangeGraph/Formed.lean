import ChangeSplit.ChangeGraph.Basic
import ChangeSplit.Proofs.Collection.Traversal
import ChangeSplit.Proofs.Graph.Facts

/-! The graph of a change as it comes to be, one operation after another, before edges are drawn
for what entities and hunks refer to. What each operation preserves holds of every such graph,
whatever the sources are and in whichever order they are read. -/

namespace ChangeSplit

theorem Entity.kind_ne_hunk (e : Entity) : e.kind ≠ .hunk := by
  unfold Entity.kind
  split <;> simp

namespace ChangeGraph

/-- Whether there is a node for the type around an entity. Imports and outermost types need none. -/
def HasOwner (g : Graph) (e : Entity) : Prop :=
  e.kind = .field ∨ e.kind = .method → ∃ type, e.owner = some type ∧
    ∃ n ∈ g.nodes, n.kind.isType = true ∧ n.name = e.revision.scope type

/-- Whether a node is the one that an entity was taken in with. -/
structure Stands (n : Node) (e : PooledEntity) : Prop where
  node : e.node = some n.id
  label : n.toNodeLabel = labelOf e.entity

theorem Stands.kind {n : Node} {e : PooledEntity} (h : Stands n e) : n.kind = e.entity.kind := by
  rw [h.label]
  rfl

theorem Stands.name {n : Node} {e : PooledEntity} (h : Stands n e) : n.name = e.entity.key := by
  rw [h.label]
  rfl

/-- A graph of a change that was formed step by step. The entities in it are `declared`, types come
before their members, and the hunks that touch its nodes have one of the given names. -/
inductive Formed (names : List String) (declared : Entity → Prop) : ChangeGraph → Prop where
  | empty : Formed names declared {}
  | notes {g : ChangeGraph} (notes : List Note) (prior : Formed names declared g) :
      Formed names declared { g with notes }
  | entity {g : ChangeGraph} {e : Entity} {graph : Graph} {n : Node}
      (prior : Formed names declared g) (hDeclared : declared e) (hOwner : HasOwner g.graph e)
      (hAdd : g.graph.addNode (labelOf e) = .ok (graph, n)) :
      Formed names declared { g with graph, pool := g.pool.addEntity ⟨e, some n.id⟩ }
  | importOwner {g : ChangeGraph} (o : ImportOwner) (prior : Formed names declared g) :
      Formed names declared { g with pool := g.pool.addImportOwner o }
  | mark {g : ChangeGraph} (id : Nat) {hunk : String} (hName : hunk ∈ names)
      (prior : Formed names declared g) :
      Formed names declared { g with graph := g.graph.mark id hunk }
  | hunkNode {g : ChangeGraph} {h : PooledHunk} {label : NodeLabel} {graph : Graph} {n : Node}
      (prior : Formed names declared g) (hKind : label.kind = .hunk) (hKey : label.name = h.key)
      (hAdd : g.graph.addNode label = .ok (graph, n)) : Formed names declared { g with graph }
  | contain {g : ChangeGraph} (source target : Nat) (prior : Formed names declared g) :
      Formed names declared { g with graph := g.graph.addEdge source target .contains }
  | hunk {g : ChangeGraph} (h : PooledHunk) (prior : Formed names declared g) :
      Formed names declared { g with pool := g.pool.addHunk h }

namespace Formed

variable {names : List String} {declared : Entity → Prop} {g : ChangeGraph}

theorem built (h : Formed names declared g) : g.graph.Built := by
  induction h with
  | empty => exact .empty
  | notes _ prior ih => exact ih
  | entity prior hDeclared hOwner hAdd ih => exact .addNode ih hAdd
  | importOwner o prior ih => exact ih
  | mark id hName prior ih => exact .mark id _ ih
  | hunkNode prior hKind hKey hAdd ih => exact .addNode ih hAdd
  | contain source target prior ih => exact .addEdge source target .contains ih
  | hunk h prior ih => exact ih

/-- Names of nodes have a revision in front. -/
theorem exists_scope (h : Formed names declared g) {n : Node} (hn : n ∈ g.graph.nodes) :
    ∃ (r : Revision) (name : String), n.name = r.scope name := by
  induction h generalizing n with
  | empty => cases hn
  | notes _ prior ih => exact ih hn
  | entity prior hDeclared hOwner hAdd ih =>
      obtain ⟨_, rfl, rfl⟩ := Graph.addNode_eq_ok hAdd
      rcases List.mem_append.1 hn with hn | hn
      · exact ih hn
      · rw [List.mem_singleton.1 hn]
        exact ⟨_, _, rfl⟩
  | importOwner o prior ih => exact ih hn
  | mark id hName prior ih =>
      obtain ⟨m, hm, hLabel, _⟩ := Graph.same_of_mem_mark hn
      rw [hLabel]
      exact ih hm
  | hunkNode prior hKind hKey hAdd ih =>
      obtain ⟨_, rfl, rfl⟩ := Graph.addNode_eq_ok hAdd
      rcases List.mem_append.1 hn with hn | hn
      · exact ih hn
      · rw [List.mem_singleton.1 hn]
        exact ⟨_, _, hKey⟩
  | contain source target prior ih => exact ih hn
  | hunk h prior ih => exact ih hn

theorem scoped_graph (h : Formed names declared g) : g.graph.Scoped := by
  intro n hn
  obtain ⟨r, name, hName⟩ := h.exists_scope hn
  exact ⟨name, Node.entityName?_of_scope hName⟩

/-- Only the hunks that are placed leave marks. -/
theorem mem_of_mem_marks (h : Formed names declared g) {n : Node} (hn : n ∈ g.graph.nodes)
    {hunk : String} (hMark : hunk ∈ n.marks) : hunk ∈ names := by
  induction h generalizing n with
  | empty => cases hn
  | notes _ prior ih => exact ih hn hMark
  | entity prior hDeclared hOwner hAdd ih =>
      obtain ⟨_, rfl, rfl⟩ := Graph.addNode_eq_ok hAdd
      rcases List.mem_append.1 hn with hn | hn
      · exact ih hn hMark
      · rw [List.mem_singleton.1 hn] at hMark
        exact absurd hMark (OrderedSet.not_mem_empty hunk)
  | importOwner o prior ih => exact ih hn hMark
  | mark id hName prior ih =>
      obtain ⟨m, hm, _, _, hMarks⟩ := Graph.same_of_mem_mark hn
      rcases hMarks hunk hMark with rfl | hOld
      · exact hName
      · exact ih hm hOld
  | hunkNode prior hKind hKey hAdd ih =>
      obtain ⟨_, rfl, rfl⟩ := Graph.addNode_eq_ok hAdd
      rcases List.mem_append.1 hn with hn | hn
      · exact ih hn hMark
      · rw [List.mem_singleton.1 hn] at hMark
        exact absurd hMark (OrderedSet.not_mem_empty hunk)
  | contain source target prior ih => exact ih hn hMark
  | hunk h prior ih => exact ih hn hMark

/-- So far, edges only tell what contains what. -/
theorem kind_of_mem_edges (h : Formed names declared g) {e : Edge} (he : e ∈ g.graph.edges) :
    e.kind = .contains := by
  induction h with
  | empty => cases he
  | notes _ prior ih => exact ih he
  | entity prior hDeclared hOwner hAdd ih =>
      obtain ⟨_, rfl, rfl⟩ := Graph.addNode_eq_ok hAdd
      exact ih he
  | importOwner o prior ih => exact ih he
  | mark id hName prior ih => exact ih he
  | hunkNode prior hKind hKey hAdd ih =>
      obtain ⟨_, rfl, rfl⟩ := Graph.addNode_eq_ok hAdd
      exact ih he
  | contain source target prior ih =>
      rcases List.mem_append.1 he with he | he
      · exact ih he
      · rw [List.mem_singleton.1 he]
  | hunk h prior ih => exact ih he

theorem declared_of_mem (h : Formed names declared g) {e : PooledEntity}
    (he : e ∈ g.pool.entities) : declared e.entity := by
  induction h with
  | empty => cases he
  | entity prior hDeclared hOwner hAdd ih =>
      rcases List.mem_append.1 he with he | he
      · exact ih he
      · rw [List.mem_singleton.1 he]
        exact hDeclared
  | notes _ prior ih | importOwner _ prior ih | mark _ _ prior ih | hunkNode prior _ _ _ ih
  | contain _ _ prior ih | hunk _ prior ih => exact ih he

/-- Entities and the nodes that they were taken in with stand in the same order. -/
theorem stands (h : Formed names declared g) :
    List.Forall₂ Stands (g.graph.nodes.filter (·.kind ≠ .hunk)) g.pool.entities := by
  induction h with
  | empty => exact .nil
  | @entity g e graph n prior hDeclared hOwner hAdd ih =>
      obtain ⟨_, hNode, rfl⟩ := Graph.addNode_eq_ok hAdd
      have hKind : n.kind ≠ .hunk := by
        rw [hNode]
        exact e.kind_ne_hunk
      have hFilter : (g.graph.nodes ++ [n]).filter (·.kind ≠ .hunk) =
          g.graph.nodes.filter (·.kind ≠ .hunk) ++ [n] := by
        simp [List.filter_append, hKind]
      rw [hFilter]
      exact List.rel_append ih (.cons ⟨rfl, by rw [hNode]⟩ .nil)
  | @mark g id hunk hName prior ih =>
      have hKind : (fun n : Node => decide (n.kind ≠ .hunk)) ∘
          (fun n => if n.id = id then n.mark hunk else n) = fun n => decide (n.kind ≠ .hunk) := by
        funext n
        by_cases hId : n.id = id <;> simp [hId, Node.mark]
      rw [Graph.mark, List.filter_map, hKind]
      refine List.forall₂_map_left_iff.2 (ih.imp fun n e hStands => ?_)
      split
      case isTrue => exact ⟨hStands.node, hStands.label⟩
      case isFalse => exact hStands
  | @hunkNode g h label graph n prior hKind hKey hAdd ih =>
      obtain ⟨_, rfl, rfl⟩ := Graph.addNode_eq_ok hAdd
      simpa [List.filter_append, hKind] using ih
  | notes _ prior ih | importOwner _ prior ih | contain _ _ prior ih | hunk _ prior ih => exact ih

/-- Every entity that was taken in is declared and has its own node. -/
theorem exists_node (h : Formed names declared g) {e : PooledEntity} (he : e ∈ g.pool.entities) :
    declared e.entity ∧ ∃ n ∈ g.graph.nodes, e.node = some n.id ∧
      n.toNodeLabel = labelOf e.entity := by
  obtain ⟨n, hn, hStands⟩ := exists_left_of_forall₂ h.stands he
  exact ⟨h.declared_of_mem he, n, (List.mem_filter.1 hn).1, hStands.node, hStands.label⟩

/-- Every node that is not a hunk's own stands for an entity that was taken in. -/
theorem exists_entity (h : Formed names declared g) {n : Node} (hn : n ∈ g.graph.nodes)
    (hKind : n.kind ≠ .hunk) :
    ∃ e ∈ g.pool.entities, e.node = some n.id ∧ n.toNodeLabel = labelOf e.entity := by
  obtain ⟨e, he, hStands⟩ := exists_right_of_forall₂ h.stands
    (List.mem_filter.2 ⟨hn, decide_eq_true hKind⟩)
  exact ⟨e, he, hStands.node, hStands.label⟩

/-- Entities are told apart by their kinds and keys. -/
theorem nodup_keys (h : Formed names declared g) :
    (g.pool.entities.map fun e => (e.entity.kind, e.entity.key)).Nodup := by
  have hNames : g.pool.entities.map (fun e => (e.entity.kind, e.entity.key)) =
      (g.graph.nodes.filter (·.kind ≠ .hunk)).map fun n => (n.kind, n.name) :=
    map_eq_of_forall₂ h.stands fun _ _ hStands => by rw [hStands.kind, hStands.name]
  rw [hNames]
  exact h.built.nodup_names.sublist (List.filter_sublist.map _)

theorem eq_of_key (h : Formed names declared g) {e e' : PooledEntity} (he : e ∈ g.pool.entities)
    (he' : e' ∈ g.pool.entities) (hKind : e.entity.kind = e'.entity.kind)
    (hKey : e.entity.key = e'.entity.key) : e = e' :=
  List.inj_on_of_nodup_map h.nodup_keys he he' (Prod.ext hKind hKey)

end Formed

end ChangeGraph

end ChangeSplit
