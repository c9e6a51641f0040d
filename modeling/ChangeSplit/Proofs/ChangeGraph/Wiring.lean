import ChangeSplit.ChangeGraph.Wiring
import ChangeSplit.Proofs.Collection.Sorting
import ChangeSplit.Proofs.Collection.Table
import ChangeSplit.Proofs.Graph.Built

/-! Drawing edges adds them in order behind those that are there, and leaves nodes alone. The edges
follow from calls, from uses of fields, from names of types, and from imports. -/

namespace ChangeSplit

/-- An edge without its number. -/
def Edge.link (e : Edge) : ChangeGraph.Link := ⟨e.source, e.target, e.kind⟩

/-- Whether an edge of a kind leads to a type because its name is written. -/
def EdgeKind.isNaming : EdgeKind → Bool
  | returns | takes | initializes | refers => true
  | contains | calls | accesses => false

namespace ChangeGraph

theorem nodes_foldl_addEdge (links : List Link) (g : Graph) :
    (links.foldl (fun h l => h.addEdge l.source l.target l.kind) g).nodes = g.nodes := by
  induction links generalizing g with
  | nil => rfl
  | cons l rest ih => rw [List.foldl_cons, ih, Graph.addEdge]

theorem built_foldl_addEdge (links : List Link) {g : Graph} (h : g.Built) :
    (links.foldl (fun h l => h.addEdge l.source l.target l.kind) g).Built :=
  List.foldlRecOn links _ h fun _ hg l _ => .addEdge l.source l.target l.kind hg

theorem map_link_foldl_addEdge (links : List Link) (g : Graph) :
    (links.foldl (fun h l => h.addEdge l.source l.target l.kind) g).edges.map Edge.link =
      g.edges.map Edge.link ++ links := by
  induction links generalizing g with
  | nil => simp
  | cons l rest ih =>
      rw [List.foldl_cons, ih, Graph.addEdge, List.map_append, List.append_assoc]
      rfl

@[simp] theorem wire_nodes (g : ChangeGraph) : g.wire.graph.nodes = g.graph.nodes :=
  nodes_foldl_addEdge g.links g.graph

theorem built_wire {g : ChangeGraph} (h : g.graph.Built) : g.wire.graph.Built :=
  built_foldl_addEdge g.links h

/-- The edges of a wired graph are the old ones and the links. -/
theorem map_link_wire (g : ChangeGraph) :
    g.wire.graph.edges.map Edge.link = g.graph.edges.map Edge.link ++ g.links :=
  map_link_foldl_addEdge g.links g.graph

section Links

variable {g : ChangeGraph} {source : Nat} {u : Usage} {f : Facts} {l : Link}

theorem kind_of_mem_typeLinks {types : OrderedSet String} {kind : EdgeKind}
    (h : l ∈ g.typeLinks source u types kind) : l.kind = kind := by
  obtain ⟨name, _, hLink⟩ := List.mem_filterMap.1 h
  obtain ⟨n, _, rfl⟩ := Option.map_eq_some_iff.1 hLink
  rfl

theorem mem_callLinks : l ∈ g.callLinks source u f ↔ l.source = source ∧ l.kind = .calls ∧
    ∃ c ∈ f.calls, ∃ m ∈ g.callTargets u c, m.node = some l.target := by
  unfold callLinks
  rw [List.mem_flatMap]
  constructor
  · rintro ⟨c, hCall, hLink⟩
    obtain ⟨m, hm, hLink⟩ := List.mem_filterMap.1 hLink
    obtain ⟨target, hNode, rfl⟩ := Option.map_eq_some_iff.1 hLink
    exact ⟨rfl, rfl, c, mem_sortBy.1 hCall, m, hm, hNode⟩
  · rintro ⟨rfl, hKind, c, hCall, m, hm, hNode⟩
    refine ⟨c, mem_sortBy.2 hCall, List.mem_filterMap.2 ⟨m, hm, ?_⟩⟩
    rw [hNode, ← hKind]
    rfl

theorem mem_fieldLinks (h : l ∈ g.fieldLinks source u f) : l.source = source ∧
    l.kind = .accesses ∧ ∃ mention ∈ f.fieldUses, ∃ e, g.usedField? u mention = some e ∧
      e.node = some l.target := by
  obtain ⟨mention, hUse, hLink⟩ := List.mem_filterMap.1 h
  obtain ⟨target, hTarget, rfl⟩ := Option.map_eq_some_iff.1 hLink
  obtain ⟨e, hField, hNode⟩ := Option.bind_eq_some_iff.1 hTarget
  exact ⟨rfl, rfl, mention, hUse, e, hField, hNode⟩

/-- The edges of an entity follow from its calls, from the fields that it uses, from the types that
it names, or from what it imports. -/
theorem entityLinks_cases {e : PooledEntity} (h : l ∈ g.entityLinks e) :
    ∃ source, e.node = some source ∧ (l ∈ g.callLinks source e.entity.usage e.entity.facts ∨
      l ∈ g.fieldLinks source e.entity.usage e.entity.facts ∨
      (∃ types kind, l ∈ g.typeLinks source e.entity.usage types kind ∧ kind.isNaming = true) ∨
      ∃ kind n, g.graph.find? kind (e.entity.usage.revision.scope e.entity.name) = some n ∧
        l = ⟨source, n.id, .refers⟩) := by
  unfold entityLinks at h
  split at h
  case h_1 => cases h
  case h_2 source hNode =>
    refine ⟨source, hNode, ?_⟩
    dsimp only at h
    split at h
    case h_1 =>
      simp only [List.mem_append] at h
      rcases h with ((((h | h) | h) | h) | h) | h
      · exact .inl h
      · exact .inr (.inl h)
      all_goals exact .inr (.inr (.inl ⟨_, _, h, rfl⟩))
    case h_2 =>
      simp only [List.mem_append] at h
      rcases h with ((h | h) | h) | h
      · exact .inr (.inr (.inl ⟨_, _, h, rfl⟩))
      · exact .inl h
      · exact .inr (.inl h)
      · exact .inr (.inr (.inl ⟨_, _, h, rfl⟩))
    case h_3 => exact .inr (.inr (.inl ⟨_, _, h, rfl⟩))
    case h_4 => exact .inr (.inr (.inl ⟨_, _, h, rfl⟩))
    case h_5 =>
      obtain ⟨kind, _, hLink⟩ := List.mem_filterMap.1 h
      obtain ⟨n, hFound, rfl⟩ := Option.map_eq_some_iff.1 hLink
      exact .inr (.inr (.inr ⟨kind, n, hFound, rfl⟩))

/-- Only a hunk on a node of its own has edges. -/
theorem hunkLinks_cases {hunk : PooledHunk} (h : l ∈ g.hunkLinks hunk) :
    ∃ n, hunk.node = some n.id ∧ g.graph.node? n.id = some n ∧ n.kind = .hunk ∧
      (l ∈ g.callLinks n.id hunk.usage hunk.facts ∨ l ∈ g.fieldLinks n.id hunk.usage hunk.facts ∨
        l ∈ g.typeLinks n.id hunk.usage hunk.facts.typeUses .initializes) := by
  unfold hunkLinks at h
  split at h
  case h_1 => cases h
  case h_2 n hNode =>
    split at h
    case isFalse => cases h
    case isTrue hOwn =>
      obtain ⟨id, hId, hFound⟩ := Option.bind_eq_some_iff.1 hNode
      obtain ⟨_, rfl⟩ := Graph.mem_of_node? hFound
      refine ⟨n, hId, hFound, hOwn, ?_⟩
      rw [← or_assoc, ← List.mem_append, ← List.mem_append]
      exact h

theorem mem_of_mem_ofKind {kind : NodeKind} {e : PooledEntity}
    (h : e ∈ (g.pool.ofKind kind).values) : e ∈ g.pool.entities := by
  obtain ⟨t, ht, rfl⟩ := (Table.mem_values_foldl_put h).resolve_left List.not_mem_nil
  exact (List.mem_filter.1 ht).1

theorem mem_of_mem_hunkTable {hunk : PooledHunk} (h : hunk ∈ g.pool.hunkTable.values) :
    hunk ∈ g.pool.hunks := by
  obtain ⟨t, ht, rfl⟩ := (Table.mem_values_foldl_put h).resolve_left List.not_mem_nil
  exact ht

theorem links_cases (h : l ∈ g.links) :
    (∃ e ∈ g.pool.entities, l ∈ g.entityLinks e) ∨ ∃ hunk ∈ g.pool.hunks, l ∈ g.hunkLinks hunk := by
  rcases List.mem_append.1 h with h | h
  · obtain ⟨kind, _, hEntities⟩ := List.mem_flatMap.1 h
    obtain ⟨e, he, hLink⟩ := List.mem_flatMap.1 hEntities
    exact .inl ⟨e, mem_of_mem_ofKind he, hLink⟩
  · obtain ⟨hunk, hHunk, hLink⟩ := List.mem_flatMap.1 h
    exact .inr ⟨hunk, mem_of_mem_hunkTable hHunk, hLink⟩

/-- Nothing comes to contain a node by what it refers to. -/
theorem kind_ne_contains_of_mem_links (h : l ∈ g.links) : l.kind ≠ .contains := by
  have hCalls {source : Nat} {u : Usage} {f : Facts} (h : l ∈ g.callLinks source u f) :
      l.kind ≠ .contains := by
    rw [(mem_callLinks.1 h).2.1]
    decide
  have hFields {source : Nat} {u : Usage} {f : Facts} (h : l ∈ g.fieldLinks source u f) :
      l.kind ≠ .contains := by
    rw [(mem_fieldLinks h).2.1]
    decide
  rcases links_cases h with ⟨e, _, hLink⟩ | ⟨hunk, _, hLink⟩
  · obtain ⟨_, _, h | h | ⟨types, kind, h, hNaming⟩ | ⟨_, _, _, rfl⟩⟩ := entityLinks_cases hLink
    · exact hCalls h
    · exact hFields h
    · rw [kind_of_mem_typeLinks h]
      rintro rfl
      cases hNaming
    · exact nofun
  · obtain ⟨_, _, _, _, h | h | h⟩ := hunkLinks_cases hLink
    · exact hCalls h
    · exact hFields h
    · rw [kind_of_mem_typeLinks h]
      decide

end Links

end ChangeGraph

end ChangeSplit
