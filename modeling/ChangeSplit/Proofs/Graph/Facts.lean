import ChangeSplit.Graph.Facts
import ChangeSplit.Proofs.Collection.Traversal
import ChangeSplit.Proofs.Graph.Built

/-! When the facts of a node can be told. Only a name without a revision in front can keep them
from it. -/

namespace ChangeSplit

theorem Revision.colon_not_mem_name (r : Revision) : ¬ ':' ∈ r.name.toList := by
  cases r <;> decide

/-- A name with a revision in front gives the name back. -/
theorem Node.entityName?_of_scope {n : Node} {r : Revision} {name : String}
    (h : n.name = r.scope name) : n.entityName? = some name := by
  have hList : n.name.toList = r.name.toList ++ ':' :: name.toList := by
    rw [h, Revision.scope, String.toList_append, String.toList_append, List.append_assoc]
    rfl
  have hSkip : ∀ c ∈ r.name.toList, decide (c ≠ ':') = true := by
    intro c hc
    have hNe : c ≠ ':' := by
      rintro rfl
      exact r.colon_not_mem_name hc
    simp [hNe]
  rw [entityName?, hList, List.dropWhile_append_of_pos hSkip]
  simp

namespace Graph

/-- All nodes of a graph have a revision in front of their names. -/
def Scoped (g : Graph) : Prop := ∀ n ∈ g.nodes, ∃ name, n.entityName? = some name

theorem mem_outEdges {g : Graph} {id : Nat} {e : Edge} :
    e ∈ g.outEdges id ↔ e ∈ g.edges ∧ e.source = id := by
  simp only [outEdges, List.mem_flatMap, List.mem_eraseDups, List.mem_map, List.mem_filter,
    decide_eq_true_eq]
  constructor
  · rintro ⟨_, _, he, _⟩
    exact he
  · intro he
    exact ⟨e.target, ⟨e, he, rfl⟩, he, rfl⟩

theorem mem_inEdges {g : Graph} {id : Nat} {e : Edge} :
    e ∈ g.inEdges id ↔ e ∈ g.edges ∧ e.target = id := by
  simp only [inEdges, List.mem_flatMap, List.mem_eraseDups, List.mem_map, List.mem_filter,
    decide_eq_true_eq]
  constructor
  · rintro ⟨_, _, he, _⟩
    exact he
  · intro he
    exact ⟨e.source, ⟨e, he, rfl⟩, he, rfl⟩

theorem mem_containers {g : Graph} {n c : Node} :
    c ∈ g.containers n ↔ n.kind = .hunk ∧
      ∃ e ∈ g.edges, e.kind = .contains ∧ e.target = n.id ∧ g.node? e.source = some c := by
  unfold containers
  split
  case isTrue hKind =>
    simp only [List.mem_filterMap, List.mem_filter, mem_inEdges, decide_eq_true_eq, hKind, true_and]
    constructor
    · rintro ⟨e, ⟨⟨he, hTarget⟩, hContains⟩, hNode⟩
      exact ⟨e, he, hContains, hTarget, hNode⟩
    · rintro ⟨e, he, hContains, hTarget, hNode⟩
      exact ⟨e, ⟨⟨he, hTarget⟩, hContains⟩, hNode⟩
  case isFalse hKind => simp [hKind]

/-- The nodes whose names a node stands for: itself, or its containers. -/
def namesakes (g : Graph) (n : Node) : List Node :=
  if (g.containers n).isEmpty then [n] else g.containers n

theorem ownNames?_eq (g : Graph) (n : Node) :
    g.ownNames? n = (g.namesakes n).mapM (·.entityName?) := by
  unfold ownNames? namesakes
  cases g.containers n with
  | nil => cases hName : n.entityName? <;> simp [hName]
  | cons => rfl

/-- The nodes that a node refers to. What it contains does not count. -/
def referred (g : Graph) (n : Node) : List Node :=
  ((g.outEdges n.id).filter (·.kind ≠ .contains)).filterMap fun e => g.node? e.target

theorem referredNames?_eq (g : Graph) (n : Node) :
    g.referredNames? n = (g.referred n).mapM (·.entityName?) := rfl

theorem mem_referred {g : Graph} {n c : Node} :
    c ∈ g.referred n ↔
      ∃ e ∈ g.edges, e.kind ≠ .contains ∧ e.source = n.id ∧ g.node? e.target = some c := by
  simp only [referred, List.mem_filterMap, List.mem_filter, mem_outEdges, decide_eq_true_eq]
  constructor
  · rintro ⟨e, ⟨⟨he, hSource⟩, hOther⟩, hNode⟩
    exact ⟨e, he, hOther, hSource, hNode⟩
  · rintro ⟨e, he, hOther, hSource, hNode⟩
    exact ⟨e, ⟨⟨he, hSource⟩, hOther⟩, hNode⟩

/-- Facts are the names of the nodes that a node stands for or refers to, all of which need a
name. -/
theorem facts?_eq_some_iff {g : Graph} {n : Node} {facts : OrderedSet String} :
    g.facts? n = some facts ↔
      (∀ c, c ∈ g.namesakes n ∨ c ∈ g.referred n → ∃ name, c.entityName? = some name) ∧
        ∀ name, name ∈ facts ↔
          ∃ c, (c ∈ g.namesakes n ∨ c ∈ g.referred n) ∧ c.entityName? = some name := by
  have hNames {l : List Node} {r : List String} (h : l.mapM (·.entityName?) = some r)
      (name : String) : name ∈ r ↔ ∃ c ∈ l, c.entityName? = some name := by
    have hMem : some name ∈ l.map (·.entityName?) ↔ some name ∈ r.map some := by
      rw [map_eq_of_mapM_some h]
    simpa using hMem.symm
  have hSome {l : List Node} {r : List String} (h : l.mapM (·.entityName?) = some r) :
      ∀ c ∈ l, ∃ name, c.entityName? = some name := by
    intro c hc
    have hMem : c.entityName? ∈ r.map some := by
      rw [← map_eq_of_mapM_some h]
      exact List.mem_map_of_mem hc
    obtain ⟨name, _, hName⟩ := List.mem_map.1 hMem
    exact ⟨name, hName.symm⟩
  rw [facts?, ownNames?_eq, referredNames?_eq]
  constructor
  · intro h
    split at h
    case h_1 own referred hOwn hReferred =>
      cases h
      refine ⟨fun c hc => hc.elim (hSome hOwn c) (hSome hReferred c), fun name => ?_⟩
      rw [OrderedSet.mem_ofList, List.mem_append, hNames hOwn, hNames hReferred]
      simp only [or_and_right, exists_or]
    case h_2 => cases h
  · rintro ⟨hAll, hFacts⟩
    obtain ⟨own, hOwn⟩ := exists_mapM_some fun c hc => hAll c (.inl hc)
    obtain ⟨referred, hReferred⟩ := exists_mapM_some fun c hc => hAll c (.inr hc)
    rw [hOwn, hReferred]
    refine congrArg some (OrderedSet.ext fun name => ?_)
    rw [hFacts, OrderedSet.mem_ofList, List.mem_append, hNames hOwn, hNames hReferred]
    simp only [or_and_right, exists_or]

theorem mem_of_mem_containers {g : Graph} {n c : Node} (h : c ∈ g.containers n) : c ∈ g.nodes := by
  unfold containers at h
  split at h
  case isTrue =>
    obtain ⟨e, _, hNode⟩ := List.mem_filterMap.1 h
    exact (mem_of_node? hNode).1
  case isFalse => cases h

theorem mem_of_mem_namesakes {g : Graph} {n c : Node} (hn : n ∈ g.nodes)
    (h : c ∈ g.namesakes n) : c ∈ g.nodes := by
  unfold namesakes at h
  split at h
  case isTrue => exact List.mem_singleton.1 h ▸ hn
  case isFalse => exact mem_of_mem_containers h

theorem mem_of_mem_referred {g : Graph} {n c : Node} (h : c ∈ g.referred n) : c ∈ g.nodes := by
  obtain ⟨_, _, _, _, hNode⟩ := mem_referred.1 h
  exact (mem_of_node? hNode).1

theorem Scoped.exists_facts? {g : Graph} (h : g.Scoped) {n : Node} (hn : n ∈ g.nodes) :
    ∃ facts, g.facts? n = some facts := by
  obtain ⟨own, hOwn⟩ := exists_mapM_some fun c hc => h c (mem_of_mem_namesakes hn hc)
  obtain ⟨referred, hReferred⟩ := exists_mapM_some fun c hc => h c (mem_of_mem_referred hc)
  exact ⟨.ofList (own ++ referred), by
    rw [facts?, ownNames?_eq, hOwn, referredNames?_eq, hReferred]⟩

end Graph

end ChangeSplit
