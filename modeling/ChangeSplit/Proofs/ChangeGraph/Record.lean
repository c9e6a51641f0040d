import ChangeSplit.Proofs.ChangeGraph.Build
import ChangeSplit.Proofs.Collection.Table
import ChangeSplit.Proofs.Java.Naming

/-! What is known of the entities of a change, in tables by key and in lists by other features.
An entity is taken in together with a new node, so the entities of a kind and the nodes of the kind
go in step, and no table drops one entity for another with the same key. -/

namespace ChangeSplit

namespace Pool

/-- Whether the entities of a pool can be told apart by their kinds and keys. -/
def Keyed (p : Pool) : Prop := (p.entities.map fun e => (e.entity.kind, e.entity.key)).Nodup

namespace Keyed

variable {p : Pool}

theorem nodup_keys (h : p.Keyed) (kind : NodeKind) :
    ((p.entities.filter (·.entity.kind = kind)).map (·.entity.key)).Nodup := by
  have hPairs : ((p.entities.filter (·.entity.kind = kind)).map
      fun e => (e.entity.kind, e.entity.key)).Nodup := h.sublist (List.filter_sublist.map _)
  have hSame : (p.entities.filter (·.entity.kind = kind)).map
      (fun e => (e.entity.kind, e.entity.key)) =
        ((p.entities.filter (·.entity.kind = kind)).map (·.entity.key)).map (kind, ·) := by
    rw [List.map_map]
    apply List.map_congr_left
    intro e he
    rw [of_decide_eq_true (List.mem_filter.1 he).2]
    rfl
  rw [hSame] at hPairs
  exact hPairs.of_map

/-- The table of a kind has its entities in the order in which they came. -/
theorem entries_ofKind (h : p.Keyed) (kind : NodeKind) :
    (p.ofKind kind).entries =
      (p.entities.filter (·.entity.kind = kind)).map fun e => (e.entity.key, e) :=
  Table.entries_foldl_put _ (h.nodup_keys kind)

theorem values_ofKind (h : p.Keyed) (kind : NodeKind) :
    (p.ofKind kind).values = p.entities.filter (·.entity.kind = kind) := by
  rw [Table.values, h.entries_ofKind, List.map_map]
  exact List.map_id _

theorem nodup_entities (h : p.Keyed) : p.entities.Nodup := List.Nodup.of_map _ h

/-- The imports of a file are listed once each. -/
theorem mem_fileImports (h : p.Keyed) (r : Revision) (fileIndex : Int) :
    (p.fileImports r fileIndex).Nodup ∧ ∀ e, e ∈ p.fileImports r fileIndex ↔
      e ∈ (p.ofKind .imported).values ∧ e.entity.revision = r ∧
        e.entity.fileIndex = fileIndex := by
  refine ⟨h.nodup_entities.filter _, fun e => ?_⟩
  rw [h.values_ofKind, fileImports, List.mem_filter, List.mem_filter]
  simp only [Bool.and_eq_true, decide_eq_true_eq, and_assoc]

/-- The methods of a type with a name and a number of parameters are listed once each. None is
passed over if each method belongs to a type that has a name. -/
theorem mem_methodsNamed (h : p.Keyed)
    (hOwner : ∀ e ∈ p.entities, e.entity.kind = .method → e.entity.owner ≠ some "") (r : Revision)
    (owner name : String) (arity : Nat) :
    (p.methodsNamed r owner name arity).Nodup ∧ ∀ e, e ∈ p.methodsNamed r owner name arity ↔
      e ∈ (p.ofKind .method).values ∧ e.entity.revision = r ∧ e.entity.owner = some owner ∧
        e.entity.name = name ∧ arityOf e.entity = arity := by
  rw [h.values_ofKind, methodsNamed]
  split
  case isTrue hNone =>
    subst hNone
    refine ⟨.nil, fun e => iff_of_false List.not_mem_nil ?_⟩
    rintro ⟨he, _, hEmpty, _⟩
    obtain ⟨he, hKind⟩ := List.mem_filter.1 he
    exact hOwner e he (of_decide_eq_true hKind) hEmpty
  case isFalse =>
    refine ⟨h.nodup_entities.filter _, fun e => ?_⟩
    rw [List.mem_filter, List.mem_filter]
    simp only [Bool.and_eq_true, decide_eq_true_eq, and_assoc]

end Keyed

end Pool

namespace ChangeGraph

/-- A declared method belongs to a type that has a name. -/
theorem IsDeclared.owner_ne {e : Entity} (h : IsDeclared e) (hMethod : e.kind = .method) :
    e.owner ≠ some "" := by
  obtain ⟨content, path, unit, revision, fileIndex, hParse, he⟩ := h
  rcases List.mem_append.1 he with he | he
  · obtain ⟨t, _, rfl⟩ := List.mem_map.1 he
    cases hMethod
  · obtain ⟨p, hp, he⟩ := List.mem_flatMap.1 he
    rcases Java.Subject.of_mem_entitiesOfType he with rfl | ⟨_, hOwner, _⟩
    · have hType := (Java.Subject.ofUnit unit revision fileIndex).isType_typeEntity p
      rw [hMethod] at hType
      cases hType
    · rw [hOwner]
      exact fun hEmpty => Java.SourceUnit.typeName_ne_empty hParse hp (Option.some.inj hEmpty)

/-- Whether an entry in the table of a kind is that of a node. -/
structure Records (n : Node) (entry : String × PooledEntity) : Prop where
  key : entry.1 = n.name
  entityKey : entry.2.entity.key = n.name
  entityKind : entry.2.entity.kind = n.kind
  node : entry.2.node = some n.id

namespace Formed

variable {names : List String} {declared : Entity → Prop} {g : ChangeGraph}

theorem keyed (h : Formed names declared g) : g.pool.Keyed := h.nodup_keys

/-- The table of a kind has one entry for each node of the kind. -/
theorem records (h : Formed names declared g) {kind : NodeKind} (hKind : kind ≠ .hunk) :
    List.Forall₂ Records (g.graph.nodes.filter (·.kind = kind)) (g.pool.ofKind kind).entries := by
  have hNodes : (g.graph.nodes.filter (·.kind ≠ .hunk)).filter (·.kind = kind) =
      g.graph.nodes.filter (·.kind = kind) := by
    rw [List.filter_filter]
    apply List.filter_congr
    intro n _
    by_cases hn : n.kind = kind <;> simp [hn, hKind]
  have hStands : List.Forall₂ Stands (g.graph.nodes.filter (·.kind = kind))
      (g.pool.entities.filter (·.entity.kind = kind)) := by
    rw [← hNodes]
    refine List.rel_filter (fun n e hStands => ?_) h.stands
    simp [hStands.kind]
  rw [h.keyed.entries_ofKind]
  refine List.forall₂_map_right_iff.2 (hStands.imp fun n e hStands => ?_)
  exact ⟨hStands.name.symm, hStands.name.symm, hStands.kind.symm, hStands.node⟩

end Formed

end ChangeGraph

end ChangeSplit
