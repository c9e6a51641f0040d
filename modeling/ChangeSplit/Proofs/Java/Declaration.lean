import ChangeSplit.Java.Declaration
import ChangeSplit.Proofs.Java.Place

/-! Where the entities of a source come from, and what they have in common with the type that
declares them. -/

namespace ChangeSplit.Java

theorem not_mem_splitLast (name : String) : ¬ '.' ∈ (splitLast name).2.toList := by
  unfold splitLast
  dsimp only
  rw [String.toList_ofList, List.mem_reverse]
  intro hMem
  simpa using List.all_eq_true.1 List.all_takeWhile _ hMem

/-- A name behind the last point is split off. -/
theorem splitLast_append {owner name : String} (h : ¬ '.' ∈ name.toList) :
    splitLast (owner ++ "." ++ name) = (owner, name) := by
  have hName : ∀ c ∈ name.toList.reverse, decide (c ≠ '.') = true := by
    intro c hc
    rw [decide_eq_true_eq]
    rintro rfl
    exact h (List.mem_reverse.1 hc)
  have hReversed : (owner ++ "." ++ name).toList.reverse =
      name.toList.reverse ++ '.' :: owner.toList.reverse := by
    rw [String.toList_append, String.toList_append]
    simp
  unfold splitLast
  rw [hReversed]
  dsimp only
  rw [List.takeWhile_append_of_pos hName, List.dropWhile_append_of_pos hName]
  simp

namespace SourceUnit.Holds

variable {unit : SourceUnit} {p q : Place}

theorem of_mem_namedChildren (h : unit.Holds p.node) (hq : q ∈ p.namedChildren) :
    unit.Holds q.node :=
  h.of_mem_children (Place.node_mem_of_mem_namedChildren hq)

theorem of_mem_everything (h : unit.Holds p.node) (hq : q ∈ p.everything) : unit.Holds q.node :=
  Place.forall_mem_everything (P := fun q => unit.Holds q.node) h
    (fun _ hHolds _ hc => hHolds.of_mem_namedChildren hc) q hq

theorem of_mem_members (h : unit.Holds p.node) (hq : q ∈ p.members) : unit.Holds q.node :=
  Place.node_of_mem_members (P := unit.Holds) (fun _ ht _ => ht.of_mem_children)
    (fun _ => h.of_mem_children) hq

theorem of_mem_typesFrom {depth : Nat} (h : unit.Holds p.node) (hq : q ∈ p.typesFrom depth) :
    unit.Holds q.node := by
  induction depth generalizing p with
  | zero => cases hq
  | succ depth ih =>
      rcases List.mem_cons.1 hq with rfl | hq
      · exact h
      · obtain ⟨m, hm, hq⟩ := List.mem_flatMap.1 hq
        exact ih (h.of_mem_members (List.mem_filter.1 hm).1) hq

theorem of_mem_types (h : unit.Holds unit.root) (hq : q ∈ unit.types) : unit.Holds q.node := by
  obtain ⟨p, hp, hq⟩ := List.mem_flatMap.1 hq
  have hTop := of_mem_namedChildren (p := unit.top) h (List.mem_filter.1 hp).1
  exact hTop.of_mem_typesFrom hq

end SourceUnit.Holds

namespace Subject

variable {s : Subject} {p : Place} {e : Entity}

theorem isType_typeEntity (s : Subject) (p : Place) : (s.typeEntity p).kind.isType = true := by
  unfold typeEntity
  extract_lets t name particulars outer
  unfold particulars
  split <;> rfl

/-- A member of a type has the type as its owner. A field is named in full by its owner and one of
the names that its declaration gives. -/
theorem of_mem_entitiesOfType (h : e ∈ s.entitiesOfType p) :
    e = s.typeEntity p ∨
      e.revision = s.revision ∧ e.owner = some (s.unit.typeName p) ∧
        (e.kind = .field → e.qualifiedName = s.unit.typeName p ++ "." ++ e.name ∧
          ∃ m ∈ p.members, e.name ∈ s.unit.declaredFields m.node) := by
  rcases List.mem_cons.1 h with rfl | h
  · exact .inl rfl
  · obtain ⟨m, hm, hEntity⟩ := List.mem_flatMap.1 h
    right
    split at hEntity
    case isTrue hFields =>
      obtain ⟨d, hd, rfl⟩ := List.mem_map.1 hEntity
      refine ⟨rfl, rfl, fun _ => ⟨rfl, m, hm, ?_⟩⟩
      rw [SourceUnit.declaredFields, if_neg]
      · exact List.mem_map_of_mem hd
      · intro hConstant
        have hKind : m.node.kind? = some .enumConstant := by simpa [Tree.isA] using hConstant
        simp [Place.kindIs, Tree.kindIs, hKind, Kind.isFieldDeclaration] at hFields
    case isFalse =>
      split at hEntity
      case isTrue hConstant =>
        rw [List.mem_singleton.1 hEntity]
        refine ⟨rfl, rfl, fun _ => ⟨rfl, m, hm, ?_⟩⟩
        rw [SourceUnit.declaredFields, if_pos hConstant]
        exact List.mem_singleton.2 rfl
      case isFalse =>
        split at hEntity
        case isTrue =>
          rw [List.mem_singleton.1 hEntity]
          exact ⟨rfl, rfl, fun hField => by cases hField⟩
        case isFalse => cases hEntity

theorem revision_of_mem_entities (h : e ∈ s.entities) : e.revision = s.revision := by
  rcases List.mem_append.1 h with h | h
  · obtain ⟨t, _, rfl⟩ := List.mem_map.1 h
    rfl
  · obtain ⟨p, _, h⟩ := List.mem_flatMap.1 h
    rcases of_mem_entitiesOfType h with rfl | ⟨hRevision, _⟩
    · rfl
    · exact hRevision

end Subject

end ChangeSplit.Java
