import ChangeSplit.Proofs.Java.Declaration
import ChangeSplit.Proofs.Java.Members

/-! The names of a declaration are worked out twice: from the declaration alone, on the way up, and
on the way down from the types, when its entity is described. Both agree. -/

namespace ChangeSplit

namespace Java

/-- What tells an entity apart. -/
def Identity.of (e : Entity) : Identity := ⟨e.kind, e.qualifiedName, e.name⟩

namespace Place

variable {p m : Place}

theorem chain_eq (p : Place) : ∃ rest, p.chain = p :: rest := by
  obtain ⟨node, above⟩ := p
  cases above with
  | nil => exact ⟨_, rfl⟩
  | cons parent above => exact ⟨_, rfl⟩

theorem NamedType.enclosingTypes_eq (h : p.NamedType) : ∃ rest, p.enclosingTypes = p :: rest := by
  obtain ⟨rest, hChain⟩ := chain_eq p
  rw [enclosingTypes, enclosingMembers, hChain, List.filter_cons_of_pos h.named,
    List.filter_cons_of_pos (p := isType) h.type]
  exact ⟨_, rfl⟩

/-- The innermost type around a member is the type whose member it is. -/
theorem NamedType.enclosingTypes_of_mem_members (h : p.NamedType) (hm : m ∈ p.members)
    (hType : m.isType = false) : m.enclosingTypes = p.enclosingTypes := by
  rw [enclosingTypes, h.enclosingMembers_of_mem_members hm,
    List.filter_cons_of_neg (p := isType) (by simp [hType])]
  rfl

end Place

namespace Subject

variable {s : Subject} {p m : Place} {i : Identity}

/-- The entities of a member that is no type. -/
def memberEntities (s : Subject) (owner : String) (m : Place) : List Entity :=
  if m.kindIs Kind.isFieldDeclaration then s.fieldEntities m owner
  else if m.node.isA .enumConstant then [s.constantEntity m owner]
  else if m.kindIs Kind.isMethodDeclaration then [s.methodEntity m owner]
  else []

theorem entitiesOfType_eq (s : Subject) (p : Place) :
    s.entitiesOfType p =
      s.typeEntity p :: p.members.flatMap (s.memberEntities (s.unit.typeName p)) := rfl

theorem memberEntities_of_isMethodDeclaration (owner : String)
    (hMethod : m.kindIs Kind.isMethodDeclaration = true) :
    s.memberEntities owner m = [s.methodEntity m owner] := by
  obtain ⟨kind, hKind, hIs⟩ := Place.exists_kind hMethod
  rw [memberEntities, Place.kindIs, Place.kindIs, Tree.kindIs, Tree.kindIs, Tree.isA, hKind]
  cases kind <;> first | rfl | cases hIs

theorem identities_of_isType (hType : p.isType = true) :
    s.identities p = [.of (s.typeEntity p)] := by
  have hNode : p.node.kindIs Kind.isTypeDeclaration = true := hType
  by_cases hInterface : p.node.kindIs Kind.isInterfaceDeclaration = true
  · simp [identities, Java.identities, hNode, hInterface, Identity.of, typeEntity, entity,
      Entity.kind]
  · simp [identities, Java.identities, hNode, hInterface, Identity.of, typeEntity, entity,
      Entity.kind]

/-- A member is named by its owner and by what it declares, whichever way it is reached. -/
theorem identities_of_isDeclaration {owner : String} {rest : List String}
    (hDeclaration : m.kindIs Kind.isDeclaration = true) (hType : m.isType = false)
    (hOwner : s.unit.typesAround m = owner :: rest) :
    s.identities m = (s.memberEntities owner m).map .of := by
  obtain ⟨kind, hKind, hSort⟩ := Place.exists_kind hDeclaration
  have hNotType : kind.isTypeDeclaration = false := by
    simpa [Place.isType, Place.kindIs, Tree.kindIs, hKind] using hType
  simp only [Kind.isDeclaration, Kind.isMemberDeclaration, hNotType, Bool.or_false,
    Bool.or_eq_true, decide_eq_true_eq] at hSort
  simp only [identities, Java.identities, memberEntities, Place.kindIs, Tree.kindIs, Tree.isA,
    hKind, hNotType, hOwner, Option.any_some]
  rcases hSort with (hField | hMethod) | rfl
  · have hMethod : kind.isMethodDeclaration = false := by cases kind <;> first | rfl | cases hField
    have hConstant : kind ≠ .enumConstant := by rintro rfl; cases hField
    simp [hField, hMethod, SourceUnit.declaredFields, Tree.isA, hKind, hConstant, fieldEntities,
      Identity.of, entity, Entity.kind]
  · have hField : kind.isFieldDeclaration = false := by cases kind <;> first | rfl | cases hMethod
    have hConstant : kind ≠ .enumConstant := by rintro rfl; cases hMethod
    simp [hField, hMethod, hConstant, methodEntity, Identity.of, entity, Entity.kind]
  · simp [Kind.isFieldDeclaration, Kind.isMethodDeclaration, SourceUnit.declaredFields, Tree.isA,
      hKind, constantEntity, Identity.of, entity, Entity.kind]

theorem identities_of_mem_members (h : p.NamedType) (hm : m ∈ p.members)
    (hType : m.isType = false) :
    s.identities m = (s.memberEntities (s.unit.typeName p) m).map .of := by
  obtain ⟨rest, hRest⟩ := h.enclosingTypes_eq
  have hDeclaration :=
    Place.isDeclaration_of_isNamedMember (h.isNamedMember_of_mem_members hm)
  apply identities_of_isDeclaration hDeclaration hType
  rw [SourceUnit.typesAround, h.enclosingTypes_of_mem_members hm hType, hRest, List.map_cons]

/-- Whatever a declaration that can be named declares, an entity is described for it. -/
theorem exists_entity_of_mem_identities (hReadable : s.unit.Readable)
    (hp : p ∈ s.unit.top.everything) (hNamed : p.isNamedMember = true) (hi : i ∈ s.identities p) :
    ∃ e ∈ s.entities, Identity.of e = i := by
  have hMem : p ∈ s.unit.types.flatMap Place.withOwnMembers :=
    hReadable.perm_types.mem_iff.2 (List.mem_filter.2 ⟨hp, hNamed⟩)
  obtain ⟨t, ht, hp⟩ := List.mem_flatMap.1 hMem
  have hType := hReadable.namedType_of_mem_types ht
  have hEntities : ∀ e ∈ s.entitiesOfType t, e ∈ s.entities := fun e he =>
    List.mem_append_right _ (List.mem_flatMap.2 ⟨t, ht, he⟩)
  rcases List.mem_cons.1 hp with rfl | hp
  · rw [identities_of_isType hType.type, List.mem_singleton] at hi
    exact ⟨s.typeEntity p, hEntities _ (List.mem_cons_self ..), hi.symm⟩
  · obtain ⟨hm, hNot⟩ := List.mem_filter.1 hp
    rw [identities_of_mem_members hType hm (by simpa using hNot)] at hi
    obtain ⟨e, he, rfl⟩ := List.mem_map.1 hi
    refine ⟨e, hEntities e ?_, rfl⟩
    rw [entitiesOfType_eq]
    exact List.mem_cons_of_mem _ (List.mem_flatMap.2 ⟨p, hm, he⟩)

end Subject

end Java

end ChangeSplit
