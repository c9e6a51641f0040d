import ChangeSplit.ChangeGraph.Wiring
import ChangeSplit.Proofs.ChangeGraph.Formed
import ChangeSplit.Proofs.Collection.Sorting
import ChangeSplit.Proofs.Collection.Table

/-! What the names in a source come to stand for. A name of a type stands for a declared type that
it names, in full or together with the package, or else it goes astray: it stands for the type on
which a hunk was placed last that also covers an import of the name. -/

namespace ChangeSplit

theorem Revision.scope_inj {r s : Revision} {a b : String} (h : r.scope a = s.scope b) :
    r = s ∧ a = b := by
  have hHead := congrArg (fun t : String => t.toList.head?) h
  have hSame : r = s := by
    cases r <;> cases s <;> simp [scope, Revision.name] at hHead ⊢
  subst hSame
  exact ⟨rfl, by simpa [scope] using h⟩

namespace ChangeGraph

variable {names : List String} {declared : Entity → Prop} {g : ChangeGraph}

/-- Whether a class or interface of a revision has a full name. -/
def Declares (g : ChangeGraph) (r : Revision) (name : String) : Prop :=
  ∃ e ∈ g.pool.entities, e.entity.kind.isType = true ∧ e.entity.revision = r ∧
    e.entity.qualifiedName = name

/-- Whether a name stands for a declared type as it should: as its full name, or as its name in the
package where the name is used. -/
def Names (g : ChangeGraph) (u : Usage) (name type : String) : Prop :=
  g.Declares u.revision type ∧ (type = name ∨ u.package ≠ "" ∧ type = u.package ++ "." ++ name)

/-- Whether a hunk was placed last on the node of a type. -/
def EndsOn (g : ChangeGraph) (h : PooledHunk) (type : String) : Prop :=
  ∃ n ∈ g.graph.nodes, h.node = some n.id ∧ n.kind.isType = true ∧ n.entityName? = some type

/-- Whether a name of no declared type stands for one all the same, because a hunk over an import of
the name was placed last on that type. Of an import only the last parts may be used, if it is in the
same file. -/
def Strays (g : ChangeGraph) (u : Usage) (name type : String) : Prop :=
  ¬ g.Declares u.revision name ∧ ∃ o ∈ g.pool.importOwners, o.revision = u.revision ∧
    (o.imported = name ∨
      o.fileIndex = u.fileIndex ∧ o.imported.endsWith ("." ++ name) = true) ∧
    ∃ h, g.pool.hunks[o.hunk]? = some h ∧ g.EndsOn h type

theorem find?_eq_some {kind : NodeKind} {r : Revision} {name : String} {e : PooledEntity}
    (h : g.pool.find? kind r name = some e) :
    e ∈ g.pool.entities ∧ e.entity.kind = kind ∧ e.entity.revision = r ∧
      e.entity.qualifiedName = name := by
  have hMem := List.mem_of_find?_eq_some h
  have hTest := List.find?_some h
  simp only [Bool.and_eq_true, decide_eq_true_eq] at hTest
  obtain ⟨hRevision, hName⟩ := Revision.scope_inj hTest.2
  exact ⟨List.mem_reverse.1 hMem, hTest.1, hRevision, hName⟩

theorem find?_eq_none {kind : NodeKind} {r : Revision} {name : String}
    (h : g.pool.find? kind r name = none) {e : PooledEntity} (he : e ∈ g.pool.entities)
    (hKind : e.entity.kind = kind) (hRevision : e.entity.revision = r) :
    e.entity.qualifiedName ≠ name := by
  intro hName
  have hNot := List.find?_eq_none.1 h e (List.mem_reverse.2 he)
  simp [hKind, Entity.key, hRevision, hName] at hNot

theorem declaredType?_eq_some {r : Revision} {name : String} {e : PooledEntity}
    (h : g.declaredType? r name = some e) :
    e ∈ g.pool.entities ∧ e.entity.kind.isType = true ∧ e.entity.revision = r ∧
      e.entity.qualifiedName = name := by
  rw [declaredType?, Option.orElse_eq_or, Option.or_eq_some_iff] at h
  rcases h with hClass | ⟨_, hInterface⟩
  · obtain ⟨he, hKind, hRest⟩ := find?_eq_some hClass
    exact ⟨he, by rw [hKind]; rfl, hRest⟩
  · obtain ⟨he, hKind, hRest⟩ := find?_eq_some hInterface
    exact ⟨he, by rw [hKind]; rfl, hRest⟩

theorem declaredType?_eq_none_iff {r : Revision} {name : String} :
    g.declaredType? r name = none ↔ ¬ g.Declares r name := by
  constructor
  · intro h
    rw [declaredType?, Option.orElse_eq_or, Option.or_eq_none_iff] at h
    rintro ⟨e, he, hType, hRevision, hName⟩
    cases hKind : e.entity.kind with
    | classType => exact find?_eq_none h.1 he hKind hRevision hName
    | interfaceType => exact find?_eq_none h.2 he hKind hRevision hName
    | method | field | imported | hunk => simp [hKind, NodeKind.isType] at hType
  · intro h
    cases hFound : g.declaredType? r name with
    | none => rfl
    | some e =>
        obtain ⟨he, hType, hRevision, hName⟩ := declaredType?_eq_some hFound
        exact absurd ⟨e, he, hType, hRevision, hName⟩ h

namespace Formed

variable (hFormed : Formed names declared g)

include hFormed

/-- The node of an entity is the one that its number leads to. -/
theorem node?_of_entity {e : PooledEntity} (he : e ∈ g.pool.entities) {id : Nat}
    (hNode : e.node = some id) :
    ∃ n ∈ g.graph.nodes, g.graph.node? id = some n ∧ n.toNodeLabel = labelOf e.entity := by
  obtain ⟨_, n, hn, hId, hLabel⟩ := hFormed.exists_node he
  rw [hNode] at hId
  obtain rfl := Option.some.inj hId
  exact ⟨n, hn, hFormed.built.node?_id hn, hLabel⟩

/-- An entity is found under its kind and its full name. -/
theorem find?_of_mem {e : PooledEntity} (he : e ∈ g.pool.entities) :
    g.pool.find? e.entity.kind e.entity.revision e.entity.qualifiedName = some e := by
  cases hFound : g.pool.find? e.entity.kind e.entity.revision e.entity.qualifiedName with
  | none => exact absurd rfl (find?_eq_none hFound he rfl rfl)
  | some t =>
      obtain ⟨ht, hKind, hRevision, hName⟩ := find?_eq_some hFound
      have hKey : t.entity.key = e.entity.key := by
        rw [Entity.key, hRevision, hName]
        rfl
      rw [hFormed.eq_of_key ht he hKind hKey]

/-- The type around a field or a method is declared in the same revision. -/
theorem declares_owner {e : PooledEntity} (he : e ∈ g.pool.entities)
    (hMember : e.entity.kind = .field ∨ e.entity.kind = .method) :
    ∃ type, e.entity.owner = some type ∧ g.Declares e.entity.revision type := by
  induction hFormed with
  | empty => cases he
  | notes _ prior ih => exact ih he
  | @entity g e' graph n prior hDeclared hOwner hAdd ih =>
      have hOld {r : Revision} {type : String} (h : g.Declares r type) : Declares
          { g with graph, pool := g.pool.addEntity ⟨e', some n.id⟩ } r type := by
        obtain ⟨t, ht, hType⟩ := h
        exact ⟨t, List.mem_append_left _ ht, hType⟩
      rcases List.mem_append.1 he with he | he
      · obtain ⟨type, hType, hDeclares⟩ := ih he
        exact ⟨type, hType, hOld hDeclares⟩
      · rw [List.mem_singleton.1 he] at hMember ⊢
        obtain ⟨type, hType, m, hm, hKind, hName⟩ := hOwner hMember
        have hNotHunk : m.kind ≠ .hunk := by
          intro hHunk
          rw [hHunk] at hKind
          cases hKind
        obtain ⟨t, ht, _, hLabel⟩ := prior.exists_entity hm hNotHunk
        rw [hLabel] at hKind hName
        obtain ⟨hRevision, hQualified⟩ := Revision.scope_inj hName
        exact ⟨type, hType, hOld ⟨t, ht, hKind, hRevision, hQualified⟩⟩
  | importOwner o prior ih => exact ih he
  | mark id hName prior ih => exact ih he
  | hunkNode prior hKind hKey hAdd ih => exact ih he
  | contain source target prior ih => exact ih he
  | hunk h prior ih => exact ih he

/-- The node of a declared type gives the full name of the type. -/
theorem node?_of_declaredType? {r : Revision} {name : String} {e : PooledEntity}
    (hFound : g.declaredType? r name = some e) :
    ∃ n, e.node.bind g.graph.node? = some n ∧ n.kind.isType = true ∧
      n.entityName? = some name := by
  obtain ⟨he, hType, hRevision, hName⟩ := declaredType?_eq_some hFound
  obtain ⟨_, m, _, hId, _⟩ := hFormed.exists_node he
  obtain ⟨n, _, hNode, hLabel⟩ := hFormed.node?_of_entity he hId
  refine ⟨n, by rw [hId]; exact hNode, ?_, ?_⟩
  · rw [hLabel]
    exact hType
  · refine Node.entityName?_of_scope (r := e.entity.revision) ?_
    rw [hLabel, ← hName]
    rfl

/-- The node of an import is not that of a type. -/
theorem not_isType_of_import {e : PooledEntity} (he : e ∈ g.pool.entities)
    (hKind : e.entity.kind = .imported) {n : Node} (hNode : e.node.bind g.graph.node? = some n) :
    n.kind.isType = false := by
  obtain ⟨id, hId, hFound⟩ := Option.bind_eq_some_iff.1 hNode
  obtain ⟨m, _, hSame, hLabel⟩ := hFormed.node?_of_entity he hId
  rw [hSame] at hFound
  cases hFound
  rw [hLabel]
  change e.entity.kind.isType = false
  rw [hKind]
  rfl

end Formed

theorem mem_fileImports {r : Revision} {fileIndex : Int} {e : PooledEntity}
    (h : e ∈ g.pool.fileImports r fileIndex) :
    e ∈ g.pool.entities ∧ e.entity.kind = .imported := by
  obtain ⟨he, hTest⟩ := List.mem_filter.1 h
  simp only [Bool.and_eq_true, decide_eq_true_eq] at hTest
  exact ⟨he, hTest.1.1⟩

theorem importingHunk?_eq_some {r : Revision} {imported : String} {h : PooledHunk}
    (hFound : g.pool.importingHunk? r imported = some h) :
    ∃ o ∈ g.pool.importOwners, o.revision = r ∧ o.imported = imported ∧
      g.pool.hunks[o.hunk]? = some h := by
  obtain ⟨o, hOwner, hHunk⟩ := Option.bind_eq_some_iff.1 hFound
  have hTest := List.find?_some hOwner
  simp only [Bool.and_eq_true, decide_eq_true_eq] at hTest
  exact ⟨o, List.mem_reverse.1 (List.mem_of_find?_eq_some hOwner), hTest.1, hTest.2, hHunk⟩

theorem exists_owner_of_mem_entries {hunks : List PooledHunk} {owners : List ImportOwner}
    {t : Table String PooledHunk} {entry : String × PooledHunk}
    (h : entry ∈ (owners.foldl (fun t o =>
      match hunks[o.hunk]? with
      | some h => t.put o.imported h
      | none => t) t).entries) :
    entry ∈ t.entries ∨ ∃ o ∈ owners, entry.1 = o.imported ∧ hunks[o.hunk]? = some entry.2 := by
  induction owners generalizing t with
  | nil => exact .inl h
  | cons o rest ih =>
      rcases ih h with hOld | ⟨p, hp, hEntry⟩
      · dsimp only at hOld
        split at hOld
        case h_1 hunk hHunk =>
          rcases Table.mem_putIn hOld with rfl | hOld
          · exact .inr ⟨o, List.mem_cons_self .., rfl, hHunk⟩
          · exact .inl hOld
        case h_2 => exact .inl hOld
      · exact .inr ⟨p, List.mem_cons_of_mem _ hp, hEntry⟩

theorem mem_fileImportingHunks {r : Revision} {fileIndex : Int} {entry : String × PooledHunk}
    (h : entry ∈ g.pool.fileImportingHunks r fileIndex) :
    ∃ o ∈ g.pool.importOwners, o.revision = r ∧ o.fileIndex = fileIndex ∧
      o.imported = entry.1 ∧ g.pool.hunks[o.hunk]? = some entry.2 := by
  rw [Pool.fileImportingHunks, mem_sortBy] at h
  obtain ⟨o, ho, hImported, hHunk⟩ := (exists_owner_of_mem_entries h).resolve_left (by simp)
  obtain ⟨hOwner, hTest⟩ := List.mem_filter.1 ho
  simp only [Bool.and_eq_true, decide_eq_true_eq] at hTest
  exact ⟨o, hOwner, hTest.1, hTest.2, hImported.symm, hHunk⟩

/-- Where the number of the node for a name of a type can come from: a declared type that it names,
an import of the file or, if no declared type has the name, a hunk over an import of it. -/
theorem typeNodeId?_cases {u : Usage} {name : String} {id : Nat}
    (h : g.typeNodeId? u name = some id) :
    (∃ type e, g.declaredType? u.revision type = some e ∧ e.node = some id ∧
      (type = name ∨ u.package ≠ "" ∧ type = u.package ++ "." ++ name)) ∨
    (∃ e ∈ g.pool.fileImports u.revision u.fileIndex, e.node = some id) ∨
    (¬ g.Declares u.revision name ∧ ∃ o ∈ g.pool.importOwners, o.revision = u.revision ∧
      (o.imported = name ∨
        o.fileIndex = u.fileIndex ∧ o.imported.endsWith ("." ++ name) = true) ∧
      ∃ hunk, g.pool.hunks[o.hunk]? = some hunk ∧ hunk.node = some id) := by
  unfold typeNodeId? at h
  split at h
  case h_1 e hDeclared => exact .inl ⟨name, e, hDeclared, h, .inl rfl⟩
  case h_2 hUndeclared =>
    rw [declaredType?_eq_none_iff] at hUndeclared
    split at h
    case h_1 found hCovered =>
      cases h
      obtain ⟨hunk, hImporting, hHunk⟩ := Option.bind_eq_some_iff.1 hCovered
      obtain ⟨o, ho, hRevision, hImported, hPlace⟩ := importingHunk?_eq_some hImporting
      exact .inr (.inr ⟨hUndeclared, o, ho, hRevision, .inl hImported, hunk, hPlace, hHunk⟩)
    case h_2 =>
      extract_lets imports neighbor isTail covered at h
      split at h
      case h_1 e hImport => exact .inr (.inl ⟨e, List.mem_of_find?_eq_some hImport, h⟩)
      case h_2 =>
        cases hNeighbor : neighbor with
        | some e =>
            simp only [hNeighbor] at h
            change (if _ then _ else _) = some e at hNeighbor
            split at hNeighbor
            case isFalse => cases hNeighbor
            case isTrue hPackage =>
              rw [Bool.and_eq_true, decide_eq_true_eq] at hPackage
              exact .inl ⟨_, e, hNeighbor, h, .inr ⟨hPackage.1, rfl⟩⟩
        | none =>
            simp only [hNeighbor] at h
            cases hCovered : covered with
            | some found =>
                simp only [hCovered] at h
                cases h
                obtain ⟨entry, hEntry, hTail⟩ := List.exists_of_findSome?_eq_some hCovered
                obtain ⟨o, ho, hRevision, hFile, hImported, hPlace⟩ :=
                  mem_fileImportingHunks hEntry
                dsimp only at hTail
                split at hTail
                case isFalse => cases hTail
                case isTrue hEnds =>
                  rw [← hImported] at hEnds
                  exact .inr (.inr ⟨hUndeclared, o, ho, hRevision, .inr ⟨hFile, hEnds⟩, entry.2,
                    hPlace, hTail⟩)
            | none =>
                simp only [hCovered] at h
                obtain ⟨e, hImport, hNode⟩ := Option.bind_eq_some_iff.1 h
                exact .inr (.inl ⟨e, List.mem_of_find?_eq_some hImport, hNode⟩)

/-- A name that stands for a type names it or goes astray. Imports of files only ever give nodes of
imports, so they decide nothing here. -/
theorem Formed.names_or_strays (hFormed : Formed names declared g) {u : Usage} {name type : String}
    (h : g.qualify? u name = some type) : g.Names u name type ∨ g.Strays u name type := by
  unfold qualify? at h
  split at h
  case h_2 => cases h
  case h_1 n hNode =>
    split at h
    case isFalse => cases h
    case isTrue hType =>
      obtain ⟨id, hId, hFound⟩ := Option.bind_eq_some_iff.1 hNode
      rcases typeNodeId?_cases hId with ⟨full, e, hDeclared, hEntity, hNamed⟩ |
        ⟨e, he, hEntity⟩ | ⟨hUndeclared, o, ho, hRevision, hImported, hunk, hPlace, hHunk⟩
      · obtain ⟨m, hSame, _, hName⟩ := hFormed.node?_of_declaredType? hDeclared
        rw [hEntity, Option.bind_some, hFound] at hSame
        cases hSame
        rw [hName] at h
        cases h
        exact .inl ⟨⟨e, declaredType?_eq_some hDeclared⟩, hNamed⟩
      · obtain ⟨hPooled, hKind⟩ := mem_fileImports he
        rw [hFormed.not_isType_of_import hPooled hKind (by rw [hEntity]; exact hFound)] at hType
        cases hType
      · obtain ⟨hn, rfl⟩ := Graph.mem_of_node? hFound
        exact .inr ⟨hUndeclared, o, ho, hRevision, hImported, hunk, hPlace, n, hn, hHunk, hType, h⟩

end ChangeGraph

end ChangeSplit
