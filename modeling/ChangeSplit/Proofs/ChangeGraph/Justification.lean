import ChangeSplit.Proofs.ChangeGraph.Build
import ChangeSplit.Proofs.ChangeGraph.Reference
import ChangeSplit.Proofs.ChangeGraph.Wiring

/-! Why there is an edge to a method or to a field. Something at its source calls the method or uses
the field, and the name of the type that it writes stands for the type that declares it, or for one
that extends this. That a name stands for a type is left open at first: it may mean that the type
has the name, or that the builder takes it for the type. -/

namespace ChangeSplit

namespace Pool

/-- A method that a type declares. -/
structure IsMethod (p : Pool) (r : Revision) (type name : String) (arity : Nat)
    (m : PooledEntity) : Prop where
  mem : m ∈ p.entities
  kind : m.entity.kind = .method
  revision : m.entity.revision = r
  owner : m.entity.owner = some type
  name : m.entity.name = name
  arity : arityOf m.entity = arity

/-- A field that a type declares. -/
structure IsField (p : Pool) (r : Revision) (type name : String) (f : PooledEntity) : Prop where
  mem : f ∈ p.entities
  kind : f.entity.kind = .field
  revision : f.entity.revision = r
  owner : f.entity.owner = some type
  name : f.entity.name = name

/-- The way from a type up to one that it extends, by the names that the declarations on the way
give for what they extend. -/
inductive Climbs (p : Pool) (denotes : Usage → String → String → Prop) (r : Revision) :
    String → String → Prop where
  | stay (type : String) : Climbs p denotes r type type
  | up {type extended top superClass : String} {interfaces : List String} {e : PooledEntity}
      (hEntity : e ∈ p.entities) (hRevision : e.entity.revision = r)
      (hName : e.entity.qualifiedName = type)
      (hExtends : e.entity.particulars = .classType (some superClass) interfaces)
      (hDenotes : denotes e.entity.usage superClass extended)
      (rest : Climbs p denotes r extended top) : Climbs p denotes r type top

theorem Climbs.mono {p : Pool} {denotes denotes' : Usage → String → String → Prop} {r : Revision}
    {type top : String} (h : p.Climbs denotes r type top)
    (hSub : ∀ u name type, denotes u name type → denotes' u name type) :
    p.Climbs denotes' r type top := by
  induction h with
  | stay type => exact .stay type
  | up hEntity hRevision hName hExtends hDenotes _ ih =>
      exact .up hEntity hRevision hName hExtends (hSub _ _ _ hDenotes) ih

theorem mem_methodsNamed {p : Pool} {r : Revision} {type name : String} {arity : Nat}
    {m : PooledEntity} :
    m ∈ p.methodsNamed r type name arity ↔ type ≠ "" ∧ p.IsMethod r type name arity m := by
  unfold methodsNamed
  split
  case isTrue hEmpty => simp [hEmpty]
  case isFalse hType =>
    rw [List.mem_filter]
    simp only [Bool.and_eq_true, decide_eq_true_eq]
    constructor
    · rintro ⟨hMem, ⟨⟨⟨hKind, hRevision⟩, hOwner⟩, hName⟩, hArity⟩
      exact ⟨hType, hMem, hKind, hRevision, hOwner, hName, hArity⟩
    · rintro ⟨_, hMem, hKind, hRevision, hOwner, hName, hArity⟩
      exact ⟨hMem, ⟨⟨⟨hKind, hRevision⟩, hOwner⟩, hName⟩, hArity⟩

end Pool

namespace ChangeGraph

/-- What the entity or the hunk behind a node refers to, and where. Of hunks, only those without a
declaration to go with have a node of their own. -/
inductive Carries (g : ChangeGraph) (source : Nat) : Usage → Facts → Prop where
  | entity {e : PooledEntity} (hEntity : e ∈ g.pool.entities) (hNode : e.node = some source) :
      Carries g source e.entity.usage e.entity.facts
  | hunk {h : PooledHunk} {n : Node} (hHunk : h ∈ g.pool.hunks) (hNode : h.node = some source)
      (hFound : g.graph.node? source = some n) (hOwn : n.kind = .hunk) :
      Carries g source h.usage h.facts

/-- Whether a call at one node reaches the method at another. -/
inductive Called (g : ChangeGraph) (denotes : Usage → String → String → Prop)
    (source target : Nat) : Prop where
  | intro {u : Usage} {f : Facts} {c : CallRef} {owner type top : String} {m : PooledEntity}
      (hCarries : g.Carries source u f) (hCall : c ∈ f.calls) (hOwner : c.owner = some owner)
      (hDenotes : denotes u owner type) (hClimbs : g.pool.Climbs denotes u.revision type top)
      (hMethod : g.pool.IsMethod u.revision top c.name c.arity m) (hNode : m.node = some target) :
      Called g denotes source target

/-- Whether the use of a field at one node means the field at another. -/
inductive Accessed (g : ChangeGraph) (denotes : Usage → String → String → Prop)
    (source target : Nat) : Prop where
  | intro {u : Usage} {f : Facts} {mention owner name type : String} {e : PooledEntity}
      (hCarries : g.Carries source u f) (hUse : mention ∈ f.fieldUses)
      (hSplit : Java.splitLast mention = (owner, name)) (hDenotes : denotes u owner type)
      (hField : g.pool.IsField u.revision type name e) (hNode : e.node = some target) :
      Accessed g denotes source target

theorem Called.mono {g : ChangeGraph} {denotes denotes' : Usage → String → String → Prop}
    {source target : Nat} (h : g.Called denotes source target)
    (hSub : ∀ u name type, denotes u name type → denotes' u name type) :
    g.Called denotes' source target := by
  obtain ⟨hCarries, hCall, hOwner, hDenotes, hClimbs, hMethod, hNode⟩ := h
  exact ⟨hCarries, hCall, hOwner, hSub _ _ _ hDenotes, hClimbs.mono hSub, hMethod, hNode⟩

theorem Accessed.mono {g : ChangeGraph} {denotes denotes' : Usage → String → String → Prop}
    {source target : Nat} (h : g.Accessed denotes source target)
    (hSub : ∀ u name type, denotes u name type → denotes' u name type) :
    g.Accessed denotes' source target := by
  obtain ⟨hCarries, hUse, hSplit, hDenotes, hField, hNode⟩ := h
  exact ⟨hCarries, hUse, hSplit, hSub _ _ _ hDenotes, hField, hNode⟩

/-- What a name stands for to the builder. -/
def Qualifies (g : ChangeGraph) (u : Usage) (name type : String) : Prop :=
  g.qualify? u name = some type

variable {names : List String} {declared : Entity → Prop} {g : ChangeGraph}

/-- What a class extends is what the name in its declaration stands for where it is declared. -/
theorem superType?_eq_some {r : Revision} {type extended : String}
    (h : g.superType? r type = some extended) :
    ∃ e ∈ g.pool.entities, e.entity.revision = r ∧ e.entity.qualifiedName = type ∧
      ∃ superClass interfaces, e.entity.particulars = .classType (some superClass) interfaces ∧
        g.Qualifies e.entity.usage superClass extended := by
  obtain ⟨e, hFound, hSuper⟩ := Option.bind_eq_some_iff.1 h
  obtain ⟨he, _, hRevision, hName⟩ := find?_eq_some hFound
  refine ⟨e, he, hRevision, hName, ?_⟩
  split at hSuper
  case h_1 superClass interfaces hParticulars =>
    split at hSuper
    case isTrue => cases hSuper
    case isFalse => exact ⟨superClass, interfaces, hParticulars, hSuper⟩
  case h_2 => cases hSuper

/-- Methods are found on the type or on one further up. The induction follows the walk, whose fuel
and whose passed types play no part. -/
theorem climbs_of_mem_methodsFrom {r : Revision} {name : String} {arity fuel : Nat}
    {seen : List String} {type : String} {m : PooledEntity}
    (h : m ∈ g.methodsFrom r name arity fuel seen (some type)) :
    ∃ top, g.pool.Climbs g.Qualifies r type top ∧ g.pool.IsMethod r top name arity m := by
  induction fuel generalizing seen type with
  | zero => cases h
  | succ fuel ih =>
      rw [methodsFrom] at h
      split at h
      case isTrue => cases h
      case isFalse =>
        split at h
        case h_1 =>
          cases hSuper : g.superType? r type with
          | none =>
              rw [hSuper] at h
              cases fuel <;> cases h
          | some extended =>
              rw [hSuper] at h
              obtain ⟨top, hClimbs, hMethod⟩ := ih h
              obtain ⟨e, he, hRevision, hName, superClass, interfaces, hExtends, hDenotes⟩ :=
                superType?_eq_some hSuper
              exact ⟨top, .up he hRevision hName hExtends hDenotes hClimbs, hMethod⟩
        case h_2 found _ => exact ⟨type, .stay type, (Pool.mem_methodsNamed.1 h).2⟩

section Links

variable {source : Nat} {u : Usage} {f : Facts} {l : Link}

/-- Among the edges of an entity, those to methods and fields come from its calls and uses. -/
theorem mem_entityLinks {e : PooledEntity} (h : l ∈ g.entityLinks e)
    (hKind : l.kind = .calls ∨ l.kind = .accesses) :
    ∃ source, e.node = some source ∧ (l ∈ g.callLinks source e.entity.usage e.entity.facts ∨
      l ∈ g.fieldLinks source e.entity.usage e.entity.facts) := by
  obtain ⟨source, hNode, h | h | ⟨types, kind, h, hNaming⟩ | ⟨kind, n, _, rfl⟩⟩ :=
    entityLinks_cases h
  · exact ⟨source, hNode, .inl h⟩
  · exact ⟨source, hNode, .inr h⟩
  · rw [kind_of_mem_typeLinks h] at hKind
    rcases hKind with rfl | rfl <;> cases hNaming
  · rcases hKind with hKind | hKind <;> cases hKind

/-- Among the edges of a hunk, those to methods and fields come from its calls and uses. -/
theorem mem_hunkLinks {h : PooledHunk} (hLink : l ∈ g.hunkLinks h)
    (hKind : l.kind = .calls ∨ l.kind = .accesses) :
    ∃ n, h.node = some n.id ∧ g.graph.node? n.id = some n ∧ n.kind = .hunk ∧
      (l ∈ g.callLinks n.id h.usage h.facts ∨ l ∈ g.fieldLinks n.id h.usage h.facts) := by
  obtain ⟨n, hNode, hFound, hOwn, hLink | hLink | hLink⟩ := hunkLinks_cases hLink
  · exact ⟨n, hNode, hFound, hOwn, .inl hLink⟩
  · exact ⟨n, hNode, hFound, hOwn, .inr hLink⟩
  · rw [kind_of_mem_typeLinks hLink] at hKind
    rcases hKind with hKind | hKind <;> cases hKind

/-- An edge to a method or to a field comes from a call or a use at its source. -/
theorem exists_carries_of_mem_links (h : l ∈ g.links)
    (hKind : l.kind = .calls ∨ l.kind = .accesses) :
    ∃ u f, g.Carries l.source u f ∧
      (l ∈ g.callLinks l.source u f ∨ l ∈ g.fieldLinks l.source u f) := by
  have hSource {source : Nat} {u : Usage} {f : Facts}
      (hLinks : l ∈ g.callLinks source u f ∨ l ∈ g.fieldLinks source u f) : l.source = source :=
    hLinks.elim (fun hLink => (mem_callLinks.1 hLink).1) fun hLink => (mem_fieldLinks hLink).1
  rcases links_cases h with ⟨e, he, hLink⟩ | ⟨hunk, hHunk, hLink⟩
  · obtain ⟨source, hNode, hLinks⟩ := mem_entityLinks hLink hKind
    obtain rfl := hSource hLinks
    exact ⟨_, _, .entity he hNode, hLinks⟩
  · obtain ⟨n, hNode, hFound, hOwn, hLinks⟩ := mem_hunkLinks hLink hKind
    have hSame := hSource hLinks
    rw [← hSame] at hNode hFound hLinks
    exact ⟨_, _, .hunk hHunk hNode hFound hOwn, hLinks⟩

end Links

/-- An edge of a call reaches a method of the type that the owner stands for to the builder, or of
one further up. -/
theorem called_of_mem_links {l : Link} (h : l ∈ g.links) (hKind : l.kind = .calls) :
    g.Called g.Qualifies l.source l.target := by
  obtain ⟨u, f, hCarries, hLinks | hLinks⟩ := exists_carries_of_mem_links h (.inl hKind)
  · obtain ⟨_, _, c, hCall, m, hm, hNode⟩ := mem_callLinks.1 hLinks
    unfold callTargets at hm
    split at hm
    case h_1 => cases hm
    case h_2 owner hOwner =>
      cases hType : g.qualify? u owner with
      | none =>
          rw [hType, methodsFrom] at hm
          cases hm
      | some type =>
          rw [hType] at hm
          obtain ⟨top, hClimbs, hMethod⟩ := climbs_of_mem_methodsFrom hm
          exact ⟨hCarries, hCall, hOwner, hType, hClimbs, hMethod, hNode⟩
  · rw [(mem_fieldLinks hLinks).2.1] at hKind
    cases hKind

/-- A declared type is what its full name stands for. -/
theorem Formed.qualify?_of_declares (hFormed : Formed names declared g) {u : Usage} {name : String}
    (h : g.Declares u.revision name) : g.qualify? u name = some name := by
  cases hDeclared : g.declaredType? u.revision name with
  | none => exact absurd h (declaredType?_eq_none_iff.1 hDeclared)
  | some e =>
      obtain ⟨n, hNode, hType, hName⟩ := hFormed.node?_of_declaredType? hDeclared
      rw [qualify?, typeNode?, typeNodeId?, hDeclared]
      dsimp only
      rw [hNode]
      dsimp only
      rw [if_pos hType, hName]

/-- The field that a use means is one of the type that the owner stands for. Where the owner stands
for nothing, no declared type has its name, so there is no such field either. -/
theorem accessed_of_mem_links (hFormed : Formed names IsDeclared g) {l : Link} (h : l ∈ g.links)
    (hKind : l.kind = .accesses) : g.Accessed g.Qualifies l.source l.target := by
  obtain ⟨u, f, hCarries, hLinks | hLinks⟩ := exists_carries_of_mem_links h (.inr hKind)
  · rw [(mem_callLinks.1 hLinks).2.1] at hKind
    cases hKind
  · obtain ⟨_, _, mention, hUse, e, hFound, hNode⟩ := mem_fieldLinks hLinks
    cases hSplit : Java.splitLast mention with
    | mk owner name =>
        have hName : ¬ '.' ∈ name.toList := by
          have hLast := Java.not_mem_splitLast mention
          rwa [hSplit] at hLast
        unfold usedField? at hFound
        rw [hSplit] at hFound
        obtain ⟨he, hField, hRevision, hQualified⟩ := find?_eq_some hFound
        obtain ⟨type, hOwner, hFull, hPlain⟩ := (hFormed.exists_node he).1.field_name hField
        obtain ⟨_, hAround, hDeclares⟩ := hFormed.declares_owner he (.inl hField)
        obtain rfl := Option.some.inj (hOwner.symm.trans hAround)
        have hSame : Java.splitLast ((g.qualify? u owner).getD owner ++ "." ++ name) =
            ((g.qualify? u owner).getD owner, name) := Java.splitLast_append hName
        rw [← hQualified, hFull, Java.splitLast_append hPlain, Prod.mk.injEq] at hSame
        have hDenotes : g.Qualifies u owner type := by
          cases hType : g.qualify? u owner with
          | none =>
              rw [hType, Option.getD_none] at hSame
              rw [hRevision, hSame.1] at hDeclares
              rw [hFormed.qualify?_of_declares hDeclares] at hType
              cases hType
          | some known =>
              rw [hType, Option.getD_some] at hSame
              rw [hSame.1]
              exact hType
        exact ⟨hCarries, hUse, hSplit, hDenotes, ⟨he, hField, hRevision, hOwner, hSame.2⟩, hNode⟩

/-- Whether a name that is declared nowhere is taken for a type all the same. The last hunk that
covers an import of the name was placed last on that type. -/
def Captured (g : ChangeGraph) (u : Usage) (name type : String) : Prop :=
  ¬ g.Declares u.revision name ∧
    ∃ h, g.pool.importingHunk? u.revision name = some h ∧ g.EndsOn h type

theorem Formed.qualify?_of_captured (hFormed : Formed names declared g) {u : Usage}
    {name type : String} (h : g.Captured u name type) : g.qualify? u name = some type := by
  obtain ⟨hUndeclared, hunk, hImporting, n, hn, hNode, hType, hName⟩ := h
  have hId : (g.pool.importingHunk? u.revision name).bind (·.node) = some n.id := by
    rw [hImporting]
    exact hNode
  have hFound : g.typeNodeId? u name = some n.id := by
    rw [typeNodeId?, declaredType?_eq_none_iff.2 hUndeclared]
    dsimp only
    rw [hId]
  rw [qualify?, typeNode?, hFound, Option.bind_some, hFormed.built.node?_id hn]
  dsimp only
  rw [if_pos hType, hName]

/-- The edges of every method and every field are drawn. -/
theorem Formed.mem_links_of_entity (hFormed : Formed names declared g) {e : PooledEntity}
    (he : e ∈ g.pool.entities) (hKind : e.entity.kind = .method ∨ e.entity.kind = .field)
    {l : Link} (hLink : l ∈ g.entityLinks e) : l ∈ g.links := by
  have hValues : e ∈ (g.pool.ofKind e.entity.kind).values := by
    have hOwn : e ∈ g.pool.entities.filter (·.entity.kind = e.entity.kind) := by
      simp [he]
    refine Table.mem_values_of_mem (·.entity.key) id {} hOwn fun t ht hKey => ?_
    obtain ⟨ht, hSame⟩ := List.mem_filter.1 ht
    exact hFormed.eq_of_key ht he (of_decide_eq_true hSame) hKey
  refine List.mem_append_left _ (List.mem_flatMap.2 ⟨e.entity.kind, ?_, ?_⟩)
  · rcases hKind with hKind | hKind <;> simp [hKind]
  · exact List.mem_flatMap.2 ⟨e, hValues, hLink⟩

theorem mem_entityLinks_of_method_or_field {e : PooledEntity} {source : Nat}
    (hNode : e.node = some source) (hKind : e.entity.kind = .method ∨ e.entity.kind = .field)
    {l : Link} (hLink : l ∈ g.callLinks source e.entity.usage e.entity.facts ∨
      l ∈ g.fieldLinks source e.entity.usage e.entity.facts) : l ∈ g.entityLinks e := by
  unfold entityLinks
  rw [hNode]
  dsimp only
  cases hParticulars : e.entity.particulars with
  | method _ _ _ _ _ _ _ =>
      simp only [List.mem_append]
      rcases hLink with h | h <;> simp [h]
  | field _ _ =>
      simp only [List.mem_append]
      rcases hLink with h | h <;> simp [h]
  | classType _ _ | interfaceType _ | imported _ _ =>
      simp [Entity.kind, hParticulars] at hKind

/-- Whether an entity calls a method of a type for which the owner that it writes is only taken. -/
inductive CalledAstray (g : ChangeGraph) (source target : Nat) : Prop where
  | intro {e m : PooledEntity} {c : CallRef} {owner type : String}
      (hEntity : e ∈ g.pool.entities) (hNode : e.node = some source)
      (hKind : e.entity.kind = .method ∨ e.entity.kind = .field) (hCall : c ∈ e.entity.facts.calls)
      (hOwner : c.owner = some owner) (hCaptured : g.Captured e.entity.usage owner type)
      (hMethod : m ∈ g.pool.methodsNamed e.entity.revision type c.name c.arity)
      (hTarget : m.node = some target) : CalledAstray g source target

/-- Whether an entity uses a field of a type for which the owner that it writes is only taken. -/
inductive AccessedAstray (g : ChangeGraph) (source target : Nat) : Prop where
  | intro {e f : PooledEntity} {mention owner name type : String}
      (hEntity : e ∈ g.pool.entities) (hNode : e.node = some source)
      (hKind : e.entity.kind = .method ∨ e.entity.kind = .field)
      (hUse : mention ∈ e.entity.facts.fieldUses) (hSplit : Java.splitLast mention = (owner, name))
      (hCaptured : g.Captured e.entity.usage owner type)
      (hField : g.pool.IsField e.entity.revision type name f) (hTarget : f.node = some target) :
      AccessedAstray g source target

theorem Formed.mem_links_of_calledAstray (hFormed : Formed names declared g) {source target : Nat}
    (h : g.CalledAstray source target) : ⟨source, target, .calls⟩ ∈ g.links := by
  obtain ⟨hEntity, hNode, hKind, hCall, hOwner, hCaptured, hMethod, hTarget⟩ := h
  refine hFormed.mem_links_of_entity hEntity hKind
    (mem_entityLinks_of_method_or_field hNode hKind (.inl ?_))
  refine mem_callLinks.2 ⟨rfl, rfl, _, hCall, _, ?_, hTarget⟩
  have hType := (Pool.mem_methodsNamed.1 hMethod).1
  rw [callTargets, hOwner]
  dsimp only
  rw [hFormed.qualify?_of_captured hCaptured, methodsFrom, if_neg (by simp [hType])]
  split
  case h_1 hNone =>
    simp only [Entity.usage] at hNone
    rw [hNone] at hMethod
    cases hMethod
  case h_2 => exact hMethod

theorem Formed.mem_links_of_accessedAstray (hFormed : Formed names IsDeclared g)
    {source target : Nat} (h : g.AccessedAstray source target) :
    ⟨source, target, .accesses⟩ ∈ g.links := by
  obtain @⟨e, f, mention, owner, name, type, hEntity, hNode, hKind, hUse, hSplit, hCaptured, hField,
    hTarget⟩ := h
  refine hFormed.mem_links_of_entity hEntity hKind
    (mem_entityLinks_of_method_or_field hNode hKind (.inr ?_))
  have hFound : g.usedField? e.entity.usage mention = some f := by
    obtain ⟨around, hAround, hFull, _⟩ := (hFormed.exists_node hField.mem).1.field_name hField.kind
    obtain rfl := Option.some.inj (hField.owner.symm.trans hAround)
    have hSelf := hFormed.find?_of_mem hField.mem
    rw [hField.kind, hField.revision, hFull, hField.name] at hSelf
    rw [usedField?, hSplit]
    dsimp only
    rw [hFormed.qualify?_of_captured hCaptured]
    exact hSelf
  refine List.mem_filterMap.2 ⟨mention, hUse, ?_⟩
  rw [hFound, Option.bind_some, hTarget]
  rfl

section Wired

variable (n : Note)

theorem endsOn_wire_note {h : PooledHunk} {type : String} :
    (g.wire.note n).EndsOn h type ↔ g.EndsOn h type := by
  rw [EndsOn, note, wire_nodes]
  rfl

theorem carries_wire_note {source : Nat} {u : Usage} {f : Facts} (h : g.Carries source u f) :
    (g.wire.note n).Carries source u f := by
  cases h with
  | entity hEntity hNode => exact .entity hEntity hNode
  | hunk hHunk hNode hFound hOwn =>
      refine .hunk hHunk hNode ?_ hOwn
      rw [Graph.node?, note, wire_nodes]
      exact hFound

theorem strays_wire_note {u : Usage} {name type : String} (h : g.Strays u name type) :
    (g.wire.note n).Strays u name type := by
  obtain ⟨hUndeclared, o, ho, hRevision, hImported, hunk, hPlace, hEnds⟩ := h
  exact ⟨hUndeclared, o, ho, hRevision, hImported, hunk, hPlace, (endsOn_wire_note n).2 hEnds⟩

theorem captured_of_wire_note {u : Usage} {name type : String}
    (h : (g.wire.note n).Captured u name type) : g.Captured u name type := by
  obtain ⟨hUndeclared, hunk, hImporting, hEnds⟩ := h
  exact ⟨hUndeclared, hunk, hImporting, (endsOn_wire_note n).1 hEnds⟩

end Wired

/-- Whether there is an edge of a kind from one node to another. -/
def Joins (g : ChangeGraph) (kind : EdgeKind) (source target : Nat) : Prop :=
  ∃ e ∈ g.graph.edges, e.kind = kind ∧ e.source = source ∧ e.target = target

/-- Edges that do not tell what contains what are drawn in the end. -/
theorem Formed.joins_wire_note_iff (hFormed : Formed names declared g) (n : Note) {kind : EdgeKind}
    (hKind : kind ≠ .contains) {source target : Nat} :
    (g.wire.note n).Joins kind source target ↔ ⟨source, target, kind⟩ ∈ g.links := by
  have hLinks := map_link_wire g
  constructor
  · rintro ⟨e, he, rfl, rfl, rfl⟩
    have hLink : e.link ∈ g.graph.edges.map Edge.link ++ g.links := by
      rw [← hLinks]
      exact List.mem_map_of_mem he
    rcases List.mem_append.1 hLink with hOld | hNew
    · obtain ⟨old, hOld, hSame⟩ := List.mem_map.1 hOld
      have hContains := hFormed.kind_of_mem_edges hOld
      exact absurd ((congrArg Link.kind hSame).symm.trans hContains) hKind
    · exact hNew
  · intro hLink
    have hMem : ⟨source, target, kind⟩ ∈ g.wire.graph.edges.map Edge.link := by
      rw [hLinks]
      exact List.mem_append_right _ hLink
    obtain ⟨e, he, hSame⟩ := List.mem_map.1 hMem
    cases hSame
    exact ⟨e, he, rfl, rfl, rfl⟩

/-- What a name may be taken for: the type that it names, or one for which it goes astray. -/
def TakenFor (g : ChangeGraph) (u : Usage) (name type : String) : Prop :=
  g.Names u name type ∨ g.Strays u name type

theorem Formed.takenFor_wire_note (hFormed : Formed names declared g) (n : Note) {u : Usage}
    {name type : String} (h : g.Qualifies u name type) :
    (g.wire.note n).TakenFor u name type :=
  (hFormed.names_or_strays h).imp id (strays_wire_note n)

/-- Every edge to a method or a field comes from a call or a use at its source, and leads to a
member of the type that the name in it is taken for, or of one that this type extends. If no name
goes astray, then every name is taken for a type that it names. But a name does go astray when it
is declared nowhere and the last hunk over an import of it ends on a type: if the type has a
suitable member, then the edge is there, although nothing in the source refers to the member. -/
theorem references_justified {rootPath : String} {root : Folder} {path : List String}
    {files : List FileChange} {g : ChangeGraph} (hBuild : build rootPath root path files = .ok g) :
    (∀ source target, (g.Joins .calls source target → g.Called g.TakenFor source target) ∧
      (g.Joins .accesses source target → g.Accessed g.TakenFor source target)) ∧
    ((∀ u name type, ¬ g.Strays u name type) → ∀ source target,
      (g.Joins .calls source target → g.Called g.Names source target) ∧
      (g.Joins .accesses source target → g.Accessed g.Names source target)) ∧
    ∀ source target, (g.CalledAstray source target → g.Joins .calls source target) ∧
      (g.AccessedAstray source target → g.Joins .accesses source target) := by
  obtain ⟨placed, n, hFormed, rfl⟩ := exists_formed_of_build hBuild
  have hCalls (source target : Nat) : (placed.wire.note n).Joins .calls source target ↔
      ⟨source, target, .calls⟩ ∈ placed.links := hFormed.joins_wire_note_iff n (by decide)
  have hAccesses (source target : Nat) : (placed.wire.note n).Joins .accesses source target ↔
      ⟨source, target, .accesses⟩ ∈ placed.links := hFormed.joins_wire_note_iff n (by decide)
  have hTaken : ∀ u name type, placed.Qualifies u name type →
      (placed.wire.note n).TakenFor u name type :=
    fun _ _ _ h => hFormed.takenFor_wire_note n h
  have hAll : ∀ source target,
      ((placed.wire.note n).Joins .calls source target →
        (placed.wire.note n).Called (placed.wire.note n).TakenFor source target) ∧
      ((placed.wire.note n).Joins .accesses source target →
        (placed.wire.note n).Accessed (placed.wire.note n).TakenFor source target) := by
    intro source target
    constructor
    · intro hJoins
      have hLink := (hCalls source target).1 hJoins
      obtain ⟨hCarries, hCall, hOwner, hDenotes, hClimbs, hMethod, hNode⟩ :=
        (called_of_mem_links hLink rfl).mono hTaken
      exact ⟨carries_wire_note n hCarries, hCall, hOwner, hDenotes, hClimbs, hMethod, hNode⟩
    · intro hJoins
      have hLink := (hAccesses source target).1 hJoins
      obtain ⟨hCarries, hUse, hSplit, hDenotes, hField, hNode⟩ :=
        (accessed_of_mem_links hFormed hLink rfl).mono hTaken
      exact ⟨carries_wire_note n hCarries, hUse, hSplit, hDenotes, hField, hNode⟩
  refine ⟨hAll, fun hNone source target => ?_, fun source target => ⟨?_, ?_⟩⟩
  · have hNames : ∀ u name type, (placed.wire.note n).TakenFor u name type →
        (placed.wire.note n).Names u name type :=
      fun u name type h => h.resolve_right (hNone u name type)
    exact ⟨fun h => ((hAll source target).1 h).mono hNames,
      fun h => ((hAll source target).2 h).mono hNames⟩
  · rintro ⟨hEntity, hNode, hKind, hCall, hOwner, hCaptured, hMethod, hTarget⟩
    refine (hCalls source target).2 (hFormed.mem_links_of_calledAstray ?_)
    exact ⟨hEntity, hNode, hKind, hCall, hOwner, captured_of_wire_note n hCaptured, hMethod,
      hTarget⟩
  · rintro ⟨hEntity, hNode, hKind, hUse, hSplit, hCaptured, hField, hTarget⟩
    refine (hAccesses source target).2 (hFormed.mem_links_of_accessedAstray ?_)
    exact ⟨hEntity, hNode, hKind, hUse, hSplit, captured_of_wire_note n hCaptured, hField, hTarget⟩

/-- A line that imports a class, declares another, and calls a method of the imported one that is
named like a method of its own. -/
def importedCallee : String := "import p.B;class A\x7bvoid f(B b)\x7bb.f(b);\x7d\x7d"

/-- The source of this line. -/
def calleeFolder : Folder := ⟨[(["current", "A.java"], Utf8.encode importedCallee)]⟩

/-- The change that brings in this source, with one hunk. -/
def calleeChange : List FileChange := [
  { index := 0, currentPath := some "A.java"
    hunks := [{ index := 0, current := ⟨1, 1, [importedCallee]⟩ }] }]

/-- The method gets an edge to itself, although nothing in the source refers to it. -/
theorem references_justified_importedCallee :
    ∃ g, build "" calleeFolder [] calleeChange = .ok g ∧ g.CalledAstray 3 3 ∧
      g.Joins .calls 3 3 ∧ g.Called g.TakenFor 3 3 ∧ ¬ g.Called g.Names 3 3 := by
  have hAstray : ∃ g ∈ (build "" calleeFolder [] calleeChange).toOption.toList,
      ∃ e ∈ g.pool.entities, e.node = some 3 ∧ e.entity.kind = .method ∧
        (∃ c ∈ e.entity.facts.calls.toList, c.owner = some "p.B" ∧
          ∃ m ∈ g.pool.methodsNamed e.entity.revision "A" c.name c.arity, m.node = some 3) ∧
        (g.declaredType? e.entity.revision "p.B").isNone = true ∧
        ∃ h ∈ (g.pool.importingHunk? e.entity.revision "p.B").toList, ∃ n ∈ g.graph.nodes,
          h.node = some n.id ∧ n.kind.isType = true ∧ n.entityName? = some "A" := by
    decide +kernel
  have hUnnamed : ∀ g ∈ (build "" calleeFolder [] calleeChange).toOption.toList,
      (∀ h ∈ g.pool.hunks, h.node ≠ some 3) ∧
      ∀ e ∈ g.pool.entities, e.node = some 3 → e.entity.package = "" ∧
        ∀ c ∈ e.entity.facts.calls.toList, ∀ owner ∈ c.owner.toList,
          (g.declaredType? e.entity.revision owner).isNone = true := by
    decide +kernel
  obtain ⟨g, hg, e, he, hNode, hKind, ⟨c, hCall, hOwner, m, hMethod, hTarget⟩, hUndeclared, hunk,
    hImporting, hEnds⟩ := hAstray
  have hBuild : build "" calleeFolder [] calleeChange = .ok g := by
    cases hResult : build "" calleeFolder [] calleeChange with
    | error fault =>
        rw [hResult] at hg
        cases hg
    | ok g' =>
        rw [hResult] at hg
        rw [List.mem_singleton.1 hg]
  have hCalled : g.CalledAstray 3 3 := by
    refine ⟨he, hNode, .inl hKind, hCall, hOwner, ⟨?_, hunk, ?_, hEnds⟩, hMethod, hTarget⟩
    · exact declaredType?_eq_none_iff.1 (Option.isNone_iff_eq_none.1 hUndeclared)
    · exact Option.mem_toList.1 hImporting
  obtain ⟨hTaken, _, hDrawn⟩ := references_justified hBuild
  have hJoins := (hDrawn 3 3).1 hCalled
  refine ⟨g, hBuild, hCalled, hJoins, (hTaken 3 3).1 hJoins, ?_⟩
  rintro ⟨hCarries, hCall, hOwner, ⟨hDeclares, hName⟩, _⟩
  cases hCarries with
  | entity hEntity hSource =>
      obtain ⟨hPackage, hNone⟩ := (hUnnamed g hg).2 _ hEntity hSource
      rcases hName with rfl | ⟨hSome, _⟩
      · have hOwnerNone := hNone _ hCall _ (Option.mem_toList.2 hOwner)
        exact declaredType?_eq_none_iff.1 (Option.isNone_iff_eq_none.1 hOwnerNone) hDeclares
      · exact hSome hPackage
  | hunk hHunk hSource _ _ => exact (hUnnamed g hg).1 _ hHunk hSource

end ChangeGraph

end ChangeSplit
