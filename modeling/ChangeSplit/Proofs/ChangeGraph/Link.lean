import ChangeSplit.Proofs.ChangeGraph.Justification
import ChangeSplit.Proofs.ChangeGraph.Lookup

/-! Edges that follow from what entities and hunks refer to stay in one revision. They are the same
if only this revision is known. -/

namespace ChangeSplit.ChangeGraph

open Java

variable {g h : ChangeGraph} {r : Revision}

section Links

variable {source : Nat} {u : Usage} {f : Facts} {l : Link}

/-- Whether an edge joins nodes of a revision. -/
def Link.IsIn (g : Graph) (r : Revision) (l : Link) : Prop :=
  l.source ∈ g.numbers r ∧ l.target ∈ g.numbers r

namespace Apart

theorem isIn_callLinks (hApart : Apart g) (hSource : source ∈ g.graph.numbers u.revision)
    (h : l ∈ g.callLinks source u f) : l.IsIn g.graph u.revision := by
  obtain ⟨rfl, _, c, _, m, hm, hTarget⟩ := mem_callLinks.1 h
  unfold callTargets at hm
  split at hm
  case h_1 => cases hm
  case h_2 owner _ =>
    cases hType : g.qualify? u owner with
    | none =>
        rw [hType, methodsFrom] at hm
        cases hm
    | some type =>
        rw [hType] at hm
        obtain ⟨_, _, hMethod⟩ := climbs_of_mem_methodsFrom hm
        have hNode := hApart.entities m hMethod.mem _ hTarget
        rw [hMethod.revision] at hNode
        exact ⟨hSource, hNode⟩

theorem isIn_fieldLinks (hApart : Apart g) (hSource : source ∈ g.graph.numbers u.revision)
    (h : l ∈ g.fieldLinks source u f) : l.IsIn g.graph u.revision := by
  obtain ⟨rfl, _, _, _, e, hField, hTarget⟩ := mem_fieldLinks h
  obtain ⟨he, _, hr, _⟩ := find?_eq_some hField
  have hNode := hApart.entities e he _ hTarget
  rw [hr] at hNode
  exact ⟨hSource, hNode⟩

theorem isIn_typeLinks (hApart : Apart g) (hSource : source ∈ g.graph.numbers u.revision)
    {types : OrderedSet String} {kind : EdgeKind} (h : l ∈ g.typeLinks source u types kind) :
    l.IsIn g.graph u.revision := by
  obtain ⟨name, _, hLink⟩ := List.mem_filterMap.1 h
  obtain ⟨n, hNode, rfl⟩ := Option.map_eq_some_iff.1 hLink
  obtain ⟨id, hId, hFound⟩ := Option.bind_eq_some_iff.1 hNode
  obtain ⟨_, rfl⟩ := Graph.mem_of_node? hFound
  exact ⟨hSource, hApart.mem_numbers_of_typeNodeId? hId⟩

theorem isIn_entityLinks (hApart : Apart g) {e : PooledEntity} (he : e ∈ g.pool.entities)
    (h : l ∈ g.entityLinks e) : l.IsIn g.graph e.entity.revision := by
  obtain ⟨source, hNode, hLink⟩ := entityLinks_cases h
  have hSource : source ∈ g.graph.numbers e.entity.usage.revision :=
    hApart.entities e he source hNode
  rcases hLink with h | h | ⟨types, kind, h, _⟩ | ⟨kind, n, hFound, rfl⟩
  · exact hApart.isIn_callLinks hSource h
  · exact hApart.isIn_fieldLinks hSource h
  · exact hApart.isIn_typeLinks hSource h
  · have hr := hApart.tells.revision_of_find? hFound
    refine ⟨hSource, ?_⟩
    rw [show e.entity.revision = n.revision from hr.symm]
    exact Graph.id_mem_numbers (List.mem_of_find?_eq_some hFound)

theorem isIn_hunkLinks (hApart : Apart g) {hunk : PooledHunk} (hHunk : hunk ∈ g.pool.hunks)
    (h : l ∈ g.hunkLinks hunk) : l.IsIn g.graph hunk.revision := by
  obtain ⟨n, hNode, _, _, hLink⟩ := hunkLinks_cases h
  have hSource : n.id ∈ g.graph.numbers hunk.usage.revision :=
    hApart.mem_numbers_of_hunk hHunk hNode
  rcases hLink with h | h | h
  · exact hApart.isIn_callLinks hSource h
  · exact hApart.isIn_fieldLinks hSource h
  · exact hApart.isIn_typeLinks hSource h

end Apart

/-- Edges that follow from what is known stay in one revision. -/
theorem Apart.exists_isIn_of_mem_links (hApart : Apart g) (h : l ∈ g.links) :
    ∃ r, l.IsIn g.graph r := by
  rcases links_cases h with ⟨e, he, hLink⟩ | ⟨hunk, hHunk, hLink⟩
  · exact ⟨_, hApart.isIn_entityLinks he hLink⟩
  · exact ⟨_, hApart.isIn_hunkLinks hHunk hLink⟩

theorem Apart.joinsWithin_wire (hApart : Apart g) : g.wire.graph.JoinsWithin := by
  have hNumbers (r : Revision) : g.wire.graph.numbers r = g.graph.numbers r := by
    rw [Graph.numbers, wire_nodes, Graph.numbers]
  intro e he
  have hLink : e.link ∈ g.wire.graph.edges.map Edge.link := List.mem_map_of_mem he
  rw [map_link_wire, List.mem_append] at hLink
  simp only [hNumbers]
  rcases hLink with hOld | hNew
  · obtain ⟨d, hd, hSame⟩ := List.mem_map.1 hOld
    have hSource : d.source = e.source := congrArg Link.source hSame
    have hTarget : d.target = e.target := congrArg Link.target hSame
    rw [← hSource, ← hTarget]
    exact hApart.joins d hd
  · exact hApart.exists_isIn_of_mem_links hNew

/-- What is drawn for some values of both revisions, as far as it belongs to one of them. -/
theorem Apart.flatMap_values {α : Type} (hApart : Apart g) {links links' : α → List Link}
    (revision : α → Revision) {renumber : α → α} {values : List α}
    (hIn : ∀ a ∈ values, ∀ l ∈ links a, l.IsIn g.graph (revision a))
    (hSame : ∀ a ∈ values, revision a = r →
      links' (renumber a) = (links a).map (·.renumber (g.graph.rank r))) :
    ((values.filter (revision · = r)).map renumber).flatMap links' =
      ((values.flatMap links).filter (·.source ∈ g.graph.numbers r)).map
        (·.renumber (g.graph.rank r)) := by
  induction values with
  | nil => rfl
  | cons a rest ih =>
      have hRest := ih (fun b hb => hIn b (List.mem_cons_of_mem _ hb))
        fun b hb => hSame b (List.mem_cons_of_mem _ hb)
      have hOwn := hIn a (List.mem_cons_self ..)
      rw [List.flatMap_cons, List.filter_append, List.map_append, ← hRest]
      by_cases hr : revision a = r
      · have hAll : (links a).filter (·.source ∈ g.graph.numbers r) = links a := by
          apply List.filter_eq_self.2
          intro l hl
          simpa [hr] using (hOwn l hl).1
        rw [hAll, ← hSame a (List.mem_cons_self ..) hr]
        simp [hr]
      · have hNone : (links a).filter (·.source ∈ g.graph.numbers r) = [] := by
          apply List.filter_eq_nil_iff.2
          intro l hl
          have hOther : l.source ∉ g.graph.numbers r :=
            fun hMem => hr (hApart.built.eq_of_mem_numbers (hOwn l hl).1 hMem)
          simpa using hOther
        rw [hNone]
        simp [hr]

namespace IsPart

theorem callLinks (hPart : IsPart u.revision g h) (hApart : Apart g) (source : Nat) (f : Facts) :
    h.callLinks (g.graph.rank u.revision source) u f =
      (g.callLinks source u f).map (·.renumber (g.graph.rank u.revision)) := by
  rw [ChangeGraph.callLinks, ChangeGraph.callLinks, List.map_flatMap]
  congr 1
  funext c
  rw [hPart.callTargets hApart, List.filterMap_map, List.map_filterMap]
  congr 1
  funext m
  simp [PooledEntity.renumber, Link.renumber, Function.comp_def]

theorem fieldLinks (hPart : IsPart u.revision g h) (hApart : Apart g) (source : Nat) (f : Facts) :
    h.fieldLinks (g.graph.rank u.revision source) u f =
      (g.fieldLinks source u f).map (·.renumber (g.graph.rank u.revision)) := by
  rw [ChangeGraph.fieldLinks, ChangeGraph.fieldLinks, List.map_filterMap]
  congr 1
  funext use
  rw [hPart.usedField? hApart]
  cases g.usedField? u use with
  | none => rfl
  | some e => simp [PooledEntity.renumber, Link.renumber, Function.comp_def]

theorem typeLinks (hPart : IsPart u.revision g h) (hApart : Apart g) (source : Nat)
    (types : OrderedSet String) (kind : EdgeKind) :
    h.typeLinks (g.graph.rank u.revision source) u types kind =
      (g.typeLinks source u types kind).map (·.renumber (g.graph.rank u.revision)) := by
  rw [ChangeGraph.typeLinks, ChangeGraph.typeLinks, List.map_filterMap]
  congr 1
  funext name
  rw [hPart.typeNode? hApart]
  cases g.typeNode? u name <;> rfl

theorem entityLinks (hPart : IsPart r g h) (hApart : Apart g) {e : PooledEntity}
    (hr : e.entity.revision = r) :
    h.entityLinks (e.renumber (g.graph.rank r)) =
      (g.entityLinks e).map (·.renumber (g.graph.rank r)) := by
  subst hr
  have hCalls (source : Nat) (f : Facts) :=
    IsPart.callLinks (u := e.entity.usage) hPart hApart source f
  have hFields (source : Nat) (f : Facts) :=
    IsPart.fieldLinks (u := e.entity.usage) hPart hApart source f
  have hTypes (source : Nat) (types : OrderedSet String) (kind : EdgeKind) :=
    IsPart.typeLinks (u := e.entity.usage) hPart hApart source types kind
  have hNamed (source : Nat) (name : String) (kind : NodeKind) :
      (h.graph.find? kind (e.entity.revision.scope name)).map (fun n =>
          (⟨g.graph.rank e.entity.revision source, n.id, .refers⟩ : Link)) =
        ((g.graph.find? kind (e.entity.revision.scope name)).map fun n =>
          (⟨source, n.id, .refers⟩ : Link)).map (·.renumber (g.graph.rank e.entity.revision)) := by
    rw [hPart.graph, hApart.tells.find?_scope]
    cases g.graph.find? kind (e.entity.revision.scope name) <;> rfl
  dsimp only [Entity.usage] at hCalls hFields hTypes
  unfold ChangeGraph.entityLinks
  dsimp only [PooledEntity.renumber, Entity.usage]
  cases e.node with
  | none => rfl
  | some source =>
      dsimp only [Option.map_some]
      cases e.entity.particulars with
      | method parameterText parameterTypes returnText returnTypes thrown isConstructor arity =>
          simp only [hCalls, hFields, hTypes, List.map_append]
      | field typeText types => simp only [hCalls, hFields, hTypes, List.map_append]
      | classType superClass interfaces => exact hTypes _ _ _
      | interfaceType interfaces => exact hTypes _ _ _
      | imported isStatic isWildcard =>
          dsimp only
          rw [List.map_filterMap]
          congr 1
          funext kind
          exact hNamed source e.entity.name kind

theorem hunkLinks (hPart : IsPart r g h) (hApart : Apart g) {hunk : PooledHunk}
    (hHunk : hunk ∈ g.pool.hunks) (hr : hunk.revision = r) :
    h.hunkLinks (hunk.renumber (g.graph.rank r)) =
      (g.hunkLinks hunk).map (·.renumber (g.graph.rank r)) := by
  subst hr
  have hNode : (hunk.renumber (g.graph.rank hunk.revision)).node.bind h.graph.node? =
      (hunk.node.bind g.graph.node?).map (·.renumber (g.graph.rank hunk.revision)) := by
    rw [PooledHunk.node_renumber, hPart.graph]
    cases hId : hunk.node with
    | none => rfl
    | some id => exact hApart.built.node?_part (hApart.mem_numbers_of_hunk hHunk hId)
  unfold ChangeGraph.hunkLinks
  rw [hNode]
  cases hunk.node.bind g.graph.node? with
  | none => rfl
  | some n =>
      dsimp only [Option.map_some, Node.renumber]
      split
      case isTrue =>
        have hCalls := IsPart.callLinks (u := hunk.usage) hPart hApart n.id hunk.facts
        have hFields := IsPart.fieldLinks (u := hunk.usage) hPart hApart n.id hunk.facts
        have hTypes := IsPart.typeLinks (u := hunk.usage) hPart hApart n.id hunk.facts.typeUses
          .initializes
        rw [List.map_append, List.map_append]
        exact congrArg₂ (· ++ ·) (congrArg₂ (· ++ ·) hCalls hFields) hTypes
      case isFalse => rfl

/-- The edges that follow from what is known of a revision are those of the revision. -/
theorem links (hPart : IsPart r g h) (hApart : Apart g) :
    h.links = (g.links.filter (·.source ∈ g.graph.numbers r)).map
      (·.renumber (g.graph.rank r)) := by
  rw [ChangeGraph.links, ChangeGraph.links, List.filter_append, List.map_append,
    List.filter_flatMap, List.map_flatMap, hPart.pool]
  congr 1
  · congr 1
    funext kind
    rw [Pool.values_ofKind_part]
    exact hApart.flatMap_values (·.entity.revision)
      (fun e he l hl => hApart.isIn_entityLinks (mem_of_mem_ofKind he) hl)
      fun e _ hr => hPart.entityLinks hApart hr
  · rw [Pool.values_hunkTable_part]
    exact hApart.flatMap_values (·.revision)
      (fun hunk hHunk l hl => hApart.isIn_hunkLinks (mem_of_mem_hunkTable hHunk) hl)
      fun hunk hHunk hr => hPart.hunkLinks hApart (mem_of_mem_hunkTable hHunk) hr

theorem wire (hPart : IsPart r g h) (hApart : Apart g) :
    h.wire.graph = g.wire.graph.part r := by
  have hFold (links : List Link) (graph : Graph) :
      (links.foldl (fun graph l => graph.addEdge l.source l.target l.kind) graph).part r =
        ((links.filter (·.source ∈ graph.numbers r)).map (·.renumber (graph.rank r))).foldl
          (fun graph l => graph.addEdge l.source l.target l.kind) (graph.part r) := by
    induction links generalizing graph with
    | nil => rfl
    | cons l rest ih =>
        rw [List.foldl_cons, ih]
        by_cases hSource : l.source ∈ graph.numbers r
        · rw [Graph.part_addEdge hSource, List.filter_cons_of_pos (by simpa using hSource)]
          rfl
        · rw [Graph.part_addEdge_of_notMem hSource,
            List.filter_cons_of_neg (by simpa using hSource)]
          rfl
  rw [ChangeGraph.wire, ChangeGraph.wire, hFold, hPart.links hApart, hPart.graph]

end IsPart

end Links

end ChangeSplit.ChangeGraph
