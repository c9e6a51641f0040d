import ChangeSplit.ChangeGraph.Build
import ChangeSplit.Proofs.ChangeGraph.Formed
import ChangeSplit.Proofs.ChangeGraph.Placement
import ChangeSplit.Proofs.Diff.Matching
import ChangeSplit.Proofs.Java.Declaration

/-! Building a graph forms it step by step. Taking in sources and placing hunks consist of nothing
but the operations by which graphs are formed, and wiring comes last. -/

namespace ChangeSplit.ChangeGraph

variable {names : List String} {declared : Entity → Prop}

theorem mem_nodes_addEntity (path : String) {g : ChangeGraph} (e : Entity) {n : Node}
    (hn : n ∈ g.graph.nodes) : n ∈ (addEntity path g e).graph.nodes := by
  unfold addEntity
  split
  case h_1 => exact hn
  case h_2 graph m hAdd =>
    obtain ⟨_, _, rfl⟩ := Graph.addNode_eq_ok hAdd
    exact List.mem_append_left _ hn

/-- Once an entity was taken in or refused, there is a node for it. -/
theorem exists_node_addEntity (path : String) (g : ChangeGraph) (e : Entity) :
    ∃ n ∈ (addEntity path g e).graph.nodes, n.kind = e.kind ∧ n.name = e.key := by
  unfold addEntity
  split
  case h_1 hAdd => exact Graph.exists_node_of_addNode_error hAdd
  case h_2 graph m hAdd =>
    obtain ⟨_, rfl, rfl⟩ := Graph.addNode_eq_ok hAdd
    exact ⟨_, List.mem_append_right _ (List.mem_singleton.2 rfl), rfl, rfl⟩

theorem formed_addEntity {path : String} {g : ChangeGraph} {e : Entity}
    (h : Formed names declared g) (hDeclared : declared e) (hOwner : HasOwner g.graph e) :
    Formed names declared (addEntity path g e) := by
  unfold addEntity
  split
  case h_1 => exact .notes _ h
  case h_2 graph n hAdd => exact .entity h hDeclared hOwner hAdd

theorem formed_foldl_addEntity {path : String} {g : ChangeGraph} {es : List Entity}
    (h : Formed names declared g) (hDeclared : ∀ e ∈ es, declared e)
    (hOwner : ∀ e ∈ es, HasOwner g.graph e) :
    Formed names declared (es.foldl (addEntity path) g) := by
  induction es generalizing g with
  | nil => exact h
  | cons e es ih =>
      refine ih (formed_addEntity h (hDeclared e (List.mem_cons_self ..))
        (hOwner e (List.mem_cons_self ..))) (fun e he => hDeclared e (List.mem_cons_of_mem _ he))
        fun e he hMember => ?_
      obtain ⟨type, hType, n, hn, hNode⟩ := hOwner e (List.mem_cons_of_mem _ he) hMember
      exact ⟨type, hType, n, mem_nodes_addEntity path _ hn, hNode⟩

/-- The members of a type come when there is a node for the type, be it that of another type of the
same name. -/
theorem formed_addType {path : String} {g : ChangeGraph} {s : Java.Subject} {p : Java.Place}
    (h : Formed names declared g) (hDeclared : ∀ e ∈ s.entitiesOfType p, declared e) :
    Formed names declared ((s.entitiesOfType p).foldl (addEntity path) g) := by
  have hType := s.isType_typeEntity p
  have hNone (graph : Graph) : HasOwner graph (s.typeEntity p) := by
    rintro (hKind | hKind) <;> rw [hKind] at hType <;> cases hType
  obtain ⟨members, hEntities⟩ : ∃ members, s.entitiesOfType p = s.typeEntity p :: members :=
    ⟨_, rfl⟩
  have hOwners : ∀ e ∈ members, e ∈ s.entitiesOfType p := by
    intro e he
    rw [hEntities]
    exact List.mem_cons_of_mem _ he
  rw [hEntities] at hDeclared
  rw [hEntities, List.foldl_cons]
  refine formed_foldl_addEntity (formed_addEntity h (hDeclared _ (List.mem_cons_self ..)) (hNone _))
    (fun e he => hDeclared e (List.mem_cons_of_mem _ he)) ?_
  intro e he
  rcases Java.Subject.of_mem_entitiesOfType (hOwners e he) with rfl | ⟨hRevision, hOwner, _⟩
  · exact hNone _
  · intro _
    obtain ⟨n, hn, hKind, hName⟩ := exists_node_addEntity path g (s.typeEntity p)
    refine ⟨_, hOwner, n, hn, by rw [hKind]; exact hType, ?_⟩
    rw [hName, hRevision]
    rfl

theorem formed_addSource {g : ChangeGraph} {s : Java.Subject} (h : Formed names declared g)
    (hDeclared : ∀ e ∈ s.entities, declared e) : Formed names declared (g.addSource s) := by
  rw [addSource, Java.Subject.entities, List.foldl_append, List.foldl_flatMap]
  have hImports : Formed names declared
      (((s.unit.root.namedChildren.filter (·.isA .importDeclaration)).map s.importEntity).foldl
        (addEntity s.unit.path) g) := by
    refine formed_foldl_addEntity h (fun e he => hDeclared e (List.mem_append_left _ he)) ?_
    intro e he
    obtain ⟨t, _, rfl⟩ := List.mem_map.1 he
    rintro (hKind | hKind) <;> cases hKind
  refine List.foldlRecOn _ _ hImports fun g hg p hp => formed_addType hg fun e he => ?_
  exact hDeclared e (List.mem_append_right _ (List.mem_flatMap.2 ⟨p, hp, he⟩))

/-- What holds while a hunk is being placed: the graph is formed, and the hunk is one of those
that may leave marks. -/
structure Placing.Formed (names : List String) (declared : Entity → Prop) (p : Placing) :
    Prop where
  result : ChangeGraph.Formed names declared p.result
  name : p.hunk.name ∈ names

namespace Placing.Formed

variable {p : Placing} {s : Java.Subject}

theorem touch (h : p.Formed names declared) (n : Node) : (p.touch n).Formed names declared :=
  ⟨.mark n.id h.name h.result, h.name⟩

theorem define (h : p.Formed names declared) (kind : NodeKind) (name : String) :
    (p.define kind name).Formed names declared := by
  obtain ⟨_, _, _, hHunk⟩ := p.define_hunk kind name
  exact ⟨h.result, by rw [hHunk]; exact h.name⟩

theorem steady : Steady s (Placing.Formed names declared) where
  note _ h := ⟨.notes _ h.result, h.name⟩
  facts _ h := ⟨h.result, h.name⟩
  define kind name h := h.define kind name
  claim imported h := ⟨.importOwner _ h.result, (h.define .classType imported).name⟩
  touch _ _ h := h.touch _

end Placing.Formed

/-- The node of a hunk is added, touched, and put into its container. -/
theorem formed_addHunkNode {s : Java.Subject} {anchors : List Java.Place} {p p' : Placing}
    (h : p.Formed names declared) (hAdd : addHunkNode s anchors p = .ok p') :
    p'.Formed names declared := by
  obtain ⟨graph, n, hNode, rfl⟩ := addHunkNode_eq_ok hAdd
  have hAdded : Placing.Formed names declared
      ⟨{ p.result with graph }, p.settled (containerFor? s p.result.graph anchors)⟩ :=
    ⟨.hunkNode h.result rfl rfl hNode, h.name⟩
  have hTouched := hAdded.touch n
  cases containerFor? s p.result.graph anchors with
  | none => exact ⟨.notes _ hTouched.result, hTouched.name⟩
  | some c => exact ⟨.contain c.id n.id hTouched.result, hTouched.name⟩

theorem formed_placeHunk {s : Java.Subject} {g g' : ChangeGraph} {h : Hunk}
    (hFormed : Formed names declared g) (hName : HunkName.ofIndexes s.fileIndex h.index ∈ names)
    (hPlace : placeHunk s g h = .ok g') : Formed names declared g' := by
  have hAnchored : (anchored s g h).Formed names declared :=
    Placing.Formed.steady.anchored h ⟨hFormed, hName⟩
  rcases placeHunk_eq_ok hPlace with ⟨_, rfl⟩ | ⟨_, p, rfl, ⟨_, rfl⟩ | ⟨_, hAdd⟩⟩
  · exact hFormed
  · exact .hunk _ hAnchored.result
  · exact .hunk _ (formed_addHunkNode hAnchored hAdd).result

theorem formed_placeAll {subjects : List (Java.Subject × FileChange)} {g g' : ChangeGraph}
    (hFormed : Formed names declared g)
    (hNames : ∀ t ∈ subjects, ∀ h ∈ t.2.hunks, HunkName.ofIndexes t.1.fileIndex h.index ∈ names)
    (hPlace : placeAll subjects g = .ok g') : Formed names declared g' :=
  placeAll_invariant hFormed hPlace fun t ht h hh _ _ hg hStep =>
    formed_placeHunk hg (hNames t ht h hh) hStep

/-- An entity that some source declares. -/
def IsDeclared (e : Entity) : Prop :=
  ∃ content path unit revision fileIndex, Java.SourceUnit.parse content path = .ok unit ∧
    e ∈ (Java.Subject.ofUnit unit revision fileIndex).entities

/-- A declared field is named in full by its owner and its name, in which there is no point. -/
theorem IsDeclared.field_name {e : Entity} (h : IsDeclared e) (hField : e.kind = .field) :
    ∃ owner, e.owner = some owner ∧ e.qualifiedName = owner ++ "." ++ e.name ∧
      ¬ '.' ∈ e.name.toList := by
  obtain ⟨content, path, unit, revision, fileIndex, hParse, he⟩ := h
  rcases List.mem_append.1 he with he | he
  · obtain ⟨t, _, rfl⟩ := List.mem_map.1 he
    cases hField
  · obtain ⟨p, hp, he⟩ := List.mem_flatMap.1 he
    rcases Java.Subject.of_mem_entitiesOfType he with rfl | ⟨_, hOwner, hName⟩
    · have hType := (Java.Subject.ofUnit unit revision fileIndex).isType_typeEntity p
      rw [hField] at hType
      cases hType
    · obtain ⟨hQualified, m, hm, hMember⟩ := hName hField
      have hHolds := (Java.SourceUnit.holds_of_parse hParse).of_mem_types hp
      exact ⟨_, hOwner, hQualified, (hHolds.of_mem_members hm).not_mem_declaredFields hMember⟩

/-- Sources that can be read are those of files of the change. -/
theorem exists_of_mem_readable {folderPath : String} {folder : Folder} {files : List FileChange}
    {t : Java.Subject × FileChange}
    (h : t ∈ readable folderPath (ChangedSource.inFolder folder files)) :
    t.2 ∈ files ∧ t.1.fileIndex = t.2.index ∧ ∀ e ∈ t.1.entities, IsDeclared e := by
  obtain ⟨source, hSource, hRead⟩ := List.mem_filterMap.1 h
  obtain ⟨found, _, hFound⟩ := List.mem_filterMap.1 hSource
  obtain ⟨change, hChange, rfl⟩ := Option.map_eq_some_iff.1 hFound
  obtain ⟨subject, hSubject, rfl⟩ := Option.map_eq_some_iff.1 hRead
  refine ⟨mem_of_fileAt? hChange, ?_⟩
  unfold ChangedSource.subject at hSubject
  cases hParse : Java.SourceUnit.parse found.2
      (ChangedSource.shownPath folderPath ⟨Path.ofParts found.1, _, change, found.2⟩) with
  | error e =>
      rw [hParse] at hSubject
      cases hSubject
  | ok unit =>
      rw [hParse] at hSubject
      cases hSubject
      exact ⟨rfl, fun e he => ⟨_, _, _, _, _, hParse, he⟩⟩

section Build

variable {rootPath : String} {root : Folder} {path : List String} {files : List FileChange}
  {g : ChangeGraph}

theorem formed_of_placeAll {placed : ChangeGraph}
    (hPlaced : placeAll (subjectsIn rootPath root path files)
      (ChangeGraph.declared (subjectsIn rootPath root path files)
        (notesAhead rootPath root path files)) = .ok placed) :
    Formed (hunkNames files) IsDeclared placed := by
  have hDeclared : Formed (hunkNames files) IsDeclared
      (ChangeGraph.declared (subjectsIn rootPath root path files)
        (notesAhead rootPath root path files)) := by
    refine List.foldlRecOn _ _ (.notes _ .empty) fun g hg s hs => ?_
    obtain ⟨t, ht, rfl⟩ := List.mem_map.1 hs
    exact formed_addSource hg (exists_of_mem_readable ht).2.2
  refine formed_placeAll hDeclared (fun t ht h hh => ?_) hPlaced
  obtain ⟨hFile, hIndex, _⟩ := exists_of_mem_readable ht
  rw [hIndex]
  exact List.mem_flatMap.2 ⟨t.2, hFile, List.mem_map_of_mem hh⟩

/-- A graph that was built is a formed one with its edges drawn and one more note. -/
theorem exists_formed_of_build (h : build rootPath root path files = .ok g) :
    ∃ placed n, Formed (hunkNames files) IsDeclared placed ∧ g = placed.wire.note n := by
  obtain ⟨placed, n, hPlaced, rfl⟩ := exists_placed_of_build h
  exact ⟨placed, n, formed_of_placeAll hPlaced, rfl⟩

end Build

end ChangeSplit.ChangeGraph
