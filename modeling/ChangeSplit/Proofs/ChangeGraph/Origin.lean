import ChangeSplit.Proofs.ChangeGraph.Mark

/-! Where the marks on declarations come from. A hunk marks a declared entity only if it is put down
to a place of the same revision that declares an entity with the same full name. -/

namespace ChangeSplit.ChangeGraph

open Java

/-- Whether a hunk of a source is put down to a place that declares an entity of the kind with the
full name. -/
def PutDown (s : Subject) (h : Hunk) (kind : NodeKind) (fullName : String) : Prop :=
  ∃ a ∈ anchors s h, ∃ i ∈ s.identities a, i.kind = kind ∧ i.qualifiedName = fullName

/-- Whether a mark comes from a hunk of some source that is put down to an entity with the kind and
the key. -/
def Traced (subjects : List (Subject × FileChange)) (kind : NodeKind) (key hunk : String) : Prop :=
  ∃ t ∈ subjects, ∃ h ∈ t.2.hunks, hunk = HunkName.ofIndexes t.1.fileIndex h.index ∧
    ∃ fullName, PutDown t.1 h kind fullName ∧ key = t.1.revision.scope fullName

/-- What holds while the hunks of some sources are placed: nodes of declared entities are there, and
the marks on them come from hunks that are put down to the entities. -/
structure Origins (subjects : List (Subject × FileChange)) (g : ChangeGraph) : Prop where
  sure : Sure (subjects.map (·.1)) g
  built : g.graph.Built
  traced : ∀ n ∈ g.graph.nodes, n.kind ≠ .imported → n.kind ≠ .hunk → ∀ hunk ∈ n.marks,
    Traced subjects n.kind n.name hunk

variable {subjects : List (Subject × FileChange)} {g g' : ChangeGraph} {t : Subject × FileChange}
  {p : Placing} {n : Node} {h : Hunk}

namespace Origins

theorem touch (hOrigins : Origins subjects p.result) (hn : n ∈ p.result.graph.nodes)
    (hMark : n.kind ≠ .imported → n.kind ≠ .hunk → Traced subjects n.kind n.name p.hunk.name) :
    Origins subjects (p.touch n).result where
  sure := Placing.sure_touch hOrigins.sure n
  built := .mark _ _ hOrigins.built
  traced := by
    intro m hm hImport hHunk hunk hName
    obtain ⟨k, hk, ⟨rfl, _⟩ | ⟨rfl, hId⟩⟩ := Graph.mem_mark_nodes hm
    · exact hOrigins.traced m hk hImport hHunk hunk hName
    · obtain rfl := hOrigins.built.eq_of_id hk hn hId
      rcases OrderedSet.mem_insert.1 hName with rfl | hOld
      · exact hMark hImport hHunk
      · exact hOrigins.traced k hk hImport hHunk hunk hOld

/-- Only the nodes and the notes count. -/
theorem congr (hOrigins : Origins subjects g) (hGraph : g'.graph = g.graph)
    (hNotes : g'.notes = g.notes) : Origins subjects g' where
  sure := hOrigins.sure.keeps (hGraph ▸ .refl _) hNotes
  built := hGraph ▸ hOrigins.built
  traced := hGraph ▸ hOrigins.traced

theorem onImport {s : Subject} (hOrigins : Origins subjects p.result) (place : Place) :
    Origins subjects (p.onImport s place).result := by
  have hClaim : Origins subjects (p.claim s (importParts s.unit place.node).1).result :=
    hOrigins.congr rfl rfl
  rw [onImport_eq]
  dsimp only
  split
  case h_1 n hFound =>
    refine hClaim.touch (finds_of_find? hFound).mem fun hImport => ?_
    exact absurd (kind_of_find? hFound) hImport
  case h_2 => exact hClaim

theorem onEntities {s : Subject} (hOrigins : Origins subjects p.result)
    {identities : List Identity} (hNodes : ∀ i ∈ identities,
      (p.result.graph.find? i.kind (s.revision.scope i.qualifiedName)).isSome = true)
    (hMark : ∀ i ∈ identities,
      Traced subjects i.kind (s.revision.scope i.qualifiedName) p.hunk.name) :
    Origins subjects (p.onEntities s identities).result := by
  induction identities generalizing p with
  | nil => exact hOrigins
  | cons i rest ih =>
    obtain ⟨hHere, hRest⟩ := List.forall_mem_cons.1 hNodes
    obtain ⟨hMarkHere, hMarkRest⟩ := List.forall_mem_cons.1 hMark
    obtain ⟨n, hn⟩ := Option.isSome_iff_exists.1 hHere
    have hFound : nodeFor? p.result.graph s.revision i = some n := by simp [nodeFor?, hn]
    have hTest := List.find?_some hn
    simp only [Bool.and_eq_true, decide_eq_true_eq] at hTest
    simp only [Placing.onEntities, hFound]
    have hDefined : Origins subjects (p.define i.kind (n.entityName?.getD "")).result :=
      hOrigins.congr rfl rfl
    have hName : (p.define i.kind (n.entityName?.getD "")).hunk.name = p.hunk.name := by
      obtain ⟨_, _, _, hHunk⟩ := p.define_hunk i.kind (n.entityName?.getD "")
      rw [hHunk]
    refine ih (hDefined.touch (List.mem_of_find?_eq_some hn) fun _ _ => ?_) (fun j hj => ?_)
      fun j hj => ?_
    · rw [hTest.1, hTest.2, hName]
      exact hMarkHere
    · exact (Graph.Keeps.mark _ _ _).isSome_find? (hRest j hj)
    · show Traced subjects j.kind _ (p.define i.kind (n.entityName?.getD "")).hunk.name
      rw [hName]
      exact hMarkRest j hj

theorem onAnchor (hOrigins : Origins subjects p.result) (ht : t ∈ subjects) (hh : h ∈ t.2.hunks)
    (hName : p.hunk.name = HunkName.ofIndexes t.1.fileIndex h.index) {a : Place}
    (ha : a ∈ anchors t.1 h) : Origins subjects (p.onAnchor t.1 a).result := by
  obtain ⟨hMem, hSort⟩ := mem_everything_of_mem_anchors ha
  unfold Placing.onAnchor
  split
  case isTrue => exact hOrigins.onImport a
  case isFalse hImport =>
    split
    case isTrue => exact hOrigins.congr rfl rfl
    case isFalse hStatement =>
      have hNamed := (hSort.resolve_left hImport).resolve_left hStatement
      refine hOrigins.onEntities
        (hOrigins.sure.nodes t.1 (List.mem_map_of_mem ht) a hMem hNamed) fun i hi => ?_
      exact ⟨t, ht, h, hh, hName, i.qualifiedName, ⟨a, ha, i, hi, rfl, rfl⟩, rfl⟩

theorem anchored (hOrigins : Origins subjects g) (ht : t ∈ subjects) (hh : h ∈ t.2.hunks) :
    Origins subjects (anchored t.1 g h).result := by
  let name := HunkName.ofIndexes t.1.fileIndex h.index
  have hDefine {p : Placing} (kind : NodeKind) (defined : String) (hp : p.hunk.name = name) :
      (p.define kind defined).hunk.name = name := by
    obtain ⟨_, _, _, hHunk⟩ := p.define_hunk kind defined
    rw [hHunk]
    exact hp
  have hSteady : Steady t.1 fun p => p.hunk.name = name := {
    note := fun _ hp => hp
    facts := fun _ hp => hp
    define := hDefine
    claim := fun imported hp => hDefine .classType imported hp
    touch := fun _ _ hp => hp }
  refine (List.foldlRecOn (motive := fun p : Placing =>
    Origins subjects p.result ∧ p.hunk.name = name) _ _ ⟨hOrigins, rfl⟩ ?_).1
  intro p hp a ha
  exact ⟨hp.1.onAnchor ht hh hp.2 ha, hSteady.onAnchor hp.2 a⟩

theorem onOwn (hOrigins : Origins subjects p.result) {label : NodeLabel} {graph : Graph}
    (hKind : label.kind = .hunk) (hAdd : p.result.graph.addNode label = .ok (graph, n))
    (container : Option Node) : Origins subjects (p.onOwn container graph n).result := by
  obtain ⟨hNewKind, hNew, hOld⟩ : n.kind = .hunk ∧ n ∈ graph.nodes ∧
      ∀ m ∈ graph.nodes, m ∈ p.result.graph.nodes ∨ m = n := by
    obtain ⟨_, rfl, rfl⟩ := Graph.addNode_eq_ok hAdd
    exact ⟨hKind, by simp, fun m hm => by simpa using hm⟩
  have hAdded : Origins subjects { p.result with graph } := {
    sure := hOrigins.sure.keeps (.addNode hAdd) rfl
    built := .addNode hOrigins.built hAdd
    traced := by
      intro m hm hImport hHunk
      rcases hOld m hm with hm | rfl
      · exact hOrigins.traced m hm hImport hHunk
      · exact absurd hNewKind hHunk }
  have hTouched := touch (p := ⟨{ p.result with graph }, p.settled container⟩) hAdded hNew
    fun _ hHunk => absurd hNewKind hHunk
  have hSure : Sure (subjects.map (·.1)) (p.onOwn container graph n).result :=
    Placing.sure_onOwn hOrigins.sure hAdd
  cases container with
  | none => exact ⟨hSure, hTouched.built, hTouched.traced⟩
  | some c => exact ⟨hSure, .addEdge _ _ _ hTouched.built, hTouched.traced⟩

theorem placeHunk (hOrigins : Origins subjects g) (ht : t ∈ subjects) (hh : h ∈ t.2.hunks)
    (hPlace : placeHunk t.1 g h = .ok g') : Origins subjects g' := by
  have hAnchored := hOrigins.anchored ht hh
  rcases placeHunk_eq_ok hPlace with ⟨_, rfl⟩ | ⟨_, p, rfl, ⟨_, rfl⟩ | ⟨_, hAdd⟩⟩
  · exact hOrigins
  · exact hAnchored.congr rfl rfl
  · obtain ⟨graph, n, hNode, rfl⟩ := addHunkNode_eq_ok hAdd
    exact (hAnchored.onOwn rfl hNode _).congr rfl rfl

theorem placeAll (hOrigins : Origins subjects g) (hPlace : placeAll subjects g = .ok g') :
    Origins subjects g' :=
  placeAll_invariant hOrigins hPlace fun _ ht _ hh _ _ hg hStep => hg.placeHunk ht hh hStep

end Origins

section Build

variable {rootPath : String} {root : Folder} {path : List String} {files : List FileChange}

theorem origins_declared (rootPath : String) (root : Folder) (path : List String)
    (files : List FileChange) : Origins (subjectsIn rootPath root path files)
      (declared (subjectsIn rootPath root path files)
        (notesAhead rootPath root path files)) where
  sure := by
    refine sure_foldl_addSource (fun s hs => ?_) fun n hn => ?_
    · obtain ⟨t, ht, rfl⟩ := List.mem_map.1 hs
      exact readable_of_mem_readable ht
    · rcases List.mem_cons.1 hn with rfl | hn
      · rfl
      · obtain ⟨source, _, hSkipped⟩ := List.mem_filterMap.1 hn
        split at hSkipped <;> cases hSkipped
        rfl
  built := declared_invariant (motive := fun g => g.graph.Built) .empty fun path g e hg => by
    unfold addEntity
    split
    case h_1 => exact hg
    case h_2 hAdd => exact .addNode hg hAdd
  traced n hn _ _ hunk hName := absurd ⟨n, hn, hName⟩ (not_marked_declared _ _ hunk)

/-- In a graph that was built, there is a node for all that the declarations of the sources declare,
and every mark on such a node comes from a hunk that is put down to the entity. -/
theorem origins_build (hBuild : build rootPath root path files = .ok g) :
    (∀ t ∈ subjectsIn rootPath root path files, HasNodes t.1 g.graph) ∧ g.graph.Built ∧
      ∀ n ∈ g.graph.nodes, n.kind ≠ .imported → n.kind ≠ .hunk → ∀ hunk ∈ n.marks,
        Traced (subjectsIn rootPath root path files) n.kind n.name hunk := by
  obtain ⟨placed, note, hPlaced, rfl⟩ := exists_placed_of_build hBuild
  have hOrigins := (origins_declared rootPath root path files).placeAll hPlaced
  have hNodes : (placed.wire.note note).graph.nodes = placed.graph.nodes := wire_nodes placed
  refine ⟨fun t ht => (hOrigins.sure.nodes t.1 (List.mem_map_of_mem ht)).mono ?_,
    built_wire hOrigins.built, ?_⟩
  · intro n hn
    exact ⟨n, hNodes ▸ hn, rfl, rfl⟩
  · rw [hNodes]
    exact hOrigins.traced

end Build

end ChangeSplit.ChangeGraph
