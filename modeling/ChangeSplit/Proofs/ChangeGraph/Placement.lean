import ChangeSplit.ChangeGraph.Build
import ChangeSplit.Proofs.Collection.Traversal
import ChangeSplit.Proofs.Graph.Built

/-! What placing a hunk and building a graph come to, in all cases. A hunk goes over its anchors
first. If none of them took it, it gets a node of its own, and in the end it is put into the
pool. -/

namespace ChangeSplit.ChangeGraph

open Java

/-- A hunk of a source before it is placed. -/
def pooled (s : Subject) (h : Hunk) : PooledHunk where
  name := HunkName.ofIndexes s.fileIndex h.index
  revision := s.revision
  fileIndex := s.fileIndex
  package := s.unit.package
  covered := coveredBy s h

/-- The places to which a hunk of a source is put down. -/
def anchors (s : Subject) (h : Hunk) : List Place := anchorsOf (coveredBy s h)

/-- The hunk placed on its anchors. -/
def anchored (s : Subject) (g : ChangeGraph) (h : Hunk) : Placing :=
  (anchors s h).foldl (Placing.onAnchor s) ⟨g, pooled s h⟩

namespace Placing

/-- The graph with the hunk, once it is placed. -/
def finish (p : Placing) : ChangeGraph :=
  { p.result with pool := p.result.pool.addHunk p.hunk }

@[simp] theorem finish_graph (p : Placing) : p.finish.graph = p.result.graph := rfl

/-- Keeping the name of what the hunk declares leaves all else of the hunk alone. -/
theorem define_hunk (p : Placing) (kind : NodeKind) (name : String) :
    ∃ typeNames fieldNames methodNames, (p.define kind name).hunk =
      { p.hunk with typeNames, fieldNames, methodNames } := by
  unfold define
  split
  case isTrue => exact ⟨_, _, _, rfl⟩
  case isFalse => split <;> exact ⟨_, _, _, rfl⟩

/-- An imported name belongs to the hunk. -/
def claim (p : Placing) (s : Subject) (imported : String) : Placing :=
  let owner : ImportOwner := ⟨imported, s.revision, s.fileIndex, p.result.pool.hunks.length⟩
  { result := { p.result with pool := p.result.pool.addImportOwner owner }
    hunk := (p.define .classType imported).hunk }

/-- The hunk as it stands in its container. -/
def settled (p : Placing) (container : Option Node) : PooledHunk :=
  { p.hunk with
    owner := container.bind (·.owner)
    member := container.bind (·.member) }

/-- The graph once a node of its own was added for the hunk. -/
def onOwn (p : Placing) (container : Option Node) (graph : Graph) (n : Node) : Placing :=
  let q := touch ⟨{ p.result with graph }, p.settled container⟩ n
  match container with
  | none => { q with result := q.result.note (.detached p.hunk.name) }
  | some c =>
      { q with result := { q.result with graph := q.result.graph.addEdge c.id n.id .contains } }

end Placing

/-- What the own node of a hunk is. -/
def ownLabel (h : PooledHunk) : NodeLabel where
  kind := .hunk
  identifier := h.name
  name := h.key
  revision := h.revision
  package := some h.package
  owner := h.owner
  member := h.member

variable {s : Subject} {g g' : ChangeGraph} {h : Hunk} {p p' : Placing} {e : Blocked}

theorem onImport_eq (s : Subject) (p : Placing) (place : Place) :
    p.onImport s place =
      let imported := (importParts s.unit place.node).1
      let q := p.claim s imported
      match q.result.graph.find? .imported
          (s.revision.scope (toString s.fileIndex ++ "#" ++ imported)) with
      | some n => q.touch n
      | none => q := by
  unfold Placing.onImport
  cases importParts s.unit place.node
  rfl

theorem addHunkNode_eq (s : Subject) (places : List Place) (p : Placing) :
    addHunkNode s places p =
      match p.result.graph.addNode
          (ownLabel (p.settled (containerFor? s p.result.graph places))) with
      | .error d => .error ⟨d, p.result.notes⟩
      | .ok (graph, n) => .ok (p.onOwn (containerFor? s p.result.graph places) graph n) := by
  unfold addHunkNode
  dsimp only
  generalize containerFor? s p.result.graph places = container
  change (match p.result.graph.addNode (ownLabel (p.settled container)) with
    | .error e => _ | .ok (graph, n) => _) = _
  cases p.result.graph.addNode (ownLabel (p.settled container)) with
  | error d => rfl
  | ok added => cases container <;> rfl

theorem addHunkNode_of_addNode {places : List Place} {graph : Graph} {n : Node}
    (h : p.result.graph.addNode
      (ownLabel (p.settled (containerFor? s p.result.graph places))) = .ok (graph, n)) :
    addHunkNode s places p = .ok (p.onOwn (containerFor? s p.result.graph places) graph n) := by
  rw [addHunkNode_eq, h]

theorem addHunkNode_eq_ok {places : List Place} (h : addHunkNode s places p = .ok p') :
    ∃ graph n, p.result.graph.addNode
        (ownLabel (p.settled (containerFor? s p.result.graph places))) = .ok (graph, n) ∧
      p' = p.onOwn (containerFor? s p.result.graph places) graph n := by
  rw [addHunkNode_eq] at h
  split at h
  case h_1 => cases h
  case h_2 graph n hAdd =>
    cases h
    exact ⟨graph, n, hAdd, rfl⟩

theorem addHunkNode_eq_error {places : List Place} (h : addHunkNode s places p = .error e) :
    e.notes = p.result.notes ∧ ∃ d, p.result.graph.addNode
        (ownLabel (p.settled (containerFor? s p.result.graph places))) = .error d := by
  rw [addHunkNode_eq] at h
  split at h
  case h_1 d hAdd =>
    cases h
    exact ⟨rfl, d, hAdd⟩
  case h_2 => cases h

theorem placeHunk_of_nil (hNil : anchors s h = []) (g : ChangeGraph) :
    placeHunk s g h = .ok g := by
  have hEmpty : (anchorsOf (coveredBy s h)).isEmpty = true := List.isEmpty_iff.2 hNil
  simp [placeHunk, hEmpty]

theorem placeHunk_of_ne_nil (hAnchors : anchors s h ≠ []) (g : ChangeGraph) :
    placeHunk s g h =
      if (anchored s g h).hunk.anchors.isEmpty then
        (addHunkNode s (anchors s h) (anchored s g h)).map Placing.finish
      else .ok (anchored s g h).finish := by
  have hEmpty : (anchorsOf (coveredBy s h)).isEmpty = false := by
    simpa [anchors] using hAnchors
  unfold placeHunk
  extract_lets covered places hunk placed placed'
  rw [if_neg (by simp [places, covered, hEmpty])]
  change (if placed.hunk.anchors.isEmpty then addHunkNode s places placed else .ok placed).map
    Placing.finish = _
  rw [apply_ite (Except.map Placing.finish)]
  rfl

/-- Placing a hunk does nothing, or puts it on its anchors, or on its own node. -/
theorem placeHunk_eq_ok (hPlace : placeHunk s g h = .ok g') :
    anchors s h = [] ∧ g' = g ∨
      anchors s h ≠ [] ∧ ∃ p, g' = p.finish ∧
        ((anchored s g h).hunk.anchors ≠ [] ∧ p = anchored s g h ∨
          (anchored s g h).hunk.anchors = [] ∧
            addHunkNode s (anchors s h) (anchored s g h) = .ok p) := by
  by_cases hNil : anchors s h = []
  · rw [placeHunk_of_nil hNil] at hPlace
    cases hPlace
    exact .inl ⟨hNil, rfl⟩
  · rw [placeHunk_of_ne_nil hNil] at hPlace
    right
    refine ⟨hNil, ?_⟩
    split at hPlace
    case isTrue hEmpty =>
      cases hAdd : addHunkNode s (anchors s h) (anchored s g h) with
      | error e =>
          rw [hAdd] at hPlace
          cases hPlace
      | ok p =>
          rw [hAdd] at hPlace
          cases hPlace
          exact ⟨p, rfl, .inr ⟨List.isEmpty_iff.1 hEmpty, rfl⟩⟩
    case isFalse hEmpty =>
      cases hPlace
      exact ⟨_, rfl, .inl ⟨fun hNone => hEmpty (List.isEmpty_iff.2 hNone), rfl⟩⟩

theorem placeHunk_eq_error (hPlace : placeHunk s g h = .error e) :
    anchors s h ≠ [] ∧ (anchored s g h).hunk.anchors = [] ∧
      addHunkNode s (anchors s h) (anchored s g h) = .error e := by
  by_cases hNil : anchors s h = []
  · rw [placeHunk_of_nil hNil] at hPlace
    cases hPlace
  · rw [placeHunk_of_ne_nil hNil] at hPlace
    refine ⟨hNil, ?_⟩
    split at hPlace
    case isTrue hEmpty =>
      refine ⟨List.isEmpty_iff.1 hEmpty, ?_⟩
      cases hAdd : addHunkNode s (anchors s h) (anchored s g h) with
      | error d =>
          rw [hAdd] at hPlace
          cases hPlace
          rfl
      | ok p =>
          rw [hAdd] at hPlace
          cases hPlace
    case isFalse => cases hPlace

/-- Whether a node is found in a revision, be it by its name or by its label. -/
structure Finds (g : Graph) (r : Revision) (n : Node) : Prop where
  mem : n ∈ g.nodes
  revision : n.revision = r ∨ ∃ name, n.name = r.scope name

section Finds

variable {graph : Graph} {r : Revision} {n : Node}

theorem finds_of_find? {kind : NodeKind} {name : String}
    (h : graph.find? kind (r.scope name) = some n) : Finds graph r n := by
  have hTest := List.find?_some h
  simp only [Bool.and_eq_true, decide_eq_true_eq] at hTest
  exact ⟨List.mem_of_find?_eq_some h, .inr ⟨name, hTest.2⟩⟩

theorem finds_of_nodeFor? {i : Identity} (h : nodeFor? graph r i = some n) :
    Finds graph r n := by
  cases hNamed : graph.find? i.kind (r.scope i.qualifiedName) with
  | some m =>
      rw [nodeFor?, hNamed] at h
      cases h
      exact finds_of_find? hNamed
  | none =>
      rw [nodeFor?, hNamed] at h
      have hTest := List.find?_some h
      simp only [Bool.and_eq_true, decide_eq_true_eq] at hTest
      exact ⟨List.mem_of_find?_eq_some h, .inl hTest.1.2⟩

theorem kind_of_find? {kind : NodeKind} {name : String} (h : graph.find? kind name = some n) :
    n.kind = kind := by
  have hTest := List.find?_some h
  simp only [Bool.and_eq_true, decide_eq_true_eq] at hTest
  exact hTest.1

theorem kind_of_nodeFor? {i : Identity} (h : nodeFor? graph r i = some n) : n.kind = i.kind := by
  cases hNamed : graph.find? i.kind (r.scope i.qualifiedName) with
  | some m =>
      rw [nodeFor?, hNamed] at h
      cases h
      exact kind_of_find? hNamed
  | none =>
      rw [nodeFor?, hNamed] at h
      have hTest := List.find?_some h
      simp only [Bool.and_eq_true, decide_eq_true_eq] at hTest
      exact hTest.1.1

/-- Hunks are not declared. -/
theorem kind_ne_hunk_of_mem_identities {place : Place} {i : Identity}
    (hi : i ∈ s.identities place) : i.kind ≠ .hunk := by
  unfold Subject.identities identities at hi
  extract_lets t kind at hi
  split at hi
  case isTrue =>
    rw [List.mem_singleton.1 hi]
    show kind ≠ .hunk
    unfold kind
    split <;> decide
  case isFalse =>
    split at hi
    case h_1 => cases hi
    case h_2 owner rest _ =>
      split at hi
      case isTrue =>
        rw [List.mem_singleton.1 hi]
        exact NodeKind.noConfusion
      case isFalse =>
        obtain ⟨name, _, rfl⟩ := List.mem_map.1 hi
        exact NodeKind.noConfusion

theorem finds_of_containerFor? {places : List Place}
    (h : containerFor? s graph places = some n) : Finds graph s.revision n := by
  obtain ⟨d, _, hNode⟩ := List.exists_of_findSome?_eq_some h
  obtain ⟨i, _, hNode⟩ := Option.bind_eq_some_iff.1 hNode
  exact finds_of_nodeFor? hNode

end Finds

/-- What outlasts every step of a hunk of a source over its anchors. The nodes that it touches on
the way stand for what is declared or imported. -/
structure Steady (s : Subject) (motive : Placing → Prop) : Prop where
  note {p : Placing} (n : Note) (hp : motive p) : motive { p with result := p.result.note n }
  facts {p : Placing} (facts : Facts) (hp : motive p) :
    motive { p with hunk := { p.hunk with facts } }
  define {p : Placing} (kind : NodeKind) (name : String) (hp : motive p) :
    motive (p.define kind name)
  claim {p : Placing} (imported : String) (hp : motive p) : motive (p.claim s imported)
  touch {p : Placing} {n : Node} (hKind : n.kind ≠ .hunk)
    (hn : Finds p.result.graph s.revision n) (hp : motive p) : motive (p.touch n)

namespace Steady

variable {motive : Placing → Prop}

theorem onImport (h : Steady s motive) (hp : motive p) (place : Place) :
    motive (p.onImport s place) := by
  have hClaim := h.claim (importParts s.unit place.node).1 hp
  rw [onImport_eq]
  dsimp only
  split
  case h_1 n hFound =>
    exact h.touch (by rw [kind_of_find? hFound]; decide) (finds_of_find? hFound) hClaim
  case h_2 => exact hClaim

theorem onEntities (h : Steady s motive) (hp : motive p) {identities : List Identity}
    (hKinds : ∀ i ∈ identities, i.kind ≠ .hunk) : motive (p.onEntities s identities) := by
  induction identities generalizing p with
  | nil => exact hp
  | cons i rest ih =>
      unfold Placing.onEntities
      split
      case h_1 => exact h.note _ hp
      case h_2 n hFound =>
        have hKind : n.kind ≠ .hunk := by
          rw [kind_of_nodeFor? hFound]
          exact hKinds i (List.mem_cons_self ..)
        exact ih (h.touch hKind (finds_of_nodeFor? hFound) (h.define _ _ hp)) fun j hj =>
          hKinds j (List.mem_cons_of_mem _ hj)

theorem onAnchor (h : Steady s motive) (hp : motive p) (place : Place) :
    motive (p.onAnchor s place) := by
  unfold Placing.onAnchor
  split
  case isTrue => exact h.onImport hp place
  case isFalse =>
    split
    case isTrue => exact h.facts _ hp
    case isFalse => exact h.onEntities hp fun _ hi => kind_ne_hunk_of_mem_identities hi

theorem anchored (h : Steady s motive) (hunk : Hunk) (hStart : motive ⟨g, pooled s hunk⟩) :
    motive (anchored s g hunk) :=
  List.foldlRecOn _ _ hStart fun _ hp place _ => h.onAnchor hp place

end Steady

section Build

/-- What placing any one hunk preserves, placing all of them preserves. -/
theorem placeAll_invariant {motive : ChangeGraph → Prop} {subjects : List (Subject × FileChange)}
    (hStart : motive g) (hPlace : placeAll subjects g = .ok g')
    (hStep : ∀ t ∈ subjects, ∀ h ∈ t.2.hunks, ∀ g g', motive g → placeHunk t.1 g h = .ok g' →
      motive g') : motive g' :=
  foldlM_invariant hStart hPlace fun t ht _ _ hg hHunks =>
    foldlM_invariant hg hHunks fun h hh g g' hg hOne => hStep t ht h hh g g' hg hOne

/-- The sources of a change that can be read, as far as they lie in a part of a tree of files. -/
def subjectsIn (rootPath : String) (root : Folder) (path : List String) (files : List FileChange) :
    List (Subject × FileChange) :=
  readable (Path.ofParts (rootPath :: path)) (ChangedSource.inFolder (root.subfolder path) files)

/-- The graph once some sources were taken in, before any hunk is placed. -/
def declared (subjects : List (Subject × FileChange)) (notes : List Note) : ChangeGraph :=
  (subjects.map (·.1)).foldl addSource { notes }

/-- What taking in any one entity preserves, taking in all sources preserves. -/
theorem declared_invariant {motive : ChangeGraph → Prop} {subjects : List (Subject × FileChange)}
    {notes : List Note} (hStart : motive { notes })
    (hStep : ∀ path g e, motive g → motive (addEntity path g e)) :
    motive (declared subjects notes) :=
  List.foldlRecOn _ _ hStart fun _ hg s _ =>
    List.foldlRecOn _ _ hg fun g hg e _ => hStep s.unit.path g e hg

variable {rootPath : String} {root : Folder} {path : List String} {files : List FileChange}

/-- What there is to note before any source is taken in. -/
def notesAhead (rootPath : String) (root : Folder) (path : List String)
    (files : List FileChange) : List Note :=
  let sources := ChangedSource.inFolder (root.subfolder path) files
  .foundSources sources.length (Path.ofParts (rootPath :: path)) ::
    skippedNotes (Path.ofParts (rootPath :: path)) sources

/-- Building takes in the sources, places all hunks and draws the edges. -/
theorem build_eq (rootPath : String) (root : Folder) (path : List String)
    (files : List FileChange) :
    build rootPath root path files =
      if root.isFolder path then
        match placeAll (subjectsIn rootPath root path files)
            (declared (subjectsIn rootPath root path files)
              (notesAhead rootPath root path files)) with
        | .error e => .error (.blocked e)
        | .ok placed => .ok (placed.wire.note (.built placed.wire.graph.nodes.length
            placed.wire.graph.edges.length placed.wire.graph.touched.length))
      else .error (.noFolder (Path.ofParts (rootPath :: path))) := by
  unfold build
  cases hFolder : root.isFolder path with
  | false => rfl
  | true =>
      rw [declared, List.foldl_map]
      unfold ofSources
      dsimp only [Bool.not_true]
      simp only [subjectsIn, notesAhead, if_true]
      generalize placeAll _ _ = outcome
      cases outcome <;> rfl

theorem exists_placed_of_build (hBuild : build rootPath root path files = .ok g) :
    ∃ placed n, placeAll (subjectsIn rootPath root path files)
        (declared (subjectsIn rootPath root path files)
          (notesAhead rootPath root path files)) = .ok placed ∧ g = placed.wire.note n := by
  rw [build_eq] at hBuild
  split at hBuild
  case isFalse => cases hBuild
  case isTrue =>
    split at hBuild
    case h_1 => cases hBuild
    case h_2 placed hPlaced =>
      cases hBuild
      exact ⟨placed, _, hPlaced, rfl⟩

end Build

end ChangeSplit.ChangeGraph
