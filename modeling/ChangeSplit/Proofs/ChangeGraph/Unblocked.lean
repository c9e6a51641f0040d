import ChangeSplit.Proofs.ChangeGraph.Noted
import ChangeSplit.Proofs.ChangeGraph.Source
import ChangeSplit.Proofs.ChangeGraph.Step
import ChangeSplit.Proofs.Diff.HunkName

/-! A graph is built without fail as long as every hunk is placed at most once in each revision.
Only the own nodes of hunks are ever refused, and no other nodes have their names. What the sources
hold makes no difference, and those that cannot be read might as well not be there. -/

namespace ChangeSplit

namespace Graph

/-- Whether no hunk has a node of its own under a name. -/
def Free (g : Graph) (name : String) : Prop := ∀ n ∈ g.nodes, n.kind = .hunk → n.name ≠ name

variable {g g' : Graph} {name : String}

theorem Free.mark (h : g.Free name) (id : Nat) (hunk : String) : (g.mark id hunk).Free name := by
  intro n hn
  obtain ⟨m, hm, hLabel, _⟩ := same_of_mem_mark hn
  rw [hLabel]
  exact h m hm

theorem Free.addNode (h : g.Free name) {label : NodeLabel} {n : Node}
    (hLabel : label.kind = .hunk → label.name ≠ name)
    (hAdd : g.addNode label = .ok (g', n)) : g'.Free name := by
  obtain ⟨_, rfl, rfl⟩ := addNode_eq_ok hAdd
  intro m hm
  rcases List.mem_append.1 hm with hm | hm
  · exact h m hm
  · rw [List.mem_singleton.1 hm]
    exact hLabel

end Graph

namespace ChangeGraph

open Java

variable {g g' : ChangeGraph} {s : Subject} {name : String}

theorem free_declared (subjects : List (Subject × FileChange)) (notes : List Note)
    (name : String) : (declared subjects notes).graph.Free name := by
  refine declared_invariant (motive := fun g => g.graph.Free name) (List.forall_mem_nil _)
    fun path g e hg => ?_
  unfold addEntity
  split
  case h_1 => exact hg
  case h_2 graph n hAdd => exact hg.addNode (fun hKind => absurd hKind e.kind_ne_hunk) hAdd

/-- No anchor takes a name that is free. -/
theorem free_anchored (hFree : g.graph.Free name) (s : Subject) (h : Hunk) :
    (anchored s g h).result.graph.Free name := by
  have hSteady : Steady s fun p => p.result.graph.Free name := {
    note := fun _ hp => hp
    facts := fun _ hp => hp
    define := fun _ _ hp => hp
    claim := fun _ hp => hp
    touch := fun _ _ hp => hp.mark _ _ }
  exact hSteady.anchored h hFree

theorem key_anchored (s : Subject) (g : ChangeGraph) (h : Hunk) :
    (anchored s g h).hunk.key = (pooled s h).key := by
  have hDefine {p : Placing} (kind : NodeKind) (name : String) :
      (p.define kind name).hunk.key = p.hunk.key := by
    obtain ⟨_, _, _, hHunk⟩ := p.define_hunk kind name
    rw [hHunk]
    rfl
  have hSteady : Steady s fun p => p.hunk.key = (pooled s h).key := {
    note := fun _ hp => hp
    facts := fun _ hp => hp
    define := fun kind name hp => (hDefine kind name).trans hp
    claim := fun imported hp => (hDefine .classType imported).trans hp
    touch := fun _ _ hp => hp }
  exact hSteady.anchored h rfl

/-- A hunk is placed if the name of its own node is free. No other name is taken by that. -/
theorem exists_placeHunk {h : Hunk} (hFree : g.graph.Free (pooled s h).key) :
    ∃ g', placeHunk s g h = .ok g' ∧
      ∀ name, name ≠ (pooled s h).key → g.graph.Free name → g'.graph.Free name := by
  cases hPlace : placeHunk s g h with
  | error e =>
      obtain ⟨_, _, hAdd⟩ := placeHunk_eq_error hPlace
      obtain ⟨_, d, hNode⟩ := addHunkNode_eq_error hAdd
      obtain ⟨n, hn, hKind, hName⟩ := Graph.exists_node_of_addNode_error hNode
      exact absurd (hName.trans (key_anchored s g h)) (free_anchored hFree s h n hn hKind)
  | ok g' =>
      refine ⟨g', rfl, fun name hNe hName => ?_⟩
      have hAnchored := free_anchored hName s h
      rcases placeHunk_eq_ok hPlace with ⟨_, rfl⟩ | ⟨_, p, rfl, ⟨_, rfl⟩ | ⟨_, hAdd⟩⟩
      · exact hName
      · exact hAnchored
      · obtain ⟨graph, n, hNode, rfl⟩ := addHunkNode_eq_ok hAdd
        have hOwn : graph.Free name :=
          hAnchored.addNode (fun _ hSame => hNe (hSame.symm.trans (key_anchored s g h))) hNode
        cases containerFor? s (anchored s g h).result.graph (anchors s h) with
        | none => exact hOwn.mark _ _
        | some c => exact hOwn.mark _ _

/-- The hunks of some sources, each with its source, in the order in which they are placed. -/
def assignments (subjects : List (Subject × FileChange)) : List (Subject × Hunk) :=
  subjects.flatMap fun t => t.2.hunks.map (t.1, ·)

/-- The name that the own node of a hunk has, or would have. -/
def ownName (a : Subject × Hunk) : String := (pooled a.1 a.2).key

theorem ownName_inj {a b : Subject × Hunk} (h : ownName a = ownName b) :
    a.1.revision = b.1.revision ∧ a.1.fileIndex = b.1.fileIndex ∧ a.2.index = b.2.index := by
  obtain ⟨hRevision, hName⟩ := Revision.scope_inj h
  have hIndexes := HunkName.ofIndexes_inj (String.append_right_inj "hunk#" |>.1 hName)
  exact ⟨hRevision, hIndexes⟩

theorem placeAll_eq (subjects : List (Subject × FileChange)) (g : ChangeGraph) :
    placeAll subjects g = (assignments subjects).foldlM (fun g a => placeHunk a.1 g a.2) g := by
  unfold placeAll placeHunks assignments
  induction subjects generalizing g with
  | nil => rfl
  | cons t rest ih =>
      rw [List.foldlM_cons, List.flatMap_cons, List.foldlM_append, List.foldlM_map]
      simp only [ih]

/-- All hunks are placed if no two of them share the name of a node. -/
theorem exists_placeAll {subjects : List (Subject × FileChange)}
    (hNodup : ((assignments subjects).map ownName).Nodup)
    (hFree : ∀ a ∈ assignments subjects, g.graph.Free (ownName a)) :
    ∃ g', placeAll subjects g = .ok g' := by
  rw [placeAll_eq]
  refine exists_foldlM_ok (fun rest g => (rest.map ownName).Nodup ∧
    ∀ a ∈ rest, g.graph.Free (ownName a)) ⟨hNodup, hFree⟩ fun a rest g ⟨hNodup, hFree⟩ => ?_
  rw [List.map_cons, List.nodup_cons] at hNodup
  obtain ⟨g', hPlace, hOthers⟩ := exists_placeHunk (hFree a (List.mem_cons_self ..))
  refine ⟨g', hPlace, hNodup.2, fun b hb => ?_⟩
  refine hOthers _ (fun hSame => hNodup.1 ?_) (hFree b (List.mem_cons_of_mem _ hb))
  exact List.mem_map.2 ⟨b, hb, hSame⟩

/-- Sources of different files in one revision have hunks of different names. -/
theorem nodup_map_ownName {subjects : List (Subject × FileChange)}
    (hApart : subjects.Pairwise fun t u =>
      t.1.revision = u.1.revision → t.1.fileIndex ≠ u.1.fileIndex)
    (hHunks : ∀ t ∈ subjects, (t.2.hunks.map (·.index)).Nodup) :
    ((assignments subjects).map ownName).Nodup := by
  rw [assignments, List.Nodup, List.pairwise_map, List.pairwise_flatMap]
  refine ⟨fun t ht => ?_, hApart.imp fun hNe a ha b hb hSame => ?_⟩
  · rw [List.pairwise_map]
    exact (List.pairwise_map.1 (hHunks t ht)).imp fun hNe hSame => hNe (ownName_inj hSame).2.2
  · obtain ⟨_, _, rfl⟩ := List.mem_map.1 ha
    obtain ⟨_, _, rfl⟩ := List.mem_map.1 hb
    obtain ⟨hRevision, hIndex, _⟩ := ownName_inj hSame
    exact hNe hRevision hIndex

/-- Whether all that a graph of a change points at is there: names of nodes can be read, and numbers
are those of nodes, or of hunks in the pool. -/
structure Resolved (g : ChangeGraph) : Prop where
  named : g.graph.Scoped
  closed : g.graph.Closed
  entities : ∀ e ∈ g.pool.entities, ∃ n ∈ g.graph.nodes, e.node = some n.id
  hunks : ∀ h ∈ g.pool.hunks, ∃ n ∈ g.graph.nodes, h.node = some n.id
  owners : ∀ o ∈ g.pool.importOwners, ∃ h, g.pool.hunks[o.hunk]? = some h

/-- Placing a hunk puts at most this one into the pool, once it has touched a node. -/
theorem hunks_placeHunk {h : Hunk} (hPlace : placeHunk s g h = .ok g') :
    g'.pool.hunks = g.pool.hunks ∨ ∃ hunk, g'.pool.hunks = g.pool.hunks ++ [hunk] ∧
      hunk.key = (pooled s h).key ∧ hunk.anchors ≠ [] := by
  have hSteady : Steady s fun p => p.result.pool.hunks = g.pool.hunks := {
    note := fun _ hp => hp
    facts := fun _ hp => hp
    define := fun _ _ hp => hp
    claim := fun _ hp => hp
    touch := fun _ _ hp => hp }
  have hOld : (anchored s g h).result.pool.hunks = g.pool.hunks := hSteady.anchored h rfl
  have hKey := key_anchored s g h
  rcases placeHunk_eq_ok hPlace with ⟨_, rfl⟩ | ⟨_, p, rfl, ⟨hTaken, rfl⟩ | ⟨_, hAdd⟩⟩
  · exact .inl rfl
  · exact .inr ⟨_, congrArg (· ++ [_]) hOld, hKey, hTaken⟩
  · obtain ⟨graph, n, _, rfl⟩ := addHunkNode_eq_ok hAdd
    right
    cases containerFor? s (anchored s g h).result.graph (anchors s h) with
    | none => exact ⟨_, congrArg (· ++ [_]) hOld, hKey, by simp [Placing.onOwn, Placing.touch]⟩
    | some c => exact ⟨_, congrArg (· ++ [_]) hOld, hKey, by simp [Placing.onOwn, Placing.touch]⟩

theorem touched_placeHunk (h : ∀ hunk ∈ g.pool.hunks, hunk.anchors ≠ []) {hunk : Hunk}
    (hPlace : placeHunk s g hunk = .ok g') : ∀ hunk ∈ g'.pool.hunks, hunk.anchors ≠ [] := by
  rcases hunks_placeHunk hPlace with hSame | ⟨new, hNew, _, hTouched⟩
  · rwa [hSame]
  · rw [hNew]
    exact List.forall_mem_append.2 ⟨h, List.forall_mem_singleton.2 hTouched⟩

theorem touched_placeAll {subjects : List (Subject × FileChange)}
    (h : ∀ hunk ∈ g.pool.hunks, hunk.anchors ≠ []) (hPlace : placeAll subjects g = .ok g') :
    ∀ hunk ∈ g'.pool.hunks, hunk.anchors ≠ [] :=
  placeAll_invariant (motive := fun g => ∀ hunk ∈ g.pool.hunks, hunk.anchors ≠ []) h hPlace
    fun _ _ _ _ _ _ hg hStep => touched_placeHunk hg hStep

/-- Taking in sources puts no hunk into the pool. -/
theorem hunks_declared (subjects : List (Subject × FileChange)) (notes : List Note) :
    (declared subjects notes).pool.hunks = [] := by
  refine declared_invariant (motive := fun g => g.pool.hunks = []) rfl fun path g e hg => ?_
  unfold addEntity
  split
  case h_1 => exact hg
  case h_2 => exact hg

/-- Nor does it draw any edge. -/
theorem edges_declared (subjects : List (Subject × FileChange)) (notes : List Note) :
    (declared subjects notes).graph.edges = [] := by
  refine declared_invariant (motive := fun g => g.graph.edges = []) rfl fun path g e hg => ?_
  unfold addEntity
  split
  case h_1 => exact hg
  case h_2 hAdd =>
    obtain ⟨_, _, rfl⟩ := Graph.addNode_eq_ok hAdd
    exact hg

section Build

variable {rootPath : String} {root : Folder} {path : List String} {files : List FileChange}

/-- Everything that a graph points at is there once the graph is built. -/
theorem resolved_of_build (hBuild : build rootPath root path files = .ok g) : g.Resolved := by
  obtain ⟨placed, note, hPlaced, rfl⟩ := exists_placed_of_build hBuild
  have hFormed := formed_of_placeAll hPlaced
  have hApart : Apart placed := apart_placeAll (apart_declared _ _) hPlaced
  have hTouched : ∀ h ∈ placed.pool.hunks, h.anchors ≠ [] :=
    touched_placeAll (by rw [hunks_declared]; exact List.forall_mem_nil _) hPlaced
  have hNodes : placed.wire.graph.nodes = placed.graph.nodes := wire_nodes placed
  have hNode {r : Revision} {id : Nat} (hId : id ∈ placed.graph.numbers r) :
      ∃ n ∈ placed.wire.graph.nodes, n.id = id := by
    obtain ⟨n, hn, _, hSame⟩ := Graph.mem_numbers.1 hId
    exact ⟨n, hNodes ▸ hn, hSame⟩
  constructor
  case named =>
    intro n hn
    exact hFormed.scoped_graph n (hNodes ▸ hn)
  case closed =>
    intro e he
    obtain ⟨r, hSource, hTarget⟩ := hApart.joinsWithin_wire e he
    rw [Graph.numbers, hNodes] at hSource hTarget
    exact ⟨hNode hSource, hNode hTarget⟩
  case entities =>
    intro e he
    obtain ⟨_, n, hn, hId, _⟩ := hFormed.exists_node he
    exact ⟨n, hNodes ▸ hn, hId⟩
  case hunks =>
    intro h hh
    obtain ⟨n, hn, hOn, _⟩ := hApart.exists_node hh (hTouched h hh)
    exact ⟨n, hNodes ▸ hn, hOn⟩
  case owners =>
    intro o ho
    obtain ⟨h, hHunk, _⟩ := hApart.owned o ho
    exact ⟨h, hHunk⟩

theorem subjectsIn_legible (rootPath : String) (root : Folder) (path : List String)
    (files : List FileChange) :
    subjectsIn (Path.ofParts (rootPath :: path)) ((root.subfolder path).legible files) [] files =
      subjectsIn rootPath root path files := by
  have hPath : Path.ofParts [Path.ofParts (rootPath :: path)] = Path.ofParts (rootPath :: path) :=
    rfl
  have hTop : ((root.subfolder path).legible files).subfolder [] =
      (root.subfolder path).legible files := root.subfolder_filter path _
  rw [subjectsIn, hPath, hTop, ChangedSource.inFolder_legible, subjectsIn, readable, readable,
    List.filterMap_filter]
  congr 1
  funext source
  rw [← source.isSome_subject (Path.ofParts (rootPath :: path))]
  cases (source.subject (Path.ofParts (rootPath :: path))).toOption <;> rfl

/-- Sources of different files have hunks of different names. -/
theorem nodup_assignments_subjectsIn (hFiles : (files.map (·.index)).Nodup)
    (hHunks : ∀ f ∈ files, (f.hunks.map (·.index)).Nodup)
    (hSources : (ChangedSource.inFolder (root.subfolder path) files).Pairwise fun a b =>
      a.revision = b.revision → a.change ≠ b.change) :
    ((assignments (subjectsIn rootPath root path files)).map ownName).Nodup := by
  refine nodup_map_ownName ?_ fun t ht => hHunks t.2 (exists_of_mem_readable ht).1
  rw [subjectsIn, readable, List.pairwise_filterMap]
  refine hSources.imp_of_mem fun {a b} ha hb hNe t ht u hu hRevision hIndex => ?_
  obtain ⟨_, hSubject, rfl⟩ := Option.map_eq_some_iff.1 ht
  obtain ⟨_, hSubject', rfl⟩ := Option.map_eq_some_iff.1 hu
  obtain ⟨hSame, hChange⟩ := ChangedSource.of_subject hSubject
  obtain ⟨hSame', hChange'⟩ := ChangedSource.of_subject hSubject'
  rw [hSame, hSame'] at hRevision
  rw [hChange, hChange'] at hIndex
  exact hNe hRevision (List.inj_on_of_nodup_map hFiles (ChangedSource.change_mem ha)
    (ChangedSource.change_mem hb) hIndex)

/-- A graph is built from any sources, as long as each file of the change has at most one of them in
each revision and hunks are told apart by their indexes. All that the graph points at is there, and
sources that cannot be read change nothing but what there is to note. -/
theorem build_unblocked (hFolder : root.isFolder path = true)
    (hFiles : (files.map (·.index)).Nodup)
    (hHunks : ∀ f ∈ files, (f.hunks.map (·.index)).Nodup)
    (hSources : (ChangedSource.inFolder (root.subfolder path) files).Pairwise fun a b =>
      a.revision = b.revision → a.change ≠ b.change) :
    ∃ g, build rootPath root path files = .ok g ∧ g.Resolved ∧
      ∃ h, build (Path.ofParts (rootPath :: path)) ((root.subfolder path).legible files) [] files =
          .ok h ∧
        h.graph = g.graph ∧ h.pool = g.pool := by
  have hNames : ((assignments (subjectsIn rootPath root path files)).map ownName).Nodup :=
    nodup_assignments_subjectsIn hFiles hHunks hSources
  obtain ⟨placed, hPlaced⟩ := exists_placeAll hNames
    fun a _ => free_declared _ (notesAhead rootPath root path files) (ownName a)
  have hBuild := build_eq rootPath root path files
  rw [if_pos hFolder, hPlaced] at hBuild
  refine ⟨_, hBuild, resolved_of_build hBuild, ?_⟩
  have hTop : ((root.subfolder path).legible files).isFolder [] = true := rfl
  obtain ⟨placed', hPlaced', hAlike⟩ := (Alike.declared (subjectsIn rootPath root path files)
    (notesAhead rootPath root path files)
    (notesAhead (Path.ofParts (rootPath :: path)) ((root.subfolder path).legible files) [] files)
    ).placeAll hPlaced
  have hBuild' := build_eq (Path.ofParts (rootPath :: path)) ((root.subfolder path).legible files)
    [] files
  rw [if_pos hTop, subjectsIn_legible, hPlaced'] at hBuild'
  exact ⟨_, hBuild', hAlike.wire.graph, hAlike.wire.pool⟩

/-- A class with a statement in a method, a file that declares the class again, and one that ends
too early. -/
def tornFolder : Folder := ⟨[
  (["current", "A.java"], Utf8.encode "class A\x7bvoid f()\x7b\ng();\n\x7d\x7d"),
  (["current", "B.java"], Utf8.encode "class A\x7bint x; int x;\x7d"),
  (["current", "C.java"], Utf8.encode "class C\x7b")]⟩

/-- A change of all three. The first hunk is that of the statement, the second one ends before it
begins, and the third one lies behind the end of its file. -/
def tornChange : List FileChange := [
  { index := 0, currentPath := some "A.java"
    hunks := [{ index := 0, current := ⟨2, 2, ["g();"]⟩ }] },
  { index := 1, currentPath := some "B.java"
    hunks := [{ index := 0, current := ⟨1, -3, ["class A\x7bint x; int x;\x7d"]⟩ },
      { index := 1, current := ⟨7, 9, ["int x;"]⟩ }] },
  { index := 2, currentPath := some "C.java"
    hunks := [{ index := 0, current := ⟨1, 1, ["class C\x7b"]⟩ }] }]

/-- The class, the method and the field get one node each, and so does the hunk in the method. -/
theorem build_unblocked_torn :
    (tornFolder.legible tornChange).files = tornFolder.files.take 2 ∧
      ∃ g h, build "" tornFolder [] tornChange = .ok g ∧ g.Resolved ∧
        build "" (tornFolder.legible tornChange) [] tornChange = .ok h ∧
        g.graph.nodes.map (·.kind) = [.classType, .method, .field, .hunk] ∧
        h.graph = g.graph ∧ h.pool = g.pool := by
  have hLegible : (tornFolder.legible tornChange).files = tornFolder.files.take 2 := by
    decide +kernel
  have hKinds : ∀ g ∈ (build "" tornFolder [] tornChange).toOption.toList,
      g.graph.nodes.map (·.kind) = [.classType, .method, .field, .hunk] := by decide +kernel
  obtain ⟨g, hBuild, hResolved, h, hBuild', hGraph, hPool⟩ :=
    @build_unblocked "" tornFolder [] tornChange rfl (by decide) (by decide) (by decide +kernel)
  exact ⟨hLegible, g, h, hBuild, hResolved, hBuild', hKinds g (mem_toOption_iff.2 hBuild), hGraph,
    hPool⟩

end Build

end ChangeGraph

end ChangeSplit
