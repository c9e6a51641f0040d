import ChangeSplit.Proofs.ChangeGraph.Mark
import ChangeSplit.Proofs.ChangeGraph.Record
import ChangeSplit.Proofs.ChangeGraph.Unblocked

/-! What is known of a change agrees with its graph. A hunk that touches a node leaves its mark
there and keeps the number of the node. One that touches nothing that is declared or imported gets
a node of its own, and no other hunk does. -/

namespace ChangeSplit

namespace PooledHunk

variable {h : PooledHunk} {g g' : Graph}

/-- Whether a hunk touched nodes of declarations and imports only. -/
def OnDeclared (h : PooledHunk) (g : Graph) : Prop :=
  ∀ id ∈ h.anchors, ∃ n ∈ g.nodes, n.id = id ∧ n.kind ≠ .hunk

/-- Whether a hunk touched its own node and nothing else. -/
def OnOwn (h : PooledHunk) (g : Graph) : Prop :=
  ∃ n ∈ g.nodes, n.kind = .hunk ∧ n.name = h.key ∧ h.anchors = [n.id]

theorem OnDeclared.mono (hOn : h.OnDeclared g) (hKeeps : g.Keeps g') : h.OnDeclared g' := by
  intro id hId
  obtain ⟨n, hn, hSame, hKind⟩ := hOn id hId
  obtain ⟨m, hm, hLabel, hNumber⟩ := hKeeps n hn
  exact ⟨m, hm, hNumber.trans hSame, by rwa [hLabel]⟩

theorem OnOwn.mono (hOn : h.OnOwn g) (hKeeps : g.Keeps g') : h.OnOwn g' := by
  obtain ⟨n, hn, hKind, hName, hAnchors⟩ := hOn
  obtain ⟨m, hm, hLabel, hNumber⟩ := hKeeps n hn
  exact ⟨m, hm, by rwa [hLabel], by rwa [hLabel], by rwa [hNumber]⟩

end PooledHunk

namespace Graph

variable {g g' : Graph} {hunks : List PooledHunk} {a b : PooledHunk} {n : Node}

/-- Whether nodes carry the marks of the hunks of their revision that touched them and no others. -/
def MarkedBy (g : Graph) (hunks : List PooledHunk) : Prop :=
  ∀ n ∈ g.nodes, ∀ name, name ∈ n.marks ↔
    ∃ h ∈ hunks, h.revision = n.revision ∧ h.name = name ∧ n.id ∈ h.anchors

namespace MarkedBy

/-- A hunk that touched nothing yet makes no difference. -/
theorem concat (h : g.MarkedBy hunks) (hNone : a.anchors = []) : g.MarkedBy (hunks ++ [a]) := by
  intro n hn name
  rw [h n hn name]
  simp [or_and_right, exists_or, hNone]

/-- It makes no difference either what a hunk declares and refers to. -/
theorem setLast (h : g.MarkedBy (hunks ++ [a])) (hRevision : b.revision = a.revision)
    (hName : b.name = a.name) (hAnchors : b.anchors = a.anchors) : g.MarkedBy (hunks ++ [b]) := by
  intro n hn name
  rw [h n hn name]
  simp [or_and_right, exists_or, hRevision, hName, hAnchors]

/-- Nobody has touched a new node. -/
theorem addNode {label : NodeLabel} (h : g.MarkedBy hunks) (hAdd : g.addNode label = .ok (g', n))
    (hNew : ∀ hunk ∈ hunks, n.id ∉ hunk.anchors) : g'.MarkedBy hunks := by
  obtain ⟨_, hNode, rfl⟩ := addNode_eq_ok hAdd
  intro m hm name
  rcases List.mem_append.1 hm with hm | hm
  · exact h m hm name
  · rw [List.mem_singleton.1 hm]
    refine iff_of_false ?_ fun ⟨hunk, hHunk, _, _, hId⟩ => hNew hunk hHunk hId
    rw [hNode]
    exact OrderedSet.not_mem_empty name

/-- The mark goes to the node that the hunk touches, and the number of the node to the hunk. -/
theorem mark (h : g.MarkedBy (hunks ++ [a])) (hBuilt : g.Built) (hn : n ∈ g.nodes)
    (hSame : a.revision = n.revision) (hRevision : b.revision = a.revision)
    (hName : b.name = a.name) (hAnchors : b.anchors = a.anchors ++ [n.id]) :
    (g.mark n.id a.name).MarkedBy (hunks ++ [b]) := by
  intro m hm name
  obtain ⟨k, hk, ⟨rfl, hId⟩ | ⟨rfl, hId⟩⟩ := mem_mark_nodes hm
  · rw [h m hk name]
    simp [or_and_right, exists_or, hRevision, hName, hAnchors, hId]
  · obtain rfl := hBuilt.eq_of_id hk hn hId
    have hMarks : name ∈ (k.mark a.name).marks ↔ a.name = name ∨ name ∈ k.marks :=
      OrderedSet.mem_insert.trans (or_congr_left eq_comm)
    rw [hMarks, h k hk name]
    by_cases hOwn : a.name = name
    · simp [or_and_right, exists_or, hRevision, hName, hAnchors, Node.mark, hSame, hOwn]
    · simp [or_and_right, exists_or, hName, Node.mark, hOwn]

end MarkedBy

/-- Whether the own nodes in a graph are those of hunks that touched nothing else, and all other
hunks touched only what is declared or imported. -/
structure Houses (g : Graph) (hunks : List PooledHunk) : Prop where
  own : ∀ n ∈ g.nodes, n.kind = .hunk → ∃ h ∈ hunks, h.key = n.name ∧ h.anchors = [n.id]
  hunks : ∀ h ∈ hunks, h.OnDeclared g ∨ h.OnOwn g

namespace Houses

theorem mark (h : g.Houses hunks) (id : Nat) (name : String) : (g.mark id name).Houses hunks where
  own := by
    intro n hn hKind
    obtain ⟨m, hm, hLabel, hId, _⟩ := same_of_mem_mark hn
    rw [hLabel] at hKind
    rw [hLabel, hId]
    exact h.own m hm hKind
  hunks := fun hunk hHunk => (h.hunks hunk hHunk).imp (·.mono (.mark g id name))
    (·.mono (.mark g id name))

theorem concat (h : g.Houses hunks) (hDeclared : a.OnDeclared g) : g.Houses (hunks ++ [a]) where
  own := by
    intro n hn hKind
    obtain ⟨hunk, hHunk, hOwn⟩ := h.own n hn hKind
    exact ⟨hunk, List.mem_append_left _ hHunk, hOwn⟩
  hunks := List.forall_mem_append.2 ⟨h.hunks, List.forall_mem_singleton.2 (.inl hDeclared)⟩

theorem addNode (h : g.Houses hunks) {label : NodeLabel} (hAdd : g.addNode label = .ok (g', n))
    (hKind : label.kind = .hunk) (hName : label.name = a.key) (hAnchors : a.anchors = [n.id]) :
    g'.Houses (hunks ++ [a]) where
  own := by
    obtain ⟨_, hNode, rfl⟩ := addNode_eq_ok hAdd
    intro m hm hHunk
    rcases List.mem_append.1 hm with hm | hm
    · obtain ⟨hunk, hMem, hOwn⟩ := h.own m hm hHunk
      exact ⟨hunk, List.mem_append_left _ hMem, hOwn⟩
    · obtain rfl := List.mem_singleton.1 hm
      refine ⟨a, List.mem_append_right _ (List.mem_singleton.2 rfl), ?_, hAnchors⟩
      rw [hNode]
      exact hName.symm
  hunks := by
    have hKeeps := Keeps.addNode hAdd
    refine List.forall_mem_append.2 ⟨fun hunk hHunk => ?_, List.forall_mem_singleton.2 (.inr ?_)⟩
    · exact (h.hunks hunk hHunk).imp (·.mono hKeeps) (·.mono hKeeps)
    · obtain ⟨_, hNode, rfl⟩ := addNode_eq_ok hAdd
      refine ⟨n, List.mem_append_right _ (List.mem_singleton.2 rfl), ?_, ?_, hAnchors⟩
      · rw [hNode]
        exact hKind
      · rw [hNode]
        exact hName

end Houses

end Graph

namespace ChangeGraph

open Java

variable {g g' : ChangeGraph} {s : Subject}

/-- Whether the hunks in the pool agree with the marks and the own nodes in the graph. -/
structure Settled (g : ChangeGraph) : Prop where
  marks : g.graph.MarkedBy g.pool.hunks
  houses : g.graph.Houses g.pool.hunks

theorem settled_declared (subjects : List (Subject × FileChange)) (notes : List Note) :
    Settled (declared subjects notes) := by
  have hHunks := hunks_declared subjects notes
  constructor
  case marks =>
    intro n hn name
    rw [hHunks]
    refine iff_of_false (fun hName => ?_) (by simp)
    exact not_marked_declared subjects notes name ⟨n, hn, hName⟩
  case houses =>
    rw [hHunks]
    refine ⟨fun n hn hKind => ?_, List.forall_mem_nil _⟩
    exact absurd rfl (free_declared subjects notes n.name n hn hKind)

namespace Placing

/-- What holds while a hunk is placed on its anchors: marks are as if it was in the pool already,
and it has touched only what is declared or imported. -/
structure Settles (s : Subject) (p : Placing) : Prop where
  apart : p.Apart s
  marks : p.finish.graph.MarkedBy p.finish.pool.hunks
  houses : p.result.graph.Houses p.result.pool.hunks
  declared : p.hunk.OnDeclared p.result.graph

namespace Settles

variable {p : Placing} {n : Node}

theorem define (h : p.Settles s) (kind : NodeKind) (name : String) :
    (p.define kind name).Settles s := by
  obtain ⟨_, _, _, hHunk⟩ := p.define_hunk kind name
  refine ⟨h.apart.define kind name, h.marks.setLast ?_ ?_ ?_, h.houses, ?_⟩
  all_goals rw [hHunk]
  exact h.declared

theorem claim (h : p.Settles s) (imported : String) : (p.claim s imported).Settles s := by
  have hDefined := h.define .classType imported
  exact ⟨h.apart.claim imported, hDefined.marks, h.houses, hDefined.declared⟩

theorem touch (h : p.Settles s) (hKind : n.kind ≠ .hunk) (hn : Finds p.result.graph s.revision n) :
    (p.touch n).Settles s where
  apart := h.apart.touch hn
  marks := by
    have hRevision : p.hunk.revision = n.revision :=
      h.apart.revision.trans (h.apart.finish.revision_of_finds hn).symm
    exact h.marks.mark h.apart.finish.built hn.mem hRevision rfl rfl rfl
  houses := h.houses.mark n.id p.hunk.name
  declared := by
    have hKeeps := Graph.Keeps.mark p.result.graph n.id p.hunk.name
    intro id hId
    rcases List.mem_append.1 hId with hId | hId
    · exact h.declared.mono hKeeps id hId
    · obtain ⟨m, hm, hLabel, hSame⟩ := hKeeps n hn.mem
      rw [List.mem_singleton.1 hId]
      exact ⟨m, hm, hSame, by rwa [hLabel]⟩

theorem steady (s : Subject) : Steady s (Placing.Settles s) where
  note note h := ⟨h.apart.note note, h.marks, h.houses, h.declared⟩
  facts facts h := ⟨(Placing.Apart.steady s).facts facts h.apart, h.marks.setLast rfl rfl rfl,
    h.houses, h.declared⟩
  define kind name h := h.define kind name
  claim imported h := h.claim imported
  touch hKind hn h := h.touch hKind hn

theorem finish (h : p.Settles s) : p.finish.Settled := ⟨h.marks, h.houses.concat h.declared⟩

/-- A hunk that touched nothing so far is settled on its own node. -/
theorem onOwn (h : p.Settles s) (hNone : p.hunk.anchors = []) {container : Option Node}
    {graph : Graph}
    (hAdd : p.result.graph.addNode (ownLabel (p.settled container)) = .ok (graph, n)) :
    (p.onOwn container graph n).finish.Settled := by
  have hBuilt := h.apart.finish.built
  have hNew : ∀ hunk ∈ p.finish.pool.hunks, n.id ∉ hunk.anchors := fun hunk hHunk hId =>
    hBuilt.id_notMem_numbers hAdd ((h.apart.finish.hunks hunk hHunk).anchors n.id hId)
  obtain ⟨hMem, hRevision⟩ : n ∈ graph.nodes ∧ p.hunk.revision = n.revision := by
    obtain ⟨hMem, hLabel⟩ := Graph.mem_addNode hAdd
    exact ⟨hMem, by rw [hLabel]; rfl⟩
  have hAdded : graph.MarkedBy (p.result.pool.hunks ++ [p.settled container]) :=
    (h.marks.addNode hAdd hNew).setLast rfl rfl rfl
  have hAnchors : (p.onOwn container graph n).hunk.anchors = [n.id] := by
    cases container <;> simp [Placing.onOwn, Placing.touch, Placing.settled, hNone]
  have hKey : (ownLabel (p.settled container)).name = (p.onOwn container graph n).hunk.key := by
    cases container <;> rfl
  have hHouses := (h.houses.addNode hAdd rfl hKey hAnchors).mark n.id p.hunk.name
  have hMarks : (graph.mark n.id p.hunk.name).MarkedBy
      (p.result.pool.hunks ++ [(p.onOwn container graph n).hunk]) := by
    cases container with
    | none => exact hAdded.mark (.addNode hBuilt hAdd) hMem hRevision rfl rfl rfl
    | some c => exact hAdded.mark (.addNode hBuilt hAdd) hMem hRevision rfl rfl rfl
  -- neither a note nor an edge has to do with nodes
  cases container with
  | none => exact ⟨hMarks, hHouses⟩
  | some c => exact ⟨hMarks, ⟨hHouses.own, hHouses.hunks⟩⟩

end Settles

end Placing

theorem settled_placeHunk (hApart : Apart g) (h : Settled g) {hunk : Hunk}
    (hPlace : placeHunk s g hunk = .ok g') : Settled g' := by
  have hStart : Placing.Settles s ⟨g, pooled s hunk⟩ :=
    ⟨apart_start hApart s hunk, h.marks.concat rfl, h.houses, List.forall_mem_nil _⟩
  have hAnchored := (Placing.Settles.steady s).anchored hunk hStart
  rcases placeHunk_eq_ok hPlace with ⟨_, rfl⟩ | ⟨_, p, rfl, ⟨_, rfl⟩ | ⟨hNone, hAdd⟩⟩
  · exact h
  · exact hAnchored.finish
  · obtain ⟨graph, n, hNode, rfl⟩ := addHunkNode_eq_ok hAdd
    exact hAnchored.onOwn hNone hNode

theorem settled_placeAll {subjects : List (Subject × FileChange)} (hApart : Apart g)
    (h : Settled g) (hPlace : placeAll subjects g = .ok g') : Settled g' := by
  refine (placeAll_invariant (motive := fun g => Apart g ∧ Settled g) ⟨hApart, h⟩ hPlace ?_).2
  exact fun _ _ _ _ _ _ ⟨hApart, h⟩ hStep =>
    ⟨apart_placeHunk hApart hStep, settled_placeHunk hApart h hStep⟩

/-- Hunks are put into the pool in the order in which they are placed, and each at most once. -/
theorem exists_keys_placeAll {subjects : List (Subject × FileChange)}
    (hPlace : placeAll subjects g = .ok g') :
    ∃ keys, keys.Sublist ((assignments subjects).map ownName) ∧
      g'.pool.hunks.map (·.key) = g.pool.hunks.map (·.key) ++ keys := by
  rw [placeAll_eq] at hPlace
  generalize assignments subjects = all at hPlace ⊢
  induction all generalizing g with
  | nil =>
      cases hPlace
      exact ⟨[], .slnil, (List.append_nil _).symm⟩
  | cons a rest ih =>
      rw [List.foldlM_cons] at hPlace
      obtain ⟨g₁, hFirst, hRest⟩ := exists_ok_of_bind hPlace
      obtain ⟨keys, hSub, hKeys⟩ := ih hRest
      rcases hunks_placeHunk hFirst with hSame | ⟨hunk, hNew, hKey, _⟩
      · exact ⟨keys, hSub.cons _, by rw [hKeys, hSame]⟩
      · refine ⟨ownName a :: keys, hSub.cons_cons _, ?_⟩
        rw [hKeys, hNew, List.map_append, List.append_assoc, List.map_singleton, hKey]
        rfl

end ChangeGraph

/-- Whether everything that is known of entities and hunks agrees with some nodes, and the ways to
look it up with each other. -/
structure Pool.Agrees (p : Pool) (nodes : List Node) : Prop where
  names : (nodes.map fun n => (n.kind, n.name)).Nodup
  /-- The table of a kind has one entry for each node of the kind. -/
  records : ∀ kind, kind ≠ .hunk →
    List.Forall₂ ChangeGraph.Records (nodes.filter (·.kind = kind)) (p.ofKind kind).entries
  methods : ∀ r owner name arity, (p.methodsNamed r owner name arity).Nodup ∧
    ∀ e, e ∈ p.methodsNamed r owner name arity ↔
      e ∈ (p.ofKind .method).values ∧ e.entity.revision = r ∧ e.entity.owner = some owner ∧
        e.entity.name = name ∧ Pool.arityOf e.entity = arity
  imports : ∀ r fileIndex, (p.fileImports r fileIndex).Nodup ∧
    ∀ e, e ∈ p.fileImports r fileIndex ↔
      e ∈ (p.ofKind .imported).values ∧ e.entity.revision = r ∧ e.entity.fileIndex = fileIndex
  hunks : (p.hunkTable.values.map fun h => (h.revision, h.name)).Nodup
  marks : ∀ n ∈ nodes, ∀ name, name ∈ n.marks ↔
    ∃ h ∈ p.hunkTable.values, h.revision = n.revision ∧ h.name = name ∧ n.id ∈ h.anchors
  last : ∀ h ∈ p.hunkTable.values, ∃ n ∈ nodes, h.node = some n.id ∧ h.anchors.getLast? = some n.id
  /-- A hunk has its own node just if it touched nothing that is declared or imported. -/
  own : ∀ h ∈ p.hunkTable.values, (∃ n ∈ nodes, n.kind = .hunk ∧ n.name = h.key) ↔
    ∀ n ∈ nodes, n.id ∈ h.anchors → n.kind = .hunk
  anchor : ∀ n ∈ nodes, n.kind = .hunk →
    ∃ h ∈ p.hunkTable.values, h.key = n.name ∧ h.anchors = [n.id]

namespace ChangeGraph

section Build

variable {rootPath : String} {root : Folder} {path : List String} {files : List FileChange}

theorem agrees_of_placeAll {placed : ChangeGraph} (hFiles : (files.map (·.index)).Nodup)
    (hHunks : ∀ f ∈ files, (f.hunks.map (·.index)).Nodup)
    (hSources : (ChangedSource.inFolder (root.subfolder path) files).Pairwise fun a b =>
      a.revision = b.revision → a.change ≠ b.change)
    (hPlaced : placeAll (subjectsIn rootPath root path files)
      (declared (subjectsIn rootPath root path files)
        (notesAhead rootPath root path files)) = .ok placed) :
    placed.pool.Agrees placed.graph.nodes := by
  have hFormed := formed_of_placeAll hPlaced
  have hApart : Apart placed := apart_placeAll (apart_declared _ _) hPlaced
  have hSettled := settled_placeAll (apart_declared _ _) (settled_declared _ _) hPlaced
  have hTouched : ∀ h ∈ placed.pool.hunks, h.anchors ≠ [] :=
    touched_placeAll (by rw [hunks_declared]; exact List.forall_mem_nil _) hPlaced
  have hKeys : (placed.pool.hunks.map (·.key)).Nodup := by
    obtain ⟨keys, hSub, hKeys⟩ := exists_keys_placeAll hPlaced
    rw [hKeys, hunks_declared]
    exact (nodup_assignments_subjectsIn hFiles hHunks hSources).sublist hSub
  have hValues : placed.pool.hunkTable.values = placed.pool.hunks := by
    rw [Table.values, Pool.hunkTable, Table.entries_foldl_put _ hKeys, List.map_map]
    exact List.map_id _
  have hLast (h : PooledHunk) (hh : h ∈ placed.pool.hunks) :
      ∃ n ∈ placed.graph.nodes, h.node = some n.id ∧ h.anchors.getLast? = some n.id :=
    hApart.exists_node hh (hTouched h hh)
  refine {
    names := hApart.built.nodup_names
    records := fun kind hKind => hFormed.records hKind
    methods := hFormed.keyed.mem_methodsNamed fun e he hMethod =>
      (hFormed.declared_of_mem he).owner_ne hMethod
    imports := hFormed.keyed.mem_fileImports
    hunks := ?hunks
    marks := hValues ▸ hSettled.marks
    last := hValues ▸ hLast
    own := ?own
    anchor := hValues ▸ hSettled.houses.own }
  case hunks =>
    rw [hValues]
    refine List.Nodup.of_map (fun p => p.1.scope ("hunk#" ++ p.2)) ?_
    rw [List.map_map]
    exact hKeys
  case own =>
    rw [hValues]
    intro h hh
    constructor
    · intro hNode m hm hId
      obtain ⟨n, hn, hKind, hName⟩ := hNode
      obtain ⟨h', hh', hKey, hAnchors⟩ := hSettled.houses.own n hn hKind
      obtain rfl := List.inj_on_of_nodup_map hKeys hh' hh (hKey.trans hName)
      rw [hAnchors, List.mem_singleton] at hId
      rw [hApart.built.eq_of_id hm hn hId]
      exact hKind
    · intro hOwn
      rcases hSettled.houses.hunks h hh with hDeclared | ⟨n, hn, hKind, hName, _⟩
      · obtain ⟨n, hn, _, hSome⟩ := hLast h hh
        obtain ⟨m, hm, hId, hKind⟩ := hDeclared n.id (List.mem_of_getLast? hSome)
        exact absurd (hOwn m hm (hId ▸ List.mem_of_getLast? hSome)) hKind
      · exact ⟨n, hn, hKind, hName⟩

/-- A graph that is built agrees with what is known of its entities and hunks, as long as each file
of the change has at most one source in each revision and hunks are told apart by their indexes. -/
theorem build_agrees (hFolder : root.isFolder path = true)
    (hFiles : (files.map (·.index)).Nodup)
    (hHunks : ∀ f ∈ files, (f.hunks.map (·.index)).Nodup)
    (hSources : (ChangedSource.inFolder (root.subfolder path) files).Pairwise fun a b =>
      a.revision = b.revision → a.change ≠ b.change) :
    ∃ g, build rootPath root path files = .ok g ∧ g.pool.Agrees g.graph.nodes := by
  have hNames : ((assignments (subjectsIn rootPath root path files)).map ownName).Nodup :=
    nodup_assignments_subjectsIn hFiles hHunks hSources
  obtain ⟨placed, hPlaced⟩ := exists_placeAll hNames
    fun a _ => free_declared _ (notesAhead rootPath root path files) (ownName a)
  have hBuild := build_eq rootPath root path files
  rw [if_pos hFolder, hPlaced] at hBuild
  refine ⟨_, hBuild, ?_⟩
  show placed.pool.Agrees placed.wire.graph.nodes
  rw [wire_nodes]
  exact agrees_of_placeAll hFiles hHunks hSources hPlaced

/-- A class with an import and two methods, and a file that declares the class again. -/
def pairFolder : Folder := ⟨[
  (["current", "A.java"],
    Utf8.encode "import p.B;\nclass A\x7b\nvoid f()\x7b\ng();\n\x7d\nvoid g()\x7b\x7d\n\x7d"),
  (["current", "B.java"], Utf8.encode "class A\x7bint x; int x;\x7d")]⟩

/-- A change of both. The first hunk spans the methods, the second one is that of the statement, the
third one that of the import, and the last one that of the class and its field. -/
def pairChange : List FileChange := [
  { index := 0, currentPath := some "A.java"
    hunks := [
      { index := 0, current := ⟨3, 6, ["void f()\x7b", "g();", "\x7d", "void g()\x7b\x7d"]⟩ },
      { index := 1, current := ⟨4, 4, ["g();"]⟩ },
      { index := 2, current := ⟨1, 1, ["import p.B;"]⟩ }] },
  { index := 1, currentPath := some "B.java"
    hunks := [{ index := 0, current := ⟨1, 1, ["class A\x7bint x; int x;\x7d"]⟩ }] }]

/-- Both methods are touched by the first hunk, and only the second one has a node of its own. -/
theorem build_agrees_pair :
    ∃ g, build "" pairFolder [] pairChange = .ok g ∧ g.pool.Agrees g.graph.nodes ∧
      g.graph.nodes.map (·.kind) = [.imported, .classType, .method, .method, .field, .hunk] ∧
      g.pool.hunks.map (·.anchors) = [[3, 4], [6], [1], [2]] := by
  have hAnchors : ∀ g ∈ (build "" pairFolder [] pairChange).toOption.toList,
      g.graph.nodes.map (·.kind) = [.imported, .classType, .method, .method, .field, .hunk] ∧
        g.pool.hunks.map (·.anchors) = [[3, 4], [6], [1], [2]] := by decide +kernel
  obtain ⟨g, hBuild, hAgrees⟩ :=
    @build_agrees "" pairFolder [] pairChange rfl (by decide) (by decide) (by decide +kernel)
  exact ⟨g, hBuild, hAgrees, hAnchors g (mem_toOption_iff.2 hBuild)⟩

end Build

end ChangeGraph

end ChangeSplit
