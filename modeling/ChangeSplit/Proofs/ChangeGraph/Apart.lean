import ChangeSplit.Proofs.ChangeGraph.Build
import ChangeSplit.Proofs.ChangeGraph.Part
import ChangeSplit.Proofs.ChangeGraph.Placement

/-! The graph of a change as it comes to be, with the two revisions kept apart. Whatever an entity
or a hunk points at belongs to its revision, so names lead to nodes of the revision in which they
are used, and edges stay in one revision. -/

namespace ChangeSplit

/-- Whether all nodes that a hunk touched have some numbers, and the hunk is on the last of them. -/
structure PooledHunk.PlacedIn (h : PooledHunk) (numbers : List Nat) : Prop where
  anchors : ∀ id ∈ h.anchors, id ∈ numbers
  node : h.node = h.anchors.getLast?

theorem PooledHunk.PlacedIn.mem_of_node {h : PooledHunk} {numbers : List Nat}
    (hPlaced : h.PlacedIn numbers) {id : Nat} (hNode : h.node = some id) : id ∈ numbers :=
  hPlaced.anchors id (List.mem_of_getLast? (hPlaced.node ▸ hNode))

theorem PooledHunk.PlacedIn.mono {h : PooledHunk} {numbers numbers' : List Nat}
    (hPlaced : h.PlacedIn numbers) (hSub : ∀ id ∈ numbers, id ∈ numbers') : h.PlacedIn numbers' :=
  ⟨fun id hId => hSub id (hPlaced.anchors id hId), hPlaced.node⟩

/-- Whether every imported name belongs to a hunk of its revision. -/
def Pool.Owned (p : Pool) : Prop :=
  ∀ o ∈ p.importOwners, ∃ h, p.hunks[o.hunk]? = some h ∧ h.revision = o.revision

namespace ChangeGraph

open Java

/-- Whether the revisions are kept apart in the graph of a change and in what is known of it. -/
structure Apart (g : ChangeGraph) : Prop where
  built : g.graph.Built
  tells : g.graph.TellsRevision
  joins : g.graph.JoinsWithin
  entities : ∀ e ∈ g.pool.entities, ∀ id ∈ e.node, id ∈ g.graph.numbers e.entity.revision
  hunks : ∀ h ∈ g.pool.hunks, h.PlacedIn (g.graph.numbers h.revision)
  owned : g.pool.Owned

variable {g g' : ChangeGraph} {s : Subject} {r : Revision} {n : Node}

namespace Apart

theorem empty (notes : List Note) : Apart { notes } where
  built := .empty
  tells := List.forall_mem_nil _
  joins := List.forall_mem_nil _
  entities := List.forall_mem_nil _
  hunks := List.forall_mem_nil _
  owned := List.forall_mem_nil _

theorem addNode (h : Apart g) {label : NodeLabel} {graph : Graph} {name : String}
    (hName : label.name = label.revision.scope name)
    (hAdd : g.graph.addNode label = .ok (graph, n)) : Apart { g with graph } where
  built := .addNode h.built hAdd
  tells := by
    obtain ⟨_, rfl, rfl⟩ := Graph.addNode_eq_ok hAdd
    intro m hm
    rcases List.mem_append.1 hm with hm | hm
    · exact h.tells m hm
    · rw [List.mem_singleton.1 hm]
      exact ⟨name, hName⟩
  joins := by
    have hEdges : graph.edges = g.graph.edges := by
      obtain ⟨_, rfl, rfl⟩ := Graph.addNode_eq_ok hAdd
      rfl
    intro e he
    obtain ⟨r, hSource, hTarget⟩ := h.joins e (hEdges ▸ he)
    exact ⟨r, Graph.mem_numbers_addNode hAdd hSource, Graph.mem_numbers_addNode hAdd hTarget⟩
  entities := fun e he id hId => Graph.mem_numbers_addNode hAdd (h.entities e he id hId)
  hunks := fun hunk hHunk =>
    (h.hunks hunk hHunk).mono fun _ hId => Graph.mem_numbers_addNode hAdd hId
  owned := h.owned

theorem mark (h : Apart g) (id : Nat) (hunk : String) :
    Apart { g with graph := g.graph.mark id hunk } where
  built := .mark id hunk h.built
  tells := by
    intro m hm
    obtain ⟨k, hk, hLabel, _⟩ := Graph.same_of_mem_mark hm
    rw [hLabel]
    exact h.tells k hk
  joins := by
    intro e he
    simpa using h.joins e he
  entities := by simpa using h.entities
  hunks := by simpa using h.hunks
  owned := h.owned

theorem addEdge (h : Apart g) {source target : Nat} (hSource : source ∈ g.graph.numbers r)
    (hTarget : target ∈ g.graph.numbers r) (kind : EdgeKind) :
    Apart { g with graph := g.graph.addEdge source target kind } where
  built := .addEdge source target kind h.built
  tells := h.tells
  joins := by
    intro e he
    rcases List.mem_append.1 he with he | he
    · exact h.joins e he
    · rw [List.mem_singleton.1 he]
      exact ⟨r, hSource, hTarget⟩
  entities := h.entities
  hunks := h.hunks
  owned := h.owned

theorem addEntity (h : Apart g) (path : String) (e : Entity) :
    Apart (ChangeGraph.addEntity path g e) := by
  unfold ChangeGraph.addEntity
  split
  case h_1 => exact ⟨h.built, h.tells, h.joins, h.entities, h.hunks, h.owned⟩
  case h_2 graph n hAdd =>
    have hAdded := h.addNode rfl hAdd
    refine ⟨hAdded.built, hAdded.tells, hAdded.joins, ?_, hAdded.hunks, hAdded.owned⟩
    intro d hd id hId
    rcases List.mem_append.1 hd with hd | hd
    · exact hAdded.entities d hd id hId
    · rw [List.mem_singleton.1 hd] at hId ⊢
      cases hId
      show n.id ∈ graph.numbers e.revision
      rw [Graph.numbers_addNode hAdd]
      simp [labelOf]

/-- What is found in a revision belongs to it. -/
theorem revision_of_finds (h : Apart g) (hn : Finds g.graph r n) : n.revision = r := by
  rcases hn.revision with hr | ⟨name, hName⟩
  · exact hr
  · exact h.tells.revision_eq hn.mem hName

theorem mem_numbers_of_finds (h : Apart g) (hn : Finds g.graph r n) :
    n.id ∈ g.graph.numbers r := by
  rw [← h.revision_of_finds hn]
  exact Graph.id_mem_numbers hn.mem

/-- A hunk is on the node that it touched last. -/
theorem exists_node (h : Apart g) {hunk : PooledHunk} (hHunk : hunk ∈ g.pool.hunks)
    (hTouched : hunk.anchors ≠ []) :
    ∃ n ∈ g.graph.nodes, hunk.node = some n.id ∧ hunk.anchors.getLast? = some n.id := by
  have hPlaced := h.hunks hunk hHunk
  have hLast := List.getLast?_eq_some_getLast hTouched
  obtain ⟨n, hn, _, hId⟩ := Graph.mem_numbers.1 (hPlaced.anchors _ (List.mem_of_getLast? hLast))
  exact ⟨n, hn, by rw [hPlaced.node, hLast, hId], by rw [hLast, hId]⟩

end Apart

namespace Placing

/-- What holds while a hunk of a source is placed: the revisions would be apart if the hunk were in
the pool already. -/
structure Apart (s : Subject) (p : Placing) : Prop where
  finish : p.finish.Apart
  revision : p.hunk.revision = s.revision

namespace Apart

variable {p : Placing}

theorem placed (h : p.Apart s) : p.hunk.PlacedIn (p.result.graph.numbers p.hunk.revision) :=
  h.finish.hunks p.hunk (List.mem_append_right _ (List.mem_singleton.2 rfl))

/-- While it is placed, the hunk may change in whatever the revisions do not depend on. -/
theorem setHunk (h : p.Apart s) (hunk : PooledHunk) (hRevision : hunk.revision = p.hunk.revision)
    (hPlaced : hunk.PlacedIn (p.result.graph.numbers hunk.revision)) :
    Placing.Apart s { p with hunk } where
  revision := hRevision.trans h.revision
  finish := by
    refine ⟨h.finish.built, h.finish.tells, h.finish.joins, h.finish.entities, ?_, ?_⟩
    · intro other hOther
      rcases List.mem_append.1 hOther with hOther | hOther
      · exact h.finish.hunks other (List.mem_append_left _ hOther)
      · rw [List.mem_singleton.1 hOther]
        exact hPlaced
    · intro o ho
      obtain ⟨owner, hOwner, hSame⟩ := h.finish.owned o ho
      have hOwner : (p.result.pool.hunks ++ [p.hunk])[o.hunk]? = some owner := hOwner
      show ∃ owner, (p.result.pool.hunks ++ [hunk])[o.hunk]? = some owner ∧ _
      by_cases hEarlier : o.hunk < p.result.pool.hunks.length
      · rw [List.getElem?_append_left hEarlier] at hOwner ⊢
        exact ⟨owner, hOwner, hSame⟩
      · rw [List.getElem?_append_right (by omega)] at hOwner ⊢
        cases hIndex : o.hunk - p.result.pool.hunks.length with
        | zero =>
            rw [hIndex] at hOwner
            cases hOwner
            exact ⟨hunk, rfl, hRevision.trans hSame⟩
        | succ k =>
            rw [hIndex] at hOwner
            cases hOwner

theorem touch (h : p.Apart s) (hn : Finds p.result.graph s.revision n) :
    (p.touch n).Apart s := by
  have hMarked : Placing.Apart s
      ⟨{ p.result with graph := p.result.graph.mark n.id p.hunk.name }, p.hunk⟩ :=
    ⟨h.finish.mark n.id p.hunk.name, h.revision⟩
  refine hMarked.setHunk (p.touch n).hunk rfl ⟨fun id hId => ?_, List.getLast?_concat.symm⟩
  show id ∈ (p.result.graph.mark n.id p.hunk.name).numbers p.hunk.revision
  rw [Graph.numbers_mark]
  rcases List.mem_append.1 hId with hId | hId
  · exact h.placed.anchors id hId
  · rw [List.mem_singleton.1 hId, h.revision]
    exact h.finish.mem_numbers_of_finds hn

theorem define (h : p.Apart s) (kind : NodeKind) (name : String) :
    (p.define kind name).Apart s := by
  obtain ⟨_, _, _, hHunk⟩ := p.define_hunk kind name
  have hSame : p.define kind name = { p with hunk := (p.define kind name).hunk } := rfl
  rw [hSame, hHunk]
  exact h.setHunk _ rfl ⟨h.placed.anchors, h.placed.node⟩

theorem claim (h : p.Apart s) (imported : String) : (p.claim s imported).Apart s := by
  have hDefined := h.define .classType imported
  refine ⟨⟨hDefined.finish.built, hDefined.finish.tells, hDefined.finish.joins,
    hDefined.finish.entities, hDefined.finish.hunks, ?_⟩, hDefined.revision⟩
  intro o ho
  rcases List.mem_append.1 ho with ho | ho
  · exact hDefined.finish.owned o ho
  · -- the new owner points at the hunk that comes next, which is the one being placed
    rw [List.mem_singleton.1 ho]
    exact ⟨_, List.getElem?_concat_length, hDefined.revision⟩

theorem note (h : p.Apart s) (note : Note) :
    Placing.Apart s { p with result := p.result.note note } :=
  ⟨⟨h.finish.built, h.finish.tells, h.finish.joins, h.finish.entities, h.finish.hunks,
    h.finish.owned⟩, h.revision⟩

theorem steady (s : Subject) : Steady s (Placing.Apart s) where
  note note h := h.note note
  facts _ h := h.setHunk _ rfl ⟨h.placed.anchors, h.placed.node⟩
  define kind name h := h.define kind name
  claim imported h := h.claim imported
  touch _ hn h := h.touch hn

/-- The own node of a hunk goes into a container of the same revision. -/
theorem onOwn (h : p.Apart s) {container : Option Node} {graph : Graph}
    (hAdd : p.result.graph.addNode (ownLabel (p.settled container)) = .ok (graph, n))
    (hContainer : ∀ c ∈ container, Finds p.result.graph s.revision c) :
    (p.onOwn container graph n).Apart s := by
  have hRevision : (p.settled container).revision = s.revision := h.revision
  have hSettled := h.setHunk (p.settled container) rfl ⟨h.placed.anchors, h.placed.node⟩
  have hAdded : Placing.Apart s ⟨{ p.result with graph }, p.settled container⟩ :=
    ⟨hSettled.finish.addNode rfl hAdd, hRevision⟩
  have hOwn : Finds graph s.revision n := by
    obtain ⟨hMem, hLabel⟩ := Graph.mem_addNode hAdd
    exact ⟨hMem, .inl (by rw [hLabel]; exact hRevision)⟩
  have hTouched := hAdded.touch hOwn
  cases container with
  | none => exact hTouched.note _
  | some c =>
      have hSource : c.id ∈ graph.numbers s.revision :=
        Graph.mem_numbers_addNode hAdd (h.finish.mem_numbers_of_finds (hContainer c rfl))
      have hTarget : n.id ∈ graph.numbers s.revision := hAdded.finish.mem_numbers_of_finds hOwn
      refine ⟨hTouched.finish.addEdge (r := s.revision) ?_ ?_ .contains, hTouched.revision⟩
      · show c.id ∈ (graph.mark n.id _).numbers s.revision
        simpa using hSource
      · show n.id ∈ (graph.mark n.id _).numbers s.revision
        simpa using hTarget

end Apart

end Placing

theorem apart_start (h : Apart g) (s : Subject) (hunk : Hunk) :
    Placing.Apart s ⟨g, pooled s hunk⟩ := by
  refine ⟨⟨h.built, h.tells, h.joins, h.entities, ?_, ?_⟩, rfl⟩
  · intro other hOther
    rcases List.mem_append.1 hOther with hOther | hOther
    · exact h.hunks other hOther
    · rw [List.mem_singleton.1 hOther]
      exact ⟨List.forall_mem_nil _, rfl⟩
  · intro o ho
    obtain ⟨owner, hOwner, hSame⟩ := h.owned o ho
    have hLt := (List.getElem?_eq_some_iff.1 hOwner).1
    exact ⟨owner, (List.getElem?_append_left hLt).trans hOwner, hSame⟩

theorem apart_anchored (h : Apart g) (s : Subject) (hunk : Hunk) :
    (anchored s g hunk).Apart s :=
  (Placing.Apart.steady s).anchored hunk (apart_start h s hunk)

theorem apart_placeHunk (h : Apart g) {hunk : Hunk} (hPlace : placeHunk s g hunk = .ok g') :
    Apart g' := by
  have hAnchored := apart_anchored h s hunk
  rcases placeHunk_eq_ok hPlace with ⟨_, rfl⟩ | ⟨_, p, rfl, ⟨_, rfl⟩ | ⟨_, hAdd⟩⟩
  · exact h
  · exact hAnchored.finish
  · obtain ⟨graph, n, hNode, rfl⟩ := addHunkNode_eq_ok hAdd
    exact (hAnchored.onOwn hNode fun c hc => finds_of_containerFor? hc).finish

theorem apart_placeAll {subjects : List (Subject × FileChange)} (h : Apart g)
    (hPlace : placeAll subjects g = .ok g') : Apart g' :=
  placeAll_invariant h hPlace fun _ _ _ _ _ _ hg hStep => apart_placeHunk hg hStep

theorem apart_addSource (h : Apart g) (s : Subject) : Apart (g.addSource s) :=
  List.foldlRecOn _ _ h fun _ hg e _ => hg.addEntity s.unit.path e

theorem apart_declared (subjects : List (Subject × FileChange)) (notes : List Note) :
    Apart (declared subjects notes) :=
  declared_invariant (.empty notes) fun path _ e hg => hg.addEntity path e

end ChangeGraph

end ChangeSplit
