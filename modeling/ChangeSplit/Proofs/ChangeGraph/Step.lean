import ChangeSplit.Proofs.ChangeGraph.Anchor
import ChangeSplit.Proofs.ChangeGraph.Link

/-! Taking in sources and placing hunks, revision by revision. A source or a hunk of one revision
does the same to the part of the graph that belongs to the revision as to the whole graph, and it
leaves the other part as it is. -/

namespace ChangeSplit

theorem PooledHunk.PlacedIn.renumber_congr {h : PooledHunk} {numbers : List Nat}
    {f f' : Nat → Nat} (hPlaced : h.PlacedIn numbers) (hSame : ∀ id ∈ numbers, f' id = f id) :
    h.renumber f' = h.renumber f := by
  have hNode : h.node.map f' = h.node.map f :=
    Option.map_congr fun id hId => hSame id (hPlaced.mem_of_node hId)
  have hAnchors : h.anchors.map f' = h.anchors.map f :=
    List.map_congr_left fun id hId => hSame id (hPlaced.anchors id hId)
  rw [renumber, hNode, hAnchors, renumber]

namespace Pool

variable {p : Pool} {r : Revision} {f : Nat → Nat}

theorem part_congr {f' : Nat → Nat}
    (hEntities : ∀ e ∈ p.entities, e.entity.revision = r → ∀ id ∈ e.node, f' id = f id)
    (hHunks : ∀ h ∈ p.hunks, h.revision = r → h.renumber f' = h.renumber f) :
    p.part r f' = p.part r f := by
  unfold part
  congr 1
  · apply List.map_congr_left
    intro e he
    obtain ⟨he, hr⟩ := List.mem_filter.1 he
    have hNode : e.node.map f' = e.node.map f := by
      cases hId : e.node with
      | none => rfl
      | some id => exact congrArg some (hEntities e he (by simpa using hr) id hId)
    rw [PooledEntity.renumber, hNode, PooledEntity.renumber]
  · apply List.map_congr_left
    intro h hh
    obtain ⟨hh, hr⟩ := List.mem_filter.1 hh
    exact hHunks h hh (by simpa using hr)

theorem part_addEntity {e : PooledEntity} (hr : e.entity.revision = r) (f : Nat → Nat) :
    (p.addEntity e).part r f = (p.part r f).addEntity (e.renumber f) := by
  simp [part, addEntity, List.filter_append, hr, rank]

theorem part_addEntity_of_ne {e : PooledEntity} (hr : e.entity.revision ≠ r) (f : Nat → Nat) :
    (p.addEntity e).part r f = p.part r f := by
  simp [part, addEntity, List.filter_append, hr, rank]

theorem part_addImportOwner {o : ImportOwner} (hr : o.revision = r) (f : Nat → Nat) :
    (p.addImportOwner o).part r f =
      (p.part r f).addImportOwner { o with hunk := p.rank r o.hunk } := by
  simp [part, addImportOwner, List.filter_append, hr, rank]

theorem part_addImportOwner_of_ne {o : ImportOwner} (hr : o.revision ≠ r) (f : Nat → Nat) :
    (p.addImportOwner o).part r f = p.part r f := by
  simp [part, addImportOwner, List.filter_append, hr, rank]

/-- The next hunk of a revision comes last in its part. -/
theorem rank_length (p : Pool) (r : Revision) (f : Nat → Nat) :
    p.rank r p.hunks.length = (p.part r f).hunks.length := by
  simp [part, rank]

theorem importOwners_part_addHunk {h : PooledHunk}
    (hOwners : ∀ o ∈ p.importOwners, o.hunk ≤ p.hunks.length) :
    ((p.addHunk h).part r f).importOwners = (p.part r f).importOwners := by
  apply List.map_congr_left
  intro o ho
  have hLe := hOwners o (List.mem_filter.1 ho).1
  rw [rank, addHunk, List.take_append_of_le_length hLe, rank]

theorem part_addHunk {h : PooledHunk} (hOwners : ∀ o ∈ p.importOwners, o.hunk ≤ p.hunks.length)
    (hr : h.revision = r) : (p.addHunk h).part r f = (p.part r f).addHunk (h.renumber f) := by
  have hHunks : ((p.addHunk h).part r f).hunks = (p.part r f).hunks ++ [h.renumber f] := by
    simp [part, addHunk, List.filter_append, hr]
  show Pool.mk _ ((p.addHunk h).part r f).hunks ((p.addHunk h).part r f).importOwners = _
  rw [hHunks, importOwners_part_addHunk hOwners]
  rfl

theorem part_addHunk_of_ne {h : PooledHunk}
    (hOwners : ∀ o ∈ p.importOwners, o.hunk ≤ p.hunks.length) (hr : h.revision ≠ r) :
    (p.addHunk h).part r f = p.part r f := by
  have hHunks : ((p.addHunk h).part r f).hunks = (p.part r f).hunks := by
    simp [part, addHunk, List.filter_append, hr]
  show Pool.mk _ ((p.addHunk h).part r f).hunks ((p.addHunk h).part r f).importOwners = _
  rw [hHunks, importOwners_part_addHunk hOwners]
  rfl

end Pool

namespace ChangeGraph

open Java

variable {g h g' : ChangeGraph} {r : Revision} {s : Subject}

/-- A new node changes no number of a node that something points at. -/
theorem pool_part_addNode {label : NodeLabel} {graph : Graph} {n : Node}
    (hAdd : g.graph.addNode label = .ok (graph, n))
    (hEntities : ∀ e ∈ g.pool.entities, ∀ id ∈ e.node, id ∈ g.graph.numbers e.entity.revision)
    (hHunks : ∀ hunk ∈ g.pool.hunks, hunk.PlacedIn (g.graph.numbers hunk.revision)) :
    g.pool.part r (graph.rank r) = g.pool.part r (g.graph.rank r) := by
  apply Pool.part_congr
  · intro e he hr id hId
    subst hr
    exact Graph.rank_addNode hAdd (hEntities e he id hId)
  · intro hunk hHunk hr
    subst hr
    exact (hHunks hunk hHunk).renumber_congr fun id hId => Graph.rank_addNode hAdd hId

namespace IsPart

theorem addEntity (hPart : IsPart r g h) (hApart : Apart g) (path : String) {e : Entity}
    (hr : e.revision = r) :
    IsPart r (ChangeGraph.addEntity path g e) (ChangeGraph.addEntity path h e) := by
  have hName : (labelOf e).name = r.scope e.qualifiedName := by rw [← hr]; rfl
  unfold ChangeGraph.addEntity
  rw [hPart.graph]
  cases hAdd : g.graph.addNode (labelOf e) with
  | error d =>
      rw [Graph.part_addNode_error hApart.tells hName hAdd]
      exact ⟨hPart.graph, hPart.pool⟩
  | ok added =>
      obtain ⟨graph, n⟩ := added
      rw [Graph.part_addNode hApart.built hApart.tells hApart.joins hName hr hAdd]
      refine ⟨rfl, ?_⟩
      show h.pool.addEntity _ = (g.pool.addEntity ⟨e, some n.id⟩).part r (graph.rank r)
      rw [Pool.part_addEntity hr, pool_part_addNode hAdd hApart.entities hApart.hunks, hPart.pool]
      rfl

theorem addEntity_of_ne (hPart : IsPart r g h) (hApart : Apart g) (path : String) {e : Entity}
    (hr : e.revision ≠ r) : IsPart r (ChangeGraph.addEntity path g e) h := by
  unfold ChangeGraph.addEntity
  cases hAdd : g.graph.addNode (labelOf e) with
  | error d => exact ⟨hPart.graph, hPart.pool⟩
  | ok added =>
      obtain ⟨graph, n⟩ := added
      constructor
      · show h.graph = graph.part r
        rw [Graph.part_addNode_of_ne hApart.built hApart.joins hAdd hr, hPart.graph]
      · show h.pool = (g.pool.addEntity ⟨e, some n.id⟩).part r (graph.rank r)
        rw [Pool.part_addEntity_of_ne hr, pool_part_addNode hAdd hApart.entities hApart.hunks,
          hPart.pool]

end IsPart

namespace Apart

theorem nodeFor?_part (hApart : Apart g) (r : Revision) (i : Identity) :
    nodeFor? (g.graph.part r) r i = (nodeFor? g.graph r i).map (·.renumber (g.graph.rank r)) := by
  rw [nodeFor?, hApart.tells.find?_scope, Graph.findIdentifier?_part, nodeFor?]
  cases g.graph.find? i.kind (r.scope i.qualifiedName) <;> rfl

theorem containerFor?_part (hApart : Apart g) (hr : s.revision = r) (places : List Place) :
    containerFor? s (g.graph.part r) places =
      (containerFor? s g.graph places).map (·.renumber (g.graph.rank r)) := by
  rw [containerFor?, containerFor?, List.map_findSome?]
  congr 1
  funext d
  show (s.identities d).head?.bind _ = ((s.identities d).head?.bind _).map _
  cases (s.identities d).head? with
  | none => rfl
  | some i =>
      subst hr
      exact hApart.nodeFor?_part s.revision i

/-- What is found in the other revision has no number in the revision. -/
theorem id_notMem_numbers (hApart : Apart g) {r' : Revision} {n : Node}
    (hn : Finds g.graph r' n) (hr : r' ≠ r) : n.id ∉ g.graph.numbers r :=
  fun hId => hr (hApart.built.eq_of_mem_numbers (hApart.mem_numbers_of_finds hn) hId)

end Apart

namespace Placing

/-- Whether placing a hunk in one revision has come as far as in both. -/
structure IsPart (r : Revision) (p q : Placing) : Prop where
  result : ChangeGraph.IsPart r p.result q.result
  hunk : q.hunk = p.hunk.renumber (p.result.graph.rank r)

variable {p q : Placing}

/-- Owners of imports point at hunks in the pool or at the one that is being placed. -/
theorem Apart.owner_le (h : p.Apart s) :
    ∀ o ∈ p.result.pool.importOwners, o.hunk ≤ p.result.pool.hunks.length := by
  intro o ho
  obtain ⟨hunk, hHunk, _⟩ := h.finish.owned o ho
  have hLt : o.hunk < (p.result.pool.hunks ++ [p.hunk]).length :=
    (List.getElem?_eq_some_iff.1 hHunk).1
  rw [List.length_append, List.length_singleton] at hLt
  omega

namespace IsPart

theorem touch (hPart : p.IsPart r q) (n : Node) :
    (p.touch n).IsPart r (q.touch (n.renumber (p.result.graph.rank r))) := by
  have hRank := Graph.rank_mark p.result.graph n.id p.hunk.name r
  refine ⟨⟨?_, ?_⟩, ?_⟩
  · show q.result.graph.mark _ q.hunk.name = (p.result.graph.mark n.id p.hunk.name).part r
    rw [Graph.part_mark, hPart.result.graph, hPart.hunk]
    rfl
  · show q.result.pool =
      p.result.pool.part r ((p.result.graph.mark n.id p.hunk.name).rank r)
    rw [hRank, hPart.result.pool]
  · show _ = (p.touch n).hunk.renumber ((p.result.graph.mark n.id p.hunk.name).rank r)
    rw [hRank, Placing.touch, Placing.touch, hPart.hunk]
    simp [PooledHunk.renumber, Node.renumber]

theorem define (hPart : p.IsPart r q) (kind : NodeKind) (name : String) :
    (p.define kind name).IsPart r (q.define kind name) := by
  refine ⟨hPart.result, ?_⟩
  show (if _ then _ else _) = PooledHunk.renumber _ (if _ then _ else _)
  rw [hPart.hunk]
  split
  case isTrue => rfl
  case isFalse => split <;> rfl

theorem claim (hPart : p.IsPart r q) (hr : s.revision = r) (imported : String) :
    (p.claim s imported).IsPart r (q.claim s imported) := by
  refine ⟨⟨hPart.result.graph, ?_⟩, (hPart.define .classType imported).hunk⟩
  show q.result.pool.addImportOwner _ =
    (p.result.pool.addImportOwner _).part r (p.result.graph.rank r)
  rw [Pool.part_addImportOwner hr]
  dsimp only
  rw [Pool.rank_length, ← hPart.result.pool]

theorem onImport (hPart : p.IsPart r q) (hApart : p.Apart s) (hr : s.revision = r)
    (place : Place) : (p.onImport s place).IsPart r (q.onImport s place) := by
  have hClaim := hPart.claim hr (importParts s.unit place.node).1
  have hTells : (p.claim s (importParts s.unit place.node).1).result.graph.TellsRevision :=
    hApart.finish.tells
  rw [onImport_eq, onImport_eq]
  dsimp only
  rw [hClaim.result.graph, hr, hTells.find?_scope]
  cases (p.claim s (importParts s.unit place.node).1).result.graph.find? .imported
      (r.scope (toString s.fileIndex ++ "#" ++ (importParts s.unit place.node).1)) with
  | none => exact hClaim
  | some n => exact hClaim.touch n

theorem onEntities (hPart : p.IsPart r q) (hApart : p.Apart s) (hr : s.revision = r)
    (identities : List Identity) :
    (p.onEntities s identities).IsPart r (q.onEntities s identities) := by
  induction identities generalizing p q with
  | nil => exact hPart
  | cons i rest ih =>
      have hNode : nodeFor? q.result.graph s.revision i =
          (nodeFor? p.result.graph s.revision i).map
            (·.renumber (p.result.graph.rank r)) := by
        rw [hPart.result.graph, hr]
        exact hApart.finish.nodeFor?_part r i
      unfold Placing.onEntities
      rw [hNode]
      cases hFound : nodeFor? p.result.graph s.revision i with
      | none => exact ⟨⟨hPart.result.graph, hPart.result.pool⟩, hPart.hunk⟩
      | some n =>
          exact ih ((hPart.define _ _).touch n)
            ((hApart.define _ _).touch (finds_of_nodeFor? hFound))

theorem onAnchor (hPart : p.IsPart r q) (hApart : p.Apart s) (hr : s.revision = r)
    (place : Place) : (p.onAnchor s place).IsPart r (q.onAnchor s place) := by
  unfold Placing.onAnchor
  split
  case isTrue => exact hPart.onImport hApart hr place
  case isFalse =>
    split
    case isTrue =>
      refine ⟨hPart.result, ?_⟩
      rw [hPart.hunk]
      rfl
    case isFalse => exact hPart.onEntities hApart hr _

theorem finish (hPart : p.IsPart r q) (hApart : p.Apart s) (hr : s.revision = r) :
    ChangeGraph.IsPart r p.finish q.finish := by
  refine ⟨hPart.result.graph, ?_⟩
  show q.result.pool.addHunk q.hunk =
    (p.result.pool.addHunk p.hunk).part r (p.result.graph.rank r)
  rw [Pool.part_addHunk hApart.owner_le (hApart.revision.trans hr), ← hPart.result.pool,
    ← hPart.hunk]

/-- The own node of a hunk can be added to the part, too. -/
theorem addNode (hPart : p.IsPart r q) (hApart : p.Apart s) (hr : s.revision = r)
    {container : Option Node} {graph : Graph} {n : Node}
    (hAdd : p.result.graph.addNode (ownLabel (p.settled container)) = .ok (graph, n)) :
    q.result.graph.addNode
        (ownLabel (q.settled (container.map (·.renumber (p.result.graph.rank r))))) =
      .ok (graph.part r, n.renumber (graph.rank r)) := by
  have hLabel : ownLabel (q.settled (container.map (·.renumber (p.result.graph.rank r)))) =
      ownLabel (p.settled container) := by
    rw [Placing.settled, Placing.settled, hPart.hunk]
    cases container <;> rfl
  have hRevision : (ownLabel (p.settled container)).revision = r := hApart.revision.trans hr
  have hName : (ownLabel (p.settled container)).name =
      r.scope (p.settled container).qualifiedName := by
    rw [← hRevision]
    rfl
  rw [hLabel, hPart.result.graph]
  exact Graph.part_addNode hApart.finish.built hApart.finish.tells hApart.finish.joins hName
    hRevision hAdd

/-- The hunk stands in the same container in the part. -/
theorem settled (hPart : p.IsPart r q) (hApart : p.Apart s) (hr : s.revision = r)
    {container : Option Node} {graph : Graph} {n : Node}
    (hAdd : p.result.graph.addNode (ownLabel (p.settled container)) = .ok (graph, n)) :
    Placing.IsPart r ⟨{ p.result with graph }, p.settled container⟩
      ⟨{ q.result with graph := graph.part r },
        q.settled (container.map (·.renumber (p.result.graph.rank r)))⟩ := by
  have hPool : p.result.pool.part r (graph.rank r) =
      p.result.pool.part r (p.result.graph.rank r) :=
    pool_part_addNode hAdd hApart.finish.entities fun hunk hHunk =>
      hApart.finish.hunks hunk (List.mem_append_left _ hHunk)
  have hHunk : p.hunk.renumber (graph.rank r) = p.hunk.renumber (p.result.graph.rank r) := by
    refine hApart.placed.renumber_congr fun id hId => ?_
    rw [hApart.revision, hr] at hId
    exact Graph.rank_addNode hAdd hId
  refine ⟨⟨rfl, ?_⟩, ?_⟩
  · show q.result.pool = p.result.pool.part r (graph.rank r)
    rw [hPool, hPart.result.pool]
  · show q.settled _ = (p.settled container).renumber (graph.rank r)
    rw [Placing.settled, hPart.hunk, ← hHunk]
    cases container <;> rfl

theorem onOwn (hPart : p.IsPart r q) (hApart : p.Apart s) (hr : s.revision = r)
    {container : Option Node} {graph : Graph} {n : Node}
    (hAdd : p.result.graph.addNode (ownLabel (p.settled container)) = .ok (graph, n))
    (hContainer : ∀ c ∈ container, c.id ∈ p.result.graph.numbers r) :
    (p.onOwn container graph n).IsPart r
      (q.onOwn (container.map (·.renumber (p.result.graph.rank r))) (graph.part r)
        (n.renumber (graph.rank r))) := by
  have hTouched := (hPart.settled hApart hr hAdd).touch n
  cases container with
  | none => exact ⟨⟨hTouched.result.graph, hTouched.result.pool⟩, hTouched.hunk⟩
  | some c =>
      have hMem := hContainer c rfl
      have hSource : c.id ∈ (graph.mark n.id p.hunk.name).numbers r := by
        rw [Graph.numbers_mark]
        exact Graph.mem_numbers_addNode hAdd hMem
      have hRank : (graph.mark n.id p.hunk.name).rank r c.id = p.result.graph.rank r c.id := by
        rw [Graph.rank_mark, Graph.rank_addNode hAdd hMem]
      have hOwn : (graph.mark n.id p.hunk.name).rank r n.id = graph.rank r n.id := by
        rw [Graph.rank_mark]
      refine ⟨⟨?_, hTouched.result.pool⟩, hTouched.hunk⟩
      show ((graph.part r).mark _ q.hunk.name).addEdge (p.result.graph.rank r c.id)
        (graph.rank r n.id) .contains =
          ((graph.mark n.id p.hunk.name).addEdge c.id n.id .contains).part r
      rw [Graph.part_addEdge hSource, hRank, hOwn]
      congr 1
      exact hTouched.result.graph

theorem addHunkNode (hPart : p.IsPart r q) (hApart : p.Apart s) (hr : s.revision = r)
    {places : List Place} {p' : Placing} (hAdd : ChangeGraph.addHunkNode s places p = .ok p') :
    p'.Apart s ∧ ∃ q', ChangeGraph.addHunkNode s places q = .ok q' ∧ p'.IsPart r q' := by
  obtain ⟨graph, n, hNode, rfl⟩ := addHunkNode_eq_ok hAdd
  have hContainer (c : Node) (hc : c ∈ containerFor? s p.result.graph places) :
      Finds p.result.graph s.revision c := finds_of_containerFor? hc
  have hIds : ∀ c ∈ containerFor? s p.result.graph places, c.id ∈ p.result.graph.numbers r := by
    intro c hc
    rw [← hr]
    exact hApart.finish.mem_numbers_of_finds (hContainer c hc)
  have hSame : containerFor? s q.result.graph places =
      (containerFor? s p.result.graph places).map (·.renumber (p.result.graph.rank r)) := by
    rw [hPart.result.graph]
    exact hApart.finish.containerFor?_part hr places
  refine ⟨hApart.onOwn hNode hContainer, _, ?_, hPart.onOwn hApart hr hNode hIds⟩
  rw [addHunkNode_eq, hSame, hPart.addNode hApart hr hNode]

end IsPart

end Placing

section Place

variable {hunk : Hunk}

theorem IsPart.anchored (hPart : IsPart r g h) (hApart : Apart g) (hr : s.revision = r)
    (hunk : Hunk) : (ChangeGraph.anchored s g hunk).IsPart r (ChangeGraph.anchored s h hunk) := by
  have hFold (places : List Place) {p q : Placing} (hApart : p.Apart s) (hPart : p.IsPart r q) :
      (places.foldl (Placing.onAnchor s) p).IsPart r (places.foldl (Placing.onAnchor s) q) := by
    induction places generalizing p q with
    | nil => exact hPart
    | cons place rest ih =>
        exact ih ((Placing.Apart.steady s).onAnchor hApart place) (hPart.onAnchor hApart hr place)
  exact hFold _ (apart_start hApart s hunk) ⟨hPart, rfl⟩

/-- A hunk of the revision is placed in the part as it is in the whole. -/
theorem IsPart.placeHunk (hPart : IsPart r g h) (hApart : Apart g) (hr : s.revision = r)
    (hPlace : ChangeGraph.placeHunk s g hunk = .ok g') :
    ∃ h', ChangeGraph.placeHunk s h hunk = .ok h' ∧ IsPart r g' h' := by
  have hAnchored := apart_anchored hApart s hunk
  have hSame := hPart.anchored hApart hr hunk
  have hNone : (ChangeGraph.anchored s h hunk).hunk.anchors.isEmpty =
      (ChangeGraph.anchored s g hunk).hunk.anchors.isEmpty := by
    rw [hSame.hunk]
    simp [PooledHunk.renumber]
  rcases placeHunk_eq_ok hPlace with ⟨hNil, rfl⟩ | ⟨hNe, p, rfl, ⟨hTouched, rfl⟩ | ⟨hOwn, hAdd⟩⟩
  · exact ⟨h, placeHunk_of_nil hNil h, hPart⟩
  · refine ⟨_, ?_, hSame.finish hAnchored hr⟩
    rw [placeHunk_of_ne_nil hNe, hNone, if_neg (by simpa using hTouched)]
  · obtain ⟨hPlaced, q, hAdd', hSame'⟩ := hSame.addHunkNode hAnchored hr hAdd
    refine ⟨_, ?_, hSame'.finish hPlaced hr⟩
    rw [placeHunk_of_ne_nil hNe, hNone, if_pos (by simpa using hOwn), hAdd']
    rfl

namespace IsPart

variable {p : Placing}

theorem touch_of_ne (hPart : IsPart r p.result h) (hApart : p.Apart s) {n : Node}
    (hn : Finds p.result.graph s.revision n) (hr : s.revision ≠ r) :
    IsPart r (p.touch n).result h := by
  have hId : n.id ∉ p.result.graph.numbers r := hApart.finish.id_notMem_numbers hn hr
  constructor
  · show h.graph = (p.result.graph.mark n.id p.hunk.name).part r
    rw [Graph.part_mark_of_notMem hId, hPart.graph]
  · show h.pool = p.result.pool.part r ((p.result.graph.mark n.id p.hunk.name).rank r)
    rw [Graph.rank_mark, hPart.pool]

theorem claim_of_ne (hPart : IsPart r p.result h) (hr : s.revision ≠ r) (imported : String) :
    IsPart r (p.claim s imported).result h := by
  refine ⟨hPart.graph, ?_⟩
  show h.pool = (p.result.pool.addImportOwner _).part r (p.result.graph.rank r)
  rw [Pool.part_addImportOwner_of_ne hr, hPart.pool]

theorem steady_of_ne (hr : s.revision ≠ r) (h : ChangeGraph) :
    Steady s fun p => p.Apart s ∧ IsPart r p.result h where
  note note hp := ⟨hp.1.note note, hp.2.graph, hp.2.pool⟩
  facts facts hp := ⟨(Placing.Apart.steady s).facts facts hp.1, hp.2⟩
  define kind name hp := ⟨hp.1.define kind name, hp.2⟩
  claim imported hp := ⟨hp.1.claim imported, hp.2.claim_of_ne hr imported⟩
  touch _ hn hp := ⟨hp.1.touch hn, hp.2.touch_of_ne hp.1 hn hr⟩

theorem onOwn_of_ne (hPart : IsPart r p.result h) (hApart : p.Apart s) (hr : s.revision ≠ r)
    {container : Option Node} {graph : Graph} {n : Node}
    (hAdd : p.result.graph.addNode (ownLabel (p.settled container)) = .ok (graph, n))
    (hContainer : ∀ c ∈ container, Finds p.result.graph s.revision c) :
    IsPart r (p.onOwn container graph n).result h := by
  have hOther : (ownLabel (p.settled container)).revision ≠ r := by
    show p.hunk.revision ≠ r
    rw [hApart.revision]
    exact hr
  have hNumbers : graph.numbers r = p.result.graph.numbers r := by
    rw [Graph.numbers_addNode hAdd, if_neg hOther, List.append_nil]
  have hMarked : IsPart r { p.result with graph := graph.mark n.id p.hunk.name } h := by
    have hNew : n.id ∉ graph.numbers r := by
      rw [hNumbers]
      exact hApart.finish.built.id_notMem_numbers hAdd
    constructor
    · show h.graph = (graph.mark n.id p.hunk.name).part r
      have hPart' : graph.part r = p.result.graph.part r :=
        Graph.part_addNode_of_ne hApart.finish.built hApart.finish.joins hAdd hOther
      rw [Graph.part_mark_of_notMem hNew, hPart', hPart.graph]
    · show h.pool = p.result.pool.part r ((graph.mark n.id p.hunk.name).rank r)
      have hRank : graph.rank r = p.result.graph.rank r := by
        funext id
        rw [Graph.rank, hNumbers, Graph.rank]
      rw [Graph.rank_mark, hRank, hPart.pool]
  cases container with
  | none => exact ⟨hMarked.graph, hMarked.pool⟩
  | some c =>
      have hSource : c.id ∉ (graph.mark n.id p.hunk.name).numbers r := by
        rw [Graph.numbers_mark, hNumbers]
        exact hApart.finish.id_notMem_numbers (hContainer c rfl) hr
      refine ⟨?_, hMarked.pool⟩
      show h.graph = ((graph.mark n.id p.hunk.name).addEdge c.id n.id .contains).part r
      rw [Graph.part_addEdge_of_notMem hSource]
      exact hMarked.graph

theorem finish_of_ne (hPart : IsPart r p.result h) (hApart : p.Apart s) (hr : s.revision ≠ r) :
    IsPart r p.finish h := by
  refine ⟨hPart.graph, ?_⟩
  have hOther : p.hunk.revision ≠ r := by rw [hApart.revision]; exact hr
  show h.pool = (p.result.pool.addHunk p.hunk).part r (p.result.graph.rank r)
  rw [Pool.part_addHunk_of_ne hApart.owner_le hOther, hPart.pool]

/-- A hunk of the other revision leaves the part as it is. -/
theorem placeHunk_of_ne (hPart : IsPart r g h) (hApart : Apart g) (hr : s.revision ≠ r)
    (hPlace : ChangeGraph.placeHunk s g hunk = .ok g') : IsPart r g' h := by
  obtain ⟨hAnchored, hSame⟩ :=
    (steady_of_ne hr h).anchored hunk ⟨apart_start hApart s hunk, hPart⟩
  rcases placeHunk_eq_ok hPlace with ⟨_, rfl⟩ | ⟨_, p, rfl, ⟨_, rfl⟩ | ⟨_, hAdd⟩⟩
  · exact hPart
  · exact hSame.finish_of_ne hAnchored hr
  · obtain ⟨graph, n, hNode, rfl⟩ := addHunkNode_eq_ok hAdd
    have hContainer (c : Node)
        (hc : c ∈ containerFor? s (ChangeGraph.anchored s g hunk).result.graph (anchors s hunk)) :
        Finds (ChangeGraph.anchored s g hunk).result.graph s.revision c := finds_of_containerFor? hc
    exact (hSame.onOwn_of_ne hAnchored hr hNode hContainer).finish_of_ne
      (hAnchored.onOwn hNode hContainer) hr

end IsPart

end Place

section Build

/-- Placing the hunks of both revisions places those of one. -/
theorem IsPart.placeAll (hPart : IsPart r g h) (hApart : Apart g)
    {subjects : List (Subject × FileChange)} (hPlace : ChangeGraph.placeAll subjects g = .ok g') :
    ∃ h', ChangeGraph.placeAll (subjects.filter (·.1.revision = r)) h = .ok h' ∧
      IsPart r g' h' := by
  have hAll : ∃ h', (subjects.filter (·.1.revision = r)).foldlM
      (fun g t => placeHunks t.1 t.2.hunks g) h = .ok h' ∧ (IsPart r g' h' ∧ Apart g') := by
    refine foldlM_filter (R := fun g h => IsPart r g h ∧ Apart g) ⟨hPart, hApart⟩ hPlace ?_ ?_
    · intro t _ hr g g' h ⟨hPart, hApart⟩ hHunks
      have hr : t.1.revision = r := by simpa using hr
      refine foldlM_follow (R := fun g h => IsPart r g h ∧ Apart g) ⟨hPart, hApart⟩ hHunks ?_
      intro hunk _ g g' h ⟨hPart, hApart⟩ hStep
      obtain ⟨h', hOk, hSame⟩ := hPart.placeHunk hApart hr hStep
      exact ⟨h', hOk, hSame, apart_placeHunk hApart hStep⟩
    · intro t _ hr g g' h ⟨hPart, hApart⟩ hHunks
      have hr : t.1.revision ≠ r := by simpa using hr
      refine foldlM_invariant (motive := fun g => IsPart r g h ∧ Apart g) ⟨hPart, hApart⟩ hHunks ?_
      intro hunk _ g g' ⟨hPart, hApart⟩ hStep
      exact ⟨hPart.placeHunk_of_ne hApart hr hStep, apart_placeHunk hApart hStep⟩
  obtain ⟨h', hOk, hSame, _⟩ := hAll
  exact ⟨h', hOk, hSame⟩

theorem IsPart.addSource (hPart : IsPart r g h) (hApart : Apart g) (hr : s.revision = r) :
    IsPart r (g.addSource s) (h.addSource s) := by
  have hFold (entities : List Entity) {g h : ChangeGraph} (hApart : Apart g) (hPart : IsPart r g h)
      (hEach : ∀ e ∈ entities, e.revision = r) :
      IsPart r (entities.foldl (ChangeGraph.addEntity s.unit.path) g)
        (entities.foldl (ChangeGraph.addEntity s.unit.path) h) := by
    induction entities generalizing g h with
    | nil => exact hPart
    | cons e rest ih =>
        exact ih (hApart.addEntity _ e)
          (hPart.addEntity hApart _ (hEach e (List.mem_cons_self ..)))
          fun d hd => hEach d (List.mem_cons_of_mem _ hd)
  exact hFold s.entities hApart hPart fun e he => (Subject.revision_of_mem_entities he).trans hr

theorem IsPart.addSource_of_ne (hPart : IsPart r g h) (hApart : Apart g) (hr : s.revision ≠ r) :
    IsPart r (g.addSource s) h := by
  have hFold : IsPart r (g.addSource s) h ∧ Apart (g.addSource s) := by
    refine List.foldlRecOn (motive := fun g => IsPart r g h ∧ Apart g) s.entities _
      ⟨hPart, hApart⟩ ?_
    intro g ⟨hPart, hApart⟩ e he
    refine ⟨hPart.addEntity_of_ne hApart _ ?_, hApart.addEntity _ e⟩
    rw [Subject.revision_of_mem_entities he]
    exact hr
  exact hFold.1

/-- Taking in the sources of both revisions takes in those of one. -/
theorem isPart_declared (r : Revision) (subjects : List (Subject × FileChange))
    (notes notes' : List Note) :
    IsPart r (declared subjects notes)
      (declared (subjects.filter (·.1.revision = r)) notes') := by
  have hFold {g h : ChangeGraph} (hApart : Apart g) (hPart : IsPart r g h) :
      IsPart r ((subjects.map (·.1)).foldl ChangeGraph.addSource g)
        (((subjects.filter (·.1.revision = r)).map (·.1)).foldl ChangeGraph.addSource h) := by
    induction subjects generalizing g h with
    | nil => exact hPart
    | cons t rest ih =>
        have hNext := apart_addSource hApart t.1
        by_cases hr : t.1.revision = r
        · rw [List.filter_cons_of_pos (by simpa using hr)]
          exact ih hNext (hPart.addSource hApart hr)
        · rw [List.filter_cons_of_neg (by simpa using hr)]
          exact ih hNext (hPart.addSource_of_ne hApart hr)
  exact hFold (.empty notes) ⟨rfl, rfl⟩

end Build

end ChangeGraph

end ChangeSplit
