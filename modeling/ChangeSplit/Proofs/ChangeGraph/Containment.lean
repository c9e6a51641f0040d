import ChangeSplit.Proofs.ChangeGraph.Container
import ChangeSplit.Proofs.ChangeGraph.Origin
import ChangeSplit.Proofs.ChangeGraph.Unblocked

/-! Where the own nodes of hunks stand. Placing hunks only adds marks, own nodes and the edges to
them, so what is said of a node when it is added remains true of the graph that is built. -/

namespace ChangeSplit

namespace Graph

/-- The numbers of the nodes that contain the one with a number, one for each edge that says so. -/
def containedIn (g : Graph) (id : Nat) : List Nat :=
  (g.edges.filter fun e => e.kind = .contains && e.target = id).map (·.source)

/-- Whether a graph is another one with more marks, more nodes of hunks, and edges to these. -/
structure Grows (g g' : Graph) : Prop where
  keeps : g.Keeps g'
  declared : ∀ m ∈ g'.nodes, m.kind ≠ .hunk →
    ∃ n ∈ g.nodes, n.toNodeLabel = m.toNodeLabel ∧ n.id = m.id
  contained : ∀ n ∈ g.nodes, g'.containedIn n.id = g.containedIn n.id

variable {g g' g'' graph : Graph} {n : Node} {label : NodeLabel} {kind : NodeKind} {name : String}

theorem containedIn_addEdge (g : Graph) (source target id : Nat) :
    (g.addEdge source target .contains).containedIn id =
      g.containedIn id ++ if target = id then [source] else [] := by
  unfold containedIn addEdge
  rw [List.filter_append, List.map_append]
  congr 1
  by_cases hId : target = id <;> simp [hId]

theorem containedIn_addNode (hAdd : g.addNode label = .ok (g', n)) (id : Nat) :
    g'.containedIn id = g.containedIn id := by
  obtain ⟨_, _, rfl⟩ := addNode_eq_ok hAdd
  rfl

/-- Nothing contains a node that is new. -/
theorem Built.containedIn_new (hBuilt : g.Built) (hJoins : g.JoinsWithin)
    (hAdd : g.addNode label = .ok (g', n)) : g.containedIn n.id = [] := by
  rw [containedIn, List.map_eq_nil_iff, List.filter_eq_nil_iff]
  intro e he hTest
  simp only [Bool.and_eq_true, decide_eq_true_eq] at hTest
  obtain ⟨r, _, hTarget⟩ := hJoins e he
  rw [hTest.2] at hTarget
  exact hBuilt.id_notMem_numbers hAdd hTarget

namespace Grows

theorem refl (g : Graph) : g.Grows g :=
  ⟨.refl g, fun m hm _ => ⟨m, hm, rfl, rfl⟩, fun _ _ => rfl⟩

theorem trans (h : g.Grows g') (h' : g'.Grows g'') : g.Grows g'' where
  keeps := h.keeps.trans h'.keeps
  declared := by
    intro m hm hKind
    obtain ⟨k, hk, hLabel, hId⟩ := h'.declared m hm hKind
    obtain ⟨n, hn, hLabel', hId'⟩ := h.declared k hk (by rwa [hLabel])
    exact ⟨n, hn, hLabel'.trans hLabel, hId'.trans hId⟩
  contained := by
    intro n hn
    obtain ⟨m, hm, _, hId⟩ := h.keeps n hn
    rw [← h.contained n hn, ← hId, h'.contained m hm]

theorem mark (g : Graph) (id : Nat) (hunk : String) : g.Grows (g.mark id hunk) where
  keeps := .mark g id hunk
  declared := by
    intro m hm _
    obtain ⟨k, hk, hLabel, hId, _⟩ := same_of_mem_mark hm
    exact ⟨k, hk, hLabel.symm, hId.symm⟩
  contained := fun _ _ => rfl

theorem addNode (hAdd : g.addNode label = .ok (g', n)) (hKind : label.kind = .hunk) :
    g.Grows g' where
  keeps := .addNode hAdd
  declared := by
    obtain ⟨_, rfl, rfl⟩ := addNode_eq_ok hAdd
    intro m hm hNot
    rcases List.mem_append.1 hm with hm | hm
    · exact ⟨m, hm, rfl, rfl⟩
    · rw [List.mem_singleton.1 hm] at hNot
      exact absurd hKind hNot
  contained := fun m _ => containedIn_addNode hAdd m.id

/-- What is found under a name that is no hunk's is found again. -/
theorem find? (h : g.Grows g') (hBuilt : g'.Built) (hFound : g.find? kind name = some n) :
    ∃ m, g'.find? kind name = some m ∧ m.toNodeLabel = n.toNodeLabel ∧ m.id = n.id := by
  obtain ⟨m, hm⟩ := Option.isSome_iff_exists.1
    (h.keeps.isSome_find? (Option.isSome_iff_exists.2 ⟨n, hFound⟩))
  obtain ⟨k, hk, hLabel, hId⟩ := h.keeps n (List.mem_of_find?_eq_some hFound)
  have hHere := List.find?_some hm
  have hThere := List.find?_some hFound
  simp only [Bool.and_eq_true, decide_eq_true_eq] at hHere hThere
  have hSame : k = m := hBuilt.eq_of_name hk (List.mem_of_find?_eq_some hm)
    (by rw [hLabel, hThere.1, hHere.1]) (by rw [hLabel, hThere.2, hHere.2])
  exact ⟨k, by rw [hSame, hm], hLabel, hId⟩

theorem find?_eq_none_iff (h : g.Grows g') (hKind : kind ≠ .hunk) :
    g'.find? kind name = none ↔ g.find? kind name = none := by
  constructor
  · intro hNone
    by_contra hSome
    have hFound := h.keeps.isSome_find? (Option.isSome_iff_ne_none.2 hSome)
    rw [hNone] at hFound
    cases hFound
  · intro hNone
    refine List.find?_eq_none.2 fun m hm hTest => ?_
    simp only [Bool.and_eq_true, decide_eq_true_eq] at hTest
    obtain ⟨n, hn, hLabel, _⟩ := h.declared m hm (by rwa [hTest.1])
    refine List.find?_eq_none.1 hNone n hn ?_
    simp only [hLabel, Bool.and_eq_true, decide_eq_true_eq]
    exact hTest

end Grows

end Graph

namespace ChangeGraph

open Java

variable {g g' : ChangeGraph} {graph : Graph} {s : Subject} {p : Placing} {a : Place}
  {places : List Place} {n : Node}

/-- Whether a place stands for no node: it is a statement, or an import for which there is none. -/
def Nodeless (graph : Graph) (s : Subject) (a : Place) : Prop :=
  a.kindIs Kind.isStatement = true ∨ a.node.isA .importDeclaration = true ∧
    graph.find? .imported (s.revision.scope
      (toString s.fileIndex ++ "#" ++ (importParts s.unit a.node).1)) = none

/-- Whether a hunk is put down to some places, none of which stands for a node. -/
structure FindsNone (graph : Graph) (a : Subject × Hunk) : Prop where
  some : anchors a.1 a.2 ≠ []
  none : ∀ place ∈ anchors a.1 a.2, Nodeless graph a.1 place

/-- Where the own node of a hunk belongs that is put down to some places: to the first entity of the
innermost declaration around them, with the owner and the member of its node, or nowhere if there
is no declaration around them. -/
inductive Belongs (s : Subject) (graph : Graph) (places : List Place) (n : Node) : Prop where
  | inside {d : Place} {i : Identity} {c : Node} (hInner : Innermost places d)
      (hFirst : (s.identities d).head? = some i)
      (hNode : graph.find? i.kind (s.revision.scope i.qualifiedName) = some c)
      (hEdges : graph.containedIn n.id = [c.id]) (hOwner : n.owner = c.owner)
      (hMember : n.member = c.member)
  | alone (hNone : ∀ d, ¬ Surrounds places d) (hEdges : graph.containedIn n.id = [])
      (hOwner : n.owner = none) (hMember : n.member = none)

theorem Belongs.length_le (h : Belongs s graph places n) : (graph.containedIn n.id).length ≤ 1 := by
  cases h with
  | inside _ _ _ hEdges => simp [hEdges]
  | alone _ hEdges => simp [hEdges]

/-- Whether the own nodes in a graph are those of the hunks that find no node to touch, and stand
where they belong. -/
structure Contained (all : List (Subject × Hunk)) (graph : Graph) : Prop where
  targets : ∀ e ∈ graph.edges, e.kind = .contains →
    ∃ n ∈ graph.nodes, n.id = e.target ∧ n.kind = .hunk
  own : ∀ n ∈ graph.nodes, n.kind = .hunk → ∃ a ∈ all, FindsNone graph a ∧ n.name = ownName a
  belong : ∀ a ∈ all, FindsNone graph a → ∃ n ∈ graph.nodes, n.kind = .hunk ∧
    n.name = ownName a ∧ Belongs a.1 graph (anchors a.1 a.2) n

section Grows

variable {before after : Graph} {b : Subject × Hunk} {all : List (Subject × Hunk)}

theorem nodeless_iff (h : before.Grows after) (s : Subject) (a : Place) :
    Nodeless after s a ↔ Nodeless before s a := by
  rw [Nodeless, Nodeless, h.find?_eq_none_iff (by decide)]

theorem findsNone_iff (h : before.Grows after) : FindsNone after b ↔ FindsNone before b :=
  ⟨fun hNone => ⟨hNone.some, fun a ha => (nodeless_iff h b.1 a).1 (hNone.none a ha)⟩,
    fun hNone => ⟨hNone.some, fun a ha => (nodeless_iff h b.1 a).2 (hNone.none a ha)⟩⟩

/-- A node goes on to belong where it does. -/
theorem Belongs.grow (h : before.Grows after) (hBuilt : after.Built) {m : Node}
    (hn : n ∈ before.nodes) (hLabel : m.toNodeLabel = n.toNodeLabel) (hId : m.id = n.id)
    (hBelongs : Belongs s before places n) : Belongs s after places m := by
  have hEdges : after.containedIn m.id = before.containedIn n.id := by rw [hId, h.contained n hn]
  cases hBelongs with
  | @inside d i c hInner hFirst hNode hContained hOwner hMember =>
      obtain ⟨c', hNode', hSame, hNumber⟩ := h.find? hBuilt hNode
      refine .inside hInner hFirst hNode' ?_ ?_ ?_
      · rw [hEdges, hContained, hNumber]
      · rw [hLabel, hSame, hOwner]
      · rw [hLabel, hSame, hMember]
  | alone hNone hContained hOwner hMember =>
      refine .alone hNone (hEdges.trans hContained) ?_ ?_
      · rw [hLabel, hOwner]
      · rw [hLabel, hMember]

/-- Some more hunks are placed. Own nodes of theirs come to where they belong. -/
theorem Contained.grow {more : List (Subject × Hunk)} (h : Contained all before)
    (hGrows : before.Grows after) (hBuilt : after.Built)
    (hTargets : ∀ e ∈ after.edges, e.kind = .contains →
      (∃ d ∈ before.edges, d.kind = .contains ∧ d.target = e.target) ∨
        ∃ n ∈ after.nodes, n.id = e.target ∧ n.kind = .hunk)
    (hOwn : ∀ m ∈ after.nodes, m.kind = .hunk →
      (∃ n ∈ before.nodes, n.toNodeLabel = m.toNodeLabel) ∨
        ∃ b ∈ more, FindsNone after b ∧ m.name = ownName b)
    (hBelong : ∀ b ∈ more, FindsNone after b → ∃ n ∈ after.nodes, n.kind = .hunk ∧
      n.name = ownName b ∧ Belongs b.1 after (anchors b.1 b.2) n) :
    Contained (all ++ more) after where
  targets := by
    intro e he hKind
    rcases hTargets e he hKind with ⟨d, hd, hContains, hSame⟩ | hNew
    · obtain ⟨n, hn, hTarget, hHunk⟩ := h.targets d hd hContains
      obtain ⟨m, hm, hLabel, hId⟩ := hGrows.keeps n hn
      exact ⟨m, hm, hId.trans (hTarget.trans hSame), by rwa [hLabel]⟩
    · exact hNew
  own := by
    intro m hm hHunk
    rcases hOwn m hm hHunk with ⟨n, hn, hLabel⟩ | ⟨b, hb, hNone, hName⟩
    · rw [← hLabel] at hHunk
      obtain ⟨a, ha, hNone, hName⟩ := h.own n hn hHunk
      rw [hLabel] at hName
      exact ⟨a, List.mem_append_left _ ha, (findsNone_iff hGrows).2 hNone, hName⟩
    · exact ⟨b, List.mem_append_right _ hb, hNone, hName⟩
  belong := by
    intro a ha hNone
    rcases List.mem_append.1 ha with ha | ha
    · obtain ⟨n, hn, hHunk, hName, hBelongs⟩ := h.belong a ha ((findsNone_iff hGrows).1 hNone)
      obtain ⟨m, hm, hLabel, hId⟩ := hGrows.keeps n hn
      refine ⟨m, hm, by rwa [hLabel], by rwa [hLabel], ?_⟩
      exact hBelongs.grow hGrows hBuilt hn hLabel hId
    · exact hBelong a ha hNone

end Grows

namespace Placing

@[simp] theorem anchors_define (p : Placing) (kind : NodeKind) (name : String) :
    (p.define kind name).hunk.anchors = p.hunk.anchors := by
  obtain ⟨_, _, _, hHunk⟩ := p.define_hunk kind name
  rw [hHunk]

@[simp] theorem anchors_claim (p : Placing) (s : Subject) (imported : String) :
    (p.claim s imported).hunk.anchors = p.hunk.anchors :=
  p.anchors_define .classType imported

/-- A hunk that touched nodes goes on to have touched some. -/
theorem touched_steady (s : Subject) : Steady s fun p => p.hunk.anchors ≠ [] where
  note _ hp := hp
  facts _ hp := hp
  define kind name hp := by rwa [anchors_define]
  claim imported hp := by rwa [anchors_claim]
  touch _ _ _ := by simp [Placing.touch]

/-- While a hunk goes over its anchors, nodes are marked and that is all. -/
theorem marked_steady (s : Subject) (graph : Graph) : Steady s fun p =>
    graph.Grows p.result.graph ∧ p.result.graph.edges = graph.edges ∧
      ∀ m ∈ p.result.graph.nodes, ∃ n ∈ graph.nodes, n.toNodeLabel = m.toNodeLabel where
  note _ hp := hp
  facts _ hp := hp
  define _ _ hp := hp
  claim _ hp := hp
  touch := by
    rintro p n _ _ ⟨hGrows, hEdges, hOld⟩
    refine ⟨hGrows.trans (.mark _ _ _), hEdges, fun m hm => ?_⟩
    obtain ⟨k, hk, hLabel, _⟩ := Graph.same_of_mem_mark hm
    obtain ⟨n, hn, hSame⟩ := hOld k hk
    exact ⟨n, hn, hSame.trans hLabel.symm⟩

theorem anchors_onImport_eq_nil_iff (s : Subject) (p : Placing) (a : Place) :
    (p.onImport s a).hunk.anchors = [] ↔ p.hunk.anchors = [] ∧
      p.result.graph.find? .imported (s.revision.scope
        (toString s.fileIndex ++ "#" ++ (importParts s.unit a.node).1)) = none := by
  have hGraph : (p.claim s (importParts s.unit a.node).1).result.graph = p.result.graph := rfl
  rw [onImport_eq]
  dsimp only
  rw [hGraph]
  split
  case h_1 n hFound =>
    rw [hFound]
    simp [touch]
  case h_2 hFound => rw [anchors_claim, hFound, and_iff_left rfl]

/-- A declaration stands for nodes. That of its first entity is touched, and the rest of them take
nothing back. -/
theorem anchors_onEntities_ne_nil (hReadable : s.unit.Readable)
    (hFielded : s.unit.root.Each Fielded) (hNodes : HasNodes s p.result.graph)
    (ha : a ∈ s.unit.top.everything) (hNamed : a.isNamedMember = true) :
    (p.onEntities s (s.identities a)).hunk.anchors ≠ [] := by
  have hKinds : ∀ i ∈ s.identities a, i.kind ≠ .hunk :=
    fun i hi => kind_ne_hunk_of_mem_identities hi
  have hFound := hNodes a ha hNamed
  obtain ⟨i, rest, hFirst⟩ := List.exists_cons_of_ne_nil
    (Subject.identities_ne_nil hReadable hFielded ha hNamed)
  rw [hFirst] at hKinds hFound ⊢
  obtain ⟨n, hn⟩ := Option.isSome_iff_exists.1
    (isSome_nodeFor? (hFound i (List.mem_cons_self ..)))
  rw [onEntities, hn]
  dsimp only
  exact (touched_steady s).onEntities (by simp [touch])
    fun j hj => hKinds j (List.mem_cons_of_mem _ hj)

/-- A hunk touches a node on an anchor just if the anchor stands for one. -/
theorem anchors_onAnchor_eq_nil_iff (hReadable : s.unit.Readable)
    (hFielded : s.unit.root.Each Fielded) (hNodes : HasNodes s p.result.graph)
    (ha : a ∈ s.unit.top.everything) (hSort : a.node.isA .importDeclaration = true ∨
      a.kindIs Kind.isStatement = true ∨ a.isNamedMember = true) :
    (p.onAnchor s a).hunk.anchors = [] ↔
      p.hunk.anchors = [] ∧ Nodeless p.result.graph s a := by
  unfold onAnchor Nodeless
  split
  case isTrue hImport =>
    have hStatement : a.kindIs Kind.isStatement = false := by
      have hKind := Place.isA_iff.1 hImport
      simp [Place.kindIs, Tree.kindIs, hKind, Kind.isStatement]
    simp only [anchors_onImport_eq_nil_iff, hStatement, hImport, Bool.false_eq_true, false_or,
      true_and]
  case isFalse hImport =>
    split
    case isTrue hStatement =>
      simp only [hStatement, true_or, and_true]
    case isFalse hStatement =>
      have hNamed := (hSort.resolve_left hImport).resolve_left hStatement
      simp only [anchors_onEntities_ne_nil hReadable hFielded hNodes ha hNamed, hImport, hStatement,
        Bool.false_eq_true, false_and, or_self, and_false]

/-- So a hunk touches none at all just if none of its anchors stands for one. -/
theorem anchors_foldl_eq_nil_iff {l : List Place} (hReadable : s.unit.Readable)
    (hFielded : s.unit.root.Each Fielded) (hNodes : HasNodes s p.result.graph)
    (hl : ∀ a ∈ l, a ∈ s.unit.top.everything ∧ (a.node.isA .importDeclaration = true ∨
      a.kindIs Kind.isStatement = true ∨ a.isNamedMember = true)) :
    (l.foldl (onAnchor s) p).hunk.anchors = [] ↔
      p.hunk.anchors = [] ∧ ∀ a ∈ l, Nodeless p.result.graph s a := by
  induction l generalizing p with
  | nil => simp
  | cons a l ih =>
      obtain ⟨⟨hMem, hSort⟩, hRest⟩ := List.forall_mem_cons.1 hl
      have hGrows : p.result.graph.Grows (p.onAnchor s a).result.graph :=
        ((marked_steady s p.result.graph).onAnchor
          ⟨.refl _, rfl, fun m hm => ⟨m, hm, rfl⟩⟩ a).1
      rw [List.foldl_cons, ih (hNodes.mono hGrows.keeps) hRest,
        anchors_onAnchor_eq_nil_iff hReadable hFielded hNodes hMem hSort, List.forall_mem_cons,
        and_assoc]
      simp only [nodeless_iff hGrows]

@[simp] theorem nodes_onOwn (p : Placing) (container : Option Node) (graph : Graph) (n : Node) :
    (p.onOwn container graph n).result.graph.nodes = (graph.mark n.id p.hunk.name).nodes := by
  cases container <;> rfl

theorem mem_nodes_onOwn {container : Option Node} {m : Node}
    (hAdd : p.result.graph.addNode (ownLabel (p.settled container)) = .ok (graph, n))
    (hm : m ∈ (p.onOwn container graph n).result.graph.nodes) :
    (∃ o ∈ p.result.graph.nodes, o.toNodeLabel = m.toNodeLabel) ∨
      m.toNodeLabel = ownLabel (p.settled container) := by
  rw [nodes_onOwn] at hm
  obtain ⟨k, hk, hLabel, _⟩ := Graph.same_of_mem_mark hm
  obtain ⟨_, rfl, rfl⟩ := Graph.addNode_eq_ok hAdd
  rcases List.mem_append.1 hk with hk | hk
  · exact .inl ⟨k, hk, hLabel.symm⟩
  · right
    rw [hLabel, List.mem_singleton.1 hk]

theorem containedIn_onOwn (p : Placing) (container : Option Node) (graph : Graph) (n : Node)
    (id : Nat) :
    (p.onOwn container graph n).result.graph.containedIn id =
      graph.containedIn id ++ if n.id = id then (container.map (·.id)).toList else [] := by
  cases container with
  | none =>
      rw [Option.map_none, Option.toList_none, ite_self, List.append_nil]
      rfl
  | some c => exact (graph.mark n.id p.hunk.name).containedIn_addEdge c.id n.id id

theorem mem_edges_onOwn {container : Option Node} {n : Node} {e : Edge}
    (he : e ∈ (p.onOwn container graph n).result.graph.edges) :
    e ∈ graph.edges ∨ e.target = n.id := by
  cases container with
  | none => exact .inl he
  | some c =>
      rcases List.mem_append.1 he with hOld | hNew
      · exact .inl hOld
      · rw [List.mem_singleton.1 hNew]
        exact .inr rfl

/-- The own node of a hunk is added to the graph with the edge to it. -/
theorem grows_onOwn {container : Option Node} (hBuilt : p.result.graph.Built)
    (hAdd : p.result.graph.addNode (ownLabel (p.settled container)) = .ok (graph, n)) :
    p.result.graph.Grows (p.onOwn container graph n).result.graph := by
  have hMarked := (Graph.Grows.addNode hAdd rfl).trans (.mark graph n.id p.hunk.name)
  refine ⟨?_, ?_, fun m hm => ?_⟩
  · intro m hm
    rw [nodes_onOwn]
    exact hMarked.keeps m hm
  · rw [nodes_onOwn]
    exact hMarked.declared
  · have hNe : n.id ≠ m.id := by
      intro hSame
      apply hBuilt.id_notMem_numbers (r := m.revision) hAdd
      rw [hSame]
      exact Graph.id_mem_numbers hm
    rw [containedIn_onOwn, if_neg hNe, List.append_nil, Graph.containedIn_addNode hAdd]

/-- It comes to where it belongs. -/
theorem belongs_onOwn {source : List UInt8} {path : String} {container : Option Node}
    (hParse : SourceUnit.parse source path = .ok s.unit) (hApart : p.Apart s)
    (hNodes : HasNodes s p.result.graph) (hPlaces : ∀ a ∈ places, a ∈ s.unit.top.everything)
    (hContainer : containerFor? s p.result.graph places = container)
    (hAdd : p.result.graph.addNode (ownLabel (p.settled container)) = .ok (graph, n)) :
    ∃ m ∈ (p.onOwn container graph n).result.graph.nodes, m.id = n.id ∧ m.kind = .hunk ∧
      m.name = p.hunk.key ∧ Belongs s (p.onOwn container graph n).result.graph places m := by
  have hGrows := grows_onOwn hApart.finish.built hAdd
  have hBuilt : (p.onOwn container graph n).result.graph.Built :=
    (hApart.onOwn hAdd fun c hc => finds_of_containerFor? (hContainer.trans hc)).finish.built
  obtain ⟨m, hm, hLabel, hId⟩ : ∃ m ∈ (p.onOwn container graph n).result.graph.nodes,
      m.toNodeLabel = ownLabel (p.settled container) ∧ m.id = n.id := by
    obtain ⟨hMem, hOwn⟩ := Graph.mem_addNode hAdd
    obtain ⟨m, hm, hLabel, hId⟩ := Graph.exists_mem_mark hMem n.id p.hunk.name
    exact ⟨m, by rwa [nodes_onOwn], hLabel.trans hOwn, hId⟩
  have hEdges : (p.onOwn container graph n).result.graph.containedIn m.id =
      (container.map (·.id)).toList := by
    have hNew : p.result.graph.containedIn n.id = [] :=
      hApart.finish.built.containedIn_new hApart.finish.joins hAdd
    rw [hId, containedIn_onOwn, if_pos rfl, Graph.containedIn_addNode hAdd, hNew, List.nil_append]
  refine ⟨m, hm, hId, by rw [hLabel]; rfl, by rw [hLabel]; rfl, ?_⟩
  rcases containerFor?_cases hParse hPlaces hNodes with
    ⟨d, i, c, hInner, hFirst, hNode, hFound⟩ | ⟨hNone, hFound⟩
  · obtain rfl : container = some c := hContainer.symm.trans hFound
    obtain ⟨c', hNode', hSame, hNumber⟩ := hGrows.find? hBuilt hNode
    refine .inside hInner hFirst hNode' ?_ ?_ ?_
    · rw [hEdges, hNumber]
      rfl
    · rw [hLabel, hSame]
      rfl
    · rw [hLabel, hSame]
      rfl
  · obtain rfl : container = none := hContainer.symm.trans hFound
    exact .alone hNone hEdges (by rw [hLabel]; rfl) (by rw [hLabel]; rfl)

end Placing

variable {all : List (Subject × Hunk)} {h : Hunk}

/-- Placing one hunk adds its own node where it belongs, if the hunk finds no other node. -/
theorem contained_placeHunk {source : List UInt8} {path : String}
    (hParse : SourceUnit.parse source path = .ok s.unit) (hApart : Apart g)
    (hNodes : HasNodes s g.graph) (hContained : Contained all g.graph)
    (hPlace : placeHunk s g h = .ok g') : Contained (all ++ [(s, h)]) g'.graph := by
  have hBuilt : g'.graph.Built := (apart_placeHunk hApart hPlace).built
  obtain ⟨hGrows, hEdges, hOld⟩ := (Placing.marked_steady s g.graph).anchored h
    ⟨.refl _, rfl, fun m hm => ⟨m, hm, rfl⟩⟩
  have hUntouched : (anchored s g h).hunk.anchors = [] ↔
      ∀ a ∈ anchors s h, Nodeless g.graph s a := by
    rw [anchored, Placing.anchors_foldl_eq_nil_iff (SourceUnit.readable_of_parse hParse)
      (SourceUnit.fielded_of_parse hParse) hNodes fun a ha => mem_everything_of_mem_anchors ha]
    exact and_iff_right rfl
  rcases placeHunk_eq_ok hPlace with ⟨hNil, rfl⟩ | ⟨hSome, p, rfl, ⟨hTouched, rfl⟩ | ⟨hNone, hAdd⟩⟩
  · -- A hunk that is put down to no place leaves the graph alone.
    refine hContained.grow (.refl _) hBuilt (fun e he hKind => .inl ⟨e, he, hKind, rfl⟩)
      (fun m hm _ => .inl ⟨m, hm, rfl⟩) (List.forall_mem_singleton.2 fun hFinds => ?_)
    exact absurd hNil hFinds.some
  · -- One that touched a node left marks only.
    refine hContained.grow hGrows hBuilt (fun e he hKind => .inl ⟨e, hEdges ▸ he, hKind, rfl⟩)
      (fun m hm _ => .inl (hOld m hm)) (List.forall_mem_singleton.2 fun hFinds => ?_)
    exact absurd (hUntouched.2 ((findsNone_iff hGrows).1 hFinds).none) hTouched
  · obtain ⟨graph, n, hNode, rfl⟩ := addHunkNode_eq_ok hAdd
    have hAnchored := apart_anchored hApart s h
    obtain ⟨m, hm, hId, hHunk, hName, hBelongs⟩ := Placing.belongs_onOwn hParse hAnchored
      (hNodes.mono hGrows.keeps) (fun a ha => (mem_everything_of_mem_anchors ha).1) rfl hNode
    have hAll := hGrows.trans (Placing.grows_onOwn hAnchored.finish.built hNode)
    refine hContained.grow hAll hBuilt (fun e he hKind => ?_) (fun k hk hKind => ?_)
      (List.forall_mem_singleton.2 fun _ => ⟨m, hm, hHunk, ?_, hBelongs⟩)
    · rcases Placing.mem_edges_onOwn he with hOldEdge | hNew
      · refine .inl ⟨e, ?_, hKind, rfl⟩
        obtain ⟨_, _, rfl⟩ := Graph.addNode_eq_ok hNode
        rwa [← hEdges]
      · exact .inr ⟨m, hm, hId.trans hNew.symm, hHunk⟩
    · rcases Placing.mem_nodes_onOwn hNode hk with ⟨o, ho, hSame⟩ | hOwn
      · obtain ⟨m, hm, hLabel⟩ := hOld o ho
        exact .inl ⟨m, hm, hLabel.trans hSame⟩
      · refine .inr ⟨(s, h), List.mem_singleton.2 rfl,
          (findsNone_iff hAll).2 ⟨hSome, hUntouched.1 hNone⟩, ?_⟩
        rw [hOwn]
        exact key_anchored s g h
    · exact hName.trans (key_anchored s g h)

/-- Before any hunk is placed, nothing contains anything. -/
theorem contained_declared (subjects : List (Subject × FileChange)) (notes : List Note) :
    Contained [] (declared subjects notes).graph where
  targets := by
    rw [edges_declared]
    exact List.forall_mem_nil _
  own n hn hKind := absurd rfl (free_declared subjects notes n.name n hn hKind)
  belong := List.forall_mem_nil _

/-- Placing all hunks adds the own nodes of those that find no other node. The induction is on the
hunks that are placed already. -/
theorem contained_placeAll {subjects : List (Subject × FileChange)}
    (hParses : ∀ t ∈ subjects, ∃ source path, SourceUnit.parse source path = .ok t.1.unit)
    (hApart : Apart g) (hSure : Sure (subjects.map (·.1)) g) (hStart : Contained [] g.graph)
    (hPlace : placeAll subjects g = .ok g') : Contained (assignments subjects) g'.graph := by
  rw [placeAll_eq] at hPlace
  refine (foldlM_history (fun done g => Contained done g.graph ∧ Apart g ∧
    Sure (subjects.map (·.1)) g) [] ⟨hStart, hApart, hSure⟩ hPlace ?_).1
  rintro a ha done g g' ⟨hContained, hApart, hSure⟩ hStep
  obtain ⟨t, ht, hHunk⟩ := List.mem_flatMap.1 ha
  obtain ⟨h, _, rfl⟩ := List.mem_map.1 hHunk
  have hMem : t.1 ∈ subjects.map (·.1) := List.mem_map_of_mem ht
  obtain ⟨source, path, hParse⟩ := hParses t ht
  exact ⟨contained_placeHunk hParse hApart (hSure.nodes t.1 hMem) hContained hStep,
    apart_placeHunk hApart hStep, sure_placeHunk hSure hMem hStep⟩

theorem containedIn_wire (g : ChangeGraph) (id : Nat) :
    g.wire.graph.containedIn id = g.graph.containedIn id := by
  have hLinks (graph : Graph) : graph.containedIn id = ((graph.edges.map Edge.link).filter
      fun l => l.kind = .contains && l.target = id).map (·.source) := by
    rw [Graph.containedIn, List.filter_map, List.map_map]
    rfl
  have hNone : g.links.filter (fun l => l.kind = .contains && l.target = id) = [] := by
    refine List.filter_eq_nil_iff.2 fun l hl hTest => ?_
    simp only [Bool.and_eq_true, decide_eq_true_eq] at hTest
    exact kind_ne_contains_of_mem_links hl hTest.1
  rw [hLinks, map_link_wire, List.filter_append, hNone, List.append_nil, ← hLinks]

theorem grows_wire (g : ChangeGraph) : g.graph.Grows g.wire.graph where
  keeps n hn := ⟨n, by rwa [wire_nodes], rfl, rfl⟩
  declared m hm _ := ⟨m, by rwa [wire_nodes] at hm, rfl, rfl⟩
  contained n _ := containedIn_wire g n.id

/-- Drawing the edges that follow from what is known leaves own nodes where they are. -/
theorem contained_wire (hBuilt : g.graph.Built) (hContained : Contained all g.graph) :
    Contained all g.wire.graph := by
  have hMore := hContained.grow (grows_wire g) (built_wire hBuilt) (fun e he hKind => ?_)
    (fun m hm _ => .inl ⟨m, by rwa [wire_nodes] at hm, rfl⟩) (List.forall_mem_nil _)
  · rwa [List.append_nil] at hMore
  · left
    have hLink := List.mem_map_of_mem (f := Edge.link) he
    rw [map_link_wire] at hLink
    rcases List.mem_append.1 hLink with hOld | hNew
    · obtain ⟨d, hd, hSame⟩ := List.mem_map.1 hOld
      exact ⟨d, hd, (congrArg Link.kind hSame).trans hKind, congrArg Link.target hSame⟩
    · exact absurd hKind (kind_ne_contains_of_mem_links hNew)

section Build

variable {rootPath : String} {root : Folder} {path : List String} {files : List FileChange}

theorem contained_build (hBuild : build rootPath root path files = .ok g) :
    g.graph.Built ∧ Contained (assignments (subjectsIn rootPath root path files)) g.graph := by
  obtain ⟨placed, note, hPlaced, rfl⟩ := exists_placed_of_build hBuild
  have hDeclared := origins_declared rootPath root path files
  have hApart : Apart placed := apart_placeAll (apart_declared _ _) hPlaced
  refine ⟨built_wire hApart.built, contained_wire hApart.built ?_⟩
  refine contained_placeAll (fun t ht => ?_) (apart_declared _ _) hDeclared.sure
    (contained_declared _ _) hPlaced
  obtain ⟨source, _, unit, hParse, rfl⟩ := mem_subjectsIn.1 ht
  exact ⟨_, _, hParse⟩

/-- Every edge of containment leads to the own node of a hunk, and to such a node there is at most
one. A hunk gets a node of its own just if none of the places to which it is put down stands for
another one. It is contained in the node of the first entity of the innermost declaration around
those of the places that are no imports and have a declaration around them, and shares its owner
and its member with this node. If there is no such declaration, it is contained in none and has
neither. -/
theorem hunks_contained (hBuild : build rootPath root path files = .ok g) :
    (∀ e ∈ g.graph.edges, e.kind = .contains →
      ∃ n, g.graph.node? e.target = some n ∧ n.kind = .hunk) ∧
    (∀ n ∈ g.graph.nodes, n.kind = .hunk →
      (g.graph.containedIn n.id).length ≤ 1 ∧
      (∃ a ∈ assignments (subjectsIn rootPath root path files),
        FindsNone g.graph a ∧ n.name = ownName a) ∧
      ∀ a ∈ assignments (subjectsIn rootPath root path files),
        FindsNone g.graph a → n.name = ownName a →
        Belongs a.1 g.graph (anchors a.1 a.2) n) ∧
    ∀ a ∈ assignments (subjectsIn rootPath root path files), FindsNone g.graph a →
      ∃ n ∈ g.graph.nodes, n.kind = .hunk ∧ n.name = ownName a := by
  obtain ⟨hBuilt, hContained⟩ := contained_build hBuild
  have hBelongs (n : Node) (hn : n ∈ g.graph.nodes) (hKind : n.kind = .hunk)
      (a : Subject × Hunk) (ha : a ∈ assignments (subjectsIn rootPath root path files))
      (hNone : FindsNone g.graph a) (hName : n.name = ownName a) :
      Belongs a.1 g.graph (anchors a.1 a.2) n := by
    obtain ⟨m, hm, hOwn, hSame, hBelongs⟩ := hContained.belong a ha hNone
    rwa [hBuilt.eq_of_name hn hm (hKind.trans hOwn.symm) (hName.trans hSame.symm)]
  refine ⟨fun e he hKind => ?_, fun n hn hKind => ?_, fun a ha hNone => ?_⟩
  · obtain ⟨n, hn, hId, hHunk⟩ := hContained.targets e he hKind
    exact ⟨n, hId ▸ hBuilt.node?_id hn, hHunk⟩
  · obtain ⟨a, ha, hNone, hName⟩ := hContained.own n hn hKind
    refine ⟨?_, ⟨a, ha, hNone, hName⟩, hBelongs n hn hKind⟩
    exact (hBelongs n hn hKind a ha hNone hName).length_le
  · obtain ⟨n, hn, hKind, hName, _⟩ := hContained.belong a ha hNone
    exact ⟨n, hn, hKind, hName⟩

/-- A class with two fields that are declared at once, a method, and a block with an import in it.
A statement stands behind it. -/
def spreadFolder : Folder := ⟨[(["current", "A.java"], Utf8.encode
  ("class A\x7bR x, y = () -> \x7b\ng();\n\x7d;void f()\x7b\ng();\n\x7d\x7b\n" ++
    "import b.C;\ng();\n\x7d\x7d\ng();"))]⟩

/-- A change of the statement in the initial value of a field, one from the statement in the method
to the import, one that goes on to the statement behind the import, one of the import only, and one
of the statement behind the class. -/
def spreadChange : List FileChange := [
  { index := 0, currentPath := some "A.java"
    hunks := [{ index := 0, current := ⟨2, 2, ["g();"]⟩ },
      { index := 1, current := ⟨4, 6, ["g();", "\x7d\x7b", "import b.C;"]⟩ },
      { index := 2, current := ⟨4, 7, ["g();", "\x7d\x7b", "import b.C;", "g();"]⟩ },
      { index := 3, current := ⟨6, 6, ["import b.C;"]⟩ },
      { index := 4, current := ⟨9, 9, ["g();"]⟩ }] }]

/-- The import does not count, so the second hunk is in the method. Only the last two hunks have no
declaration around what counts. -/
theorem hunks_contained_spread :
    ∃ g, build "" spreadFolder [] spreadChange = .ok g ∧
      (g.graph.nodes.filter (·.kind = .hunk)).map (fun n => ((g.graph.containedIn n.id).map
          fun id => (g.graph.node? id).map (·.name), n.owner, n.member)) =
        [([some "current:A.x"], some "A", some "A.x"),
          ([some "current:A.f()"], some "A", some "A.f()"),
          ([some "current:A"], some "A", none), ([], none, none), ([], none, none)] ∧
      (∀ e ∈ g.graph.edges, e.kind = .contains →
        ∃ n, g.graph.node? e.target = some n ∧ n.kind = .hunk) ∧
      ∀ n ∈ g.graph.nodes, n.kind = .hunk →
        ∃ a ∈ assignments (subjectsIn "" spreadFolder [] spreadChange),
          n.name = ownName a ∧ Belongs a.1 g.graph (anchors a.1 a.2) n := by
  have hSpread : ∃ g ∈ (build "" spreadFolder [] spreadChange).toOption.toList,
      (g.graph.nodes.filter (·.kind = .hunk)).map (fun n => ((g.graph.containedIn n.id).map
          fun id => (g.graph.node? id).map (·.name), n.owner, n.member)) =
        [([some "current:A.x"], some "A", some "A.x"),
          ([some "current:A.f()"], some "A", some "A.f()"),
          ([some "current:A"], some "A", none), ([], none, none), ([], none, none)] := by
    decide +kernel
  obtain ⟨g, hMem, hOwn⟩ := hSpread
  have hBuild := mem_toOption_iff.1 hMem
  obtain ⟨hTargets, hEach, _⟩ := hunks_contained hBuild
  refine ⟨g, hBuild, hOwn, hTargets, fun n hn hKind => ?_⟩
  obtain ⟨_, ⟨a, ha, hNone, hName⟩, hBelongs⟩ := hEach n hn hKind
  exact ⟨a, ha, hName, hBelongs a ha hNone hName⟩

end Build

end ChangeGraph

end ChangeSplit
