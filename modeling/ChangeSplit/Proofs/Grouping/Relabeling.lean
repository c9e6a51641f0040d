import ChangeSplit.Proofs.Grouping.Copy
import ChangeSplit.Proofs.Grouping.Together

/-! Grouping does not look at the numbers of nodes and edges. Two graphs with the same nodes and the
same edges between them lead to the same groups, in whatever order they were built. Each of them is
all of the other, under other numbers. -/

namespace ChangeSplit

namespace Graph

/-- The edges of a graph, with the nodes that they join instead of their numbers. -/
def namedEdges (g : Graph) : List (EdgeKind × Option NodeLabel × Option NodeLabel) :=
  g.edges.map fun e =>
    (e.kind, (g.node? e.source).map (·.toNodeLabel), (g.node? e.target).map (·.toNodeLabel))

/-- Whether two graphs have the same nodes with the same marks, and the same edges between them,
each as often. -/
structure SameMultigraph (g g' : Graph) : Prop where
  nodes : (g.nodes.map fun n => (n.toNodeLabel, n.marks)).Perm
    (g'.nodes.map fun n => (n.toNodeLabel, n.marks))
  edges : g.namedEdges.Perm g'.namedEdges

/-- The number that a node has in a graph. -/
def numberOf (g : Graph) (label : NodeLabel) : Nat :=
  ((g.nodes.find? (·.toNodeLabel = label)).map (·.id)).getD 0

theorem Built.numberOf_label {g : Graph} (h : g.Built) {n : Node} (hn : n ∈ g.nodes) :
    g.numberOf n.toNodeLabel = n.id := by
  rw [numberOf]
  cases hFound : g.nodes.find? (·.toNodeLabel = n.toNodeLabel) with
  | none => simpa using List.find?_eq_none.1 hFound n hn
  | some m =>
      have hLabel : m.toNodeLabel = n.toNodeLabel := by simpa using List.find?_some hFound
      rw [List.inj_on_of_nodup_map h.nodup_labels (List.mem_of_find?_eq_some hFound) hn hLabel]
      rfl

/-- The number in another graph of the node that has a number in a graph. -/
def translate (g g' : Graph) (id : Nat) : Nat :=
  ((g.node? id).map (·.toNodeLabel)).elim 0 g'.numberOf

namespace SameMultigraph

variable {g g' : Graph}

theorem exists_image (h : g.SameMultigraph g') (hBuilt : g.Built) (hBuilt' : g'.Built) {m : Node}
    (hm : m ∈ g.nodes) : ∃ n ∈ g'.nodes,
      n.id = g.translate g' m.id ∧ n.toNodeLabel = m.toNodeLabel ∧ n.marks = m.marks := by
  have hMem : (m.toNodeLabel, m.marks) ∈ g'.nodes.map fun n => (n.toNodeLabel, n.marks) :=
    h.nodes.mem_iff.1 (List.mem_map.2 ⟨m, hm, rfl⟩)
  obtain ⟨n, hn, hSame⟩ := List.mem_map.1 hMem
  obtain ⟨hLabel, hMarks⟩ := Prod.mk.inj hSame
  refine ⟨n, hn, ?_, hLabel, hMarks⟩
  rw [translate, hBuilt.node?_id hm, ← hBuilt'.numberOf_label hn, hLabel]
  rfl

theorem exists_source (h : g.SameMultigraph g') (hBuilt : g.Built) (hBuilt' : g'.Built) {n : Node}
    (hn : n ∈ g'.nodes) : ∃ m ∈ g.nodes, n.id = g.translate g' m.id := by
  have hMem : (n.toNodeLabel, n.marks) ∈ g.nodes.map fun n => (n.toNodeLabel, n.marks) :=
    h.nodes.mem_iff.2 (List.mem_map.2 ⟨n, hn, rfl⟩)
  obtain ⟨m, hm, hSame⟩ := List.mem_map.1 hMem
  refine ⟨m, hm, ?_⟩
  rw [translate, hBuilt.node?_id hm, ← hBuilt'.numberOf_label hn, ← (Prod.mk.inj hSame).1]
  rfl

/-- The other graph is closed, too: its edges are between nodes that have a name. -/
theorem closed (h : g.SameMultigraph g') (hClosed : g.Closed) : g'.Closed := by
  have hHas {g : Graph} {id : Nat} : g.Has id ↔ (g.node? id).isSome = true := by
    simp [Has, node?]
  intro e he
  have hMem : _ ∈ g.namedEdges := h.edges.mem_iff.2 (List.mem_map_of_mem he)
  obtain ⟨d, hd, hSame⟩ := List.mem_map.1 hMem
  have hEnds := Prod.mk.inj (Prod.mk.inj hSame).2
  have hSource := hHas.1 (hClosed.has_source hd)
  have hTarget := hHas.1 (hClosed.has_target hd)
  rw [← Option.isSome_map, hEnds.1, Option.isSome_map] at hSource
  rw [← Option.isSome_map, hEnds.2, Option.isSome_map] at hTarget
  exact ⟨hHas.2 hSource, hHas.2 hTarget⟩

theorem map_link (h : g.SameMultigraph g') (hBuilt' : g'.Built) (hClosed : g'.Closed) :
    (g'.edges.map Edge.link).Perm (g.edges.map (·.link.renumber (g.translate g'))) := by
  have hNumber {id : Nat} (hId : g'.Has id) :
      ((g'.node? id).map (·.toNodeLabel)).elim 0 g'.numberOf = id := by
    obtain ⟨n, hn, rfl⟩ := hId
    rw [hBuilt'.node?_id hn]
    exact hBuilt'.numberOf_label hn
  let link (e : EdgeKind × Option NodeLabel × Option NodeLabel) : ChangeGraph.Link :=
    ⟨e.2.1.elim 0 g'.numberOf, e.2.2.elim 0 g'.numberOf, e.1⟩
  have hTheirs : g'.edges.map Edge.link = g'.namedEdges.map link := by
    rw [namedEdges, List.map_map]
    apply List.map_congr_left
    intro e he
    simp only [Function.comp_apply, link, Edge.link, hNumber (hClosed.has_source he),
      hNumber (hClosed.has_target he)]
  have hOurs : g.edges.map (·.link.renumber (g.translate g')) = g.namedEdges.map link := by
    rw [namedEdges, List.map_map]
    rfl
  rw [hTheirs, hOurs]
  exact (h.edges.map link).symm

/-- Under the numbers of the other graph, a graph is all of it. -/
theorem decomposes (h : g.SameMultigraph g') (hBuilt : g.Built) (hBuilt' : g'.Built)
    (hClosed : g.Closed) : g'.Decomposes (fun _ : Unit => g) fun _ => g.translate g' where
  embeds _ := by
    have hClosed' := h.closed hClosed
    refine ⟨hClosed, ?_, fun m hm => h.exists_image hBuilt hBuilt' hm, ?_⟩
    · rintro _ _ ⟨m, hm, rfl⟩ ⟨n, hn, rfl⟩ hSame
      obtain ⟨m', hm', hId, hLabel, _⟩ := h.exists_image hBuilt hBuilt' hm
      obtain ⟨n', hn', hId', hLabel', _⟩ := h.exists_image hBuilt hBuilt' hn
      have hOne := hBuilt'.eq_of_id hm' hn' (hId.trans (hSame.trans hId'.symm))
      rw [List.inj_on_of_nodup_map hBuilt.nodup_labels hm hn
        (hLabel.symm.trans ((congrArg Node.toNodeLabel hOne).trans hLabel'))]
    · rw [List.filter_eq_self.2 fun l hl => ?_]
      · exact h.map_link hBuilt' hClosed'
      · obtain ⟨e, he, rfl⟩ := List.mem_map.1 hl
        obtain ⟨n, hn, hEnd⟩ := hClosed'.has_source he
        obtain ⟨m, hm, hId⟩ := h.exists_source hBuilt hBuilt' hn
        rw [decide_eq_true_eq]
        exact .inl (List.mem_map.2 ⟨m, hm, hId.symm.trans hEnd⟩)
  covers n hn := by
    obtain ⟨m, hm, hId⟩ := h.exists_source hBuilt hBuilt' hn
    exact ⟨(), m, hm, hId⟩
  distinct i j hNe := absurd rfl hNe
  unrelated i j hNe := absurd rfl hNe
  unshared i j hNe := absurd rfl hNe

end SameMultigraph

end Graph

namespace Grouping

/-- Grouping depends on the graph only as a multigraph: the order in which nodes and edges were
added, and nodes marked, makes no difference to the groups. -/
theorem groups_eq_of_sameMultigraph (s : Settings) (files : List FileChange) {g g' : Graph}
    (hBuilt : g.Built) (hBuilt' : g'.Built) (hClosed : g.Closed) (hMarked : g.HunkMarked)
    (h : g.SameMultigraph g') :
    (groups s g files).map (·.map Group.content) =
      (groups s g' files).map (·.map Group.content) := by
  have hDecomposes := h.decomposes hBuilt hBuilt' hClosed
  have hMarked' := hunkMarked_of_parts hDecomposes hBuilt' fun _ => hMarked
  have hExists : (∃ ms, members g' s.maxDistance = .ok ms) ↔
      ∀ _ : Unit, ∃ ms, members g s.maxDistance = .ok ms :=
    exists_members_iff_parts hDecomposes (fun _ => hBuilt) hBuilt' fun _ => hMarked
  cases hEmpty : (hunkNames files).isEmpty with
  | true => rw [groups_of_isEmpty s g hEmpty, groups_of_isEmpty s g' hEmpty]
  | false =>
      rw [groups_eq s g hEmpty, groups_eq s g' hEmpty]
      cases hMembers : members g s.maxDistance with
      | error e =>
          cases hMembers' : members g' s.maxDistance with
          | error e' =>
              rw [members_eq_error hMarked hMembers, members_eq_error hMarked' hMembers']
              simp only [Except.map]
          | ok ms' =>
              obtain ⟨ms, hMembers''⟩ := hExists.1 ⟨ms', hMembers'⟩ ()
              rw [hMembers] at hMembers''
              cases hMembers''
      | ok ms =>
          obtain ⟨ms', hMembers'⟩ := hExists.2 fun _ => ⟨ms, hMembers⟩
          have hMirrors := mirrors_mergeClusters hDecomposes (fun _ => hBuilt) hBuilt' s
            (fun _ => hMarked) (fun _ => hMembers) hMembers'
          rw [hMembers']
          refine congrArg Except.ok (map_content_groupsOf
            (separate_mergeClusters (separate_initial hBuilt hMarked hMembers))
            (separate_mergeClusters (separate_initial hBuilt' hMarked' hMembers'))
            fun hunks => ⟨?_, ?_⟩)
          · rintro ⟨c, hc, rfl⟩
            obtain ⟨c', hc', hCopy⟩ := hMirrors.image () c hc
            exact ⟨c', hc', hCopy.hunks⟩
          · rintro ⟨c', hc', rfl⟩
            obtain ⟨_, c, hc, hCopy⟩ := hMirrors.source c' hc'
            exact ⟨c, hc, hCopy.hunks.symm⟩

/-- The same two methods as in `callPair`, added and marked in the other order. -/
def callPairReversed : Graph :=
  let nodes : List Node := [⟨methodLabel "g", 1, none, ∅⟩, ⟨methodLabel "f", 2, none, ∅⟩]
  (((⟨nodes, []⟩ : Graph).addEdge 2 1 .calls).mark 1 "0:1").mark 2 "0:0"

theorem built_callPairReversed : callPairReversed.Built :=
  .mark 2 _ (.mark 1 _ (.addEdge 2 1 .calls
    ((Graph.Built.empty.append (methodLabel "g") rfl).append (methodLabel "f") rfl)))

theorem groups_eq_of_sameMultigraph_callPair :
    (groups { minSimilarity := .finite 0 } callPair twoHunks).map (·.map Group.content) =
        (groups { minSimilarity := .finite 0 } callPairReversed twoHunks).map
          (·.map Group.content) ∧
      ((groups { minSimilarity := .finite 0 } callPair twoHunks).toOption.map
        (·.map Group.content)) = some [("group0", ["0:0", "0:1"])] := by
  have hSame : callPair.SameMultigraph callPairReversed := ⟨.swap _ _ _, .refl _⟩
  have hClosed : callPair.Closed := by
    unfold Graph.Closed
    decide
  exact ⟨groups_eq_of_sameMultigraph { minSimilarity := .finite 0 } twoHunks built_callPair
    built_callPairReversed hClosed hunkMarked_callPair hSame, by decide +kernel⟩

end Grouping

end ChangeSplit
