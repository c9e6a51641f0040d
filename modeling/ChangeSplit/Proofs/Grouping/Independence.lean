import ChangeSplit.Proofs.Grouping.Copy
import ChangeSplit.Proofs.Grouping.Together

/-! Changes that have nothing to do with each other are grouped as if each were alone. Their graphs
share no edge and no hunk, and no member, owner or package ties a node of one to a node of the
other. -/

namespace ChangeSplit

/-- Two things as a family. -/
def ofTwo {α : Type} (x y : α) : Bool → α
  | false => x
  | true => y

namespace Graph

/-- A graph made up of two others has the edges of one of them at its nodes. -/
theorem embeds_of_perm {u a b : Graph} {f k : Nat → Nat} (ha : a.Closed) (hb : b.Closed)
    (hIds : (u.nodes.map (·.id)).Nodup)
    (hNodes : u.nodes.Perm (a.nodes.map (·.renumber f) ++ b.nodes.map (·.renumber k)))
    (hLinks : (u.edges.map Edge.link).Perm
      (a.edges.map (·.link.renumber f) ++ b.edges.map (·.link.renumber k))) :
    a.Embeds u f ∧ ∀ x y, a.Has x → b.Has y → f x ≠ k y := by
  have hNodup : (a.nodes.map (f ·.id) ++ b.nodes.map (k ·.id)).Nodup := by
    have hMap := (hNodes.map (·.id)).nodup_iff.1 hIds
    rwa [List.map_append, List.map_map, List.map_map] at hMap
  obtain ⟨hOwn, _, hApart⟩ := List.nodup_append.1 hNodup
  have hDistinct : ∀ x y, a.Has x → b.Has y → f x ≠ k y := by
    rintro _ _ ⟨m, hm, rfl⟩ ⟨n, hn, rfl⟩
    exact hApart _ (List.mem_map.2 ⟨m, hm, rfl⟩) _ (List.mem_map.2 ⟨n, hn, rfl⟩)
  refine ⟨⟨ha, ?_, ?_, ?_⟩, hDistinct⟩
  · rintro _ _ ⟨m, hm, rfl⟩ ⟨n, hn, rfl⟩ hSame
    rw [List.inj_on_of_nodup_map hOwn hm hn hSame]
  · intro m hm
    refine ⟨m.renumber f, hNodes.mem_iff.2 (List.mem_append_left _ (List.mem_map_of_mem hm)), ?_⟩
    exact ⟨rfl, rfl, rfl⟩
  · have hKept : ∀ l ∈ a.edges.map (·.link.renumber f), decide
        (l.source ∈ a.nodes.map (f ·.id) ∨ l.target ∈ a.nodes.map (f ·.id)) = true := by
      intro l hl
      obtain ⟨e, he, rfl⟩ := List.mem_map.1 hl
      rw [decide_eq_true_eq]
      exact .inl (Embeds.mem_image.2 ⟨e.source, ha.has_source he, rfl⟩)
    have hDropped : ∀ l ∈ b.edges.map (·.link.renumber k), ¬ decide
        (l.source ∈ a.nodes.map (f ·.id) ∨ l.target ∈ a.nodes.map (f ·.id)) = true := by
      intro l hl
      obtain ⟨e, he, rfl⟩ := List.mem_map.1 hl
      rw [decide_eq_true_eq, Embeds.mem_image, Embeds.mem_image]
      rintro (⟨x, hx, hSame⟩ | ⟨x, hx, hSame⟩)
      · exact hDistinct x _ hx (hb.has_source he) hSame
      · exact hDistinct x _ hx (hb.has_target he) hSame
    refine (hLinks.filter _).trans ?_
    rw [List.filter_append, List.filter_eq_self.2 hKept, List.filter_eq_nil_iff.2 hDropped,
      List.append_nil]

/-- A graph made up of two others that have nothing in common. -/
theorem IsUnion.exists_decomposes {u a b : Graph} (h : u.IsUnion a b)
    (hUnrelated : ∀ m ∈ a.nodes, ∀ n ∈ b.nodes, m.Unrelated n)
    (hUnshared : ∀ m ∈ a.nodes, ∀ n ∈ b.nodes, ∀ name ∈ m.marks, ¬ name ∈ n.marks) :
    ∃ f, u.Decomposes (ofTwo a b) f := by
  obtain ⟨ha, hb, hIds, f, k, hNodes, hLinks⟩ := h
  obtain ⟨hA, hDistinct⟩ := embeds_of_perm ha hb hIds hNodes hLinks
  obtain ⟨hB, _⟩ := embeds_of_perm hb ha hIds (hNodes.trans List.perm_append_comm)
    (hLinks.trans List.perm_append_comm)
  refine ⟨ofTwo f k, ?_, ?_, ?_, ?_, ?_⟩
  · rintro (_ | _)
    · exact hA
    · exact hB
  · intro n hn
    rcases List.mem_append.1 (hNodes.mem_iff.1 hn) with hn | hn
    · obtain ⟨m, hm, rfl⟩ := List.mem_map.1 hn
      exact ⟨false, m, hm, rfl⟩
    · obtain ⟨m, hm, rfl⟩ := List.mem_map.1 hn
      exact ⟨true, m, hm, rfl⟩
  · rintro (_ | _) (_ | _) hNe x y hx hy
    · exact absurd rfl hNe
    · exact hDistinct x y hx hy
    · exact (hDistinct y x hy hx).symm
    · exact absurd rfl hNe
  · rintro (_ | _) (_ | _) hNe m hm n hn
    · exact absurd rfl hNe
    · exact hUnrelated m hm n hn
    · exact (hUnrelated n hn m hm).symm
    · exact absurd rfl hNe
  · rintro (_ | _) (_ | _) hNe m hm n hn name hName hName'
    · exact absurd rfl hNe
    · exact hUnshared m hm n hn name hName hName'
    · exact hUnshared n hn m hm name hName' hName
    · exact absurd rfl hNe

end Graph

namespace Grouping

section Parts

variable {ι : Type} {u : Graph} {parts : ι → Graph} {f : ι → Nat → Nat}
variable {files : List FileChange} {fileParts : ι → List FileChange}
variable (h : u.Decomposes parts f) (hParts : ∀ i, (parts i).Built) (hu : u.Built)
variable (hMarks : ∀ i, ∀ n ∈ (parts i).nodes, ∀ name ∈ n.marks, name ∈ hunkNames (fileParts i))
variable (hFiles : ∀ name, name ∈ hunkNames files ↔ ∃ i, name ∈ hunkNames (fileParts i))

include h hu hMarks hFiles in
theorem known_of_parts : ∀ n ∈ u.nodes, ∀ name ∈ n.marks, name ∈ hunkNames files := by
  intro n hn name hName
  obtain ⟨i, m, hm, hId⟩ := h.covers n hn
  rw [((h.embeds i).same hu hm hn hId).2] at hName
  exact (hFiles name).2 ⟨i, hMarks i m hm name hName⟩

include h hParts hu hMarks hFiles

/-- The whole change can be grouped just if all its parts can. -/
theorem exists_groups_iff_parts (s : Settings) :
    (∃ gs, groups s u files = .ok gs) ↔ ∀ i, ∃ gs, groups s (parts i) (fileParts i) = .ok gs := by
  have hKnown := known_of_parts h hu hMarks hFiles
  have hOk {g : Graph} {files : List FileChange} (hBuilt : g.Built)
      (hKnown : ∀ n ∈ g.nodes, ∀ name ∈ n.marks, name ∈ hunkNames files) :
      (∃ gs, groups s g files = .ok gs) ↔ ∃ ms, members g s.maxDistance = .ok ms := by
    simp only [groups_eq_ok_iff s hBuilt hKnown]
    exact ⟨fun ⟨_, ms, hMembers, _⟩ => ⟨ms, hMembers⟩, fun ⟨ms, hMembers⟩ => ⟨_, ms, hMembers, rfl⟩⟩
  rw [hOk hu hKnown, exists_members_iff_parts h hParts hu fun i => hunkMarked_of_known (hMarks i)]
  exact forall_congr' fun i => (hOk (hParts i) (hMarks i)).symm

/-- Hunks of the whole change are grouped together just if they are in one part of it, and are
grouped together there. -/
theorem together_iff_parts (s : Settings) {gs : List Group} {gsParts : ι → List Group}
    (hGroups : groups s u files = .ok gs)
    (hGroupsParts : ∀ i, groups s (parts i) (fileParts i) = .ok (gsParts i)) (x y : String) :
    Together gs x y ↔ ∃ i, (x ∈ hunkNames (fileParts i) ∧ y ∈ hunkNames (fileParts i)) ∧
      Together (gsParts i) x y := by
  obtain ⟨ms', hMembers', rfl⟩ :=
    (groups_eq_ok_iff s hu (known_of_parts h hu hMarks hFiles)).1 hGroups
  choose members hMembers hGs using fun i =>
    (groups_eq_ok_iff s (hParts i) (hMarks i)).1 (hGroupsParts i)
  have hMirrors := mirrors_mergeClusters h hParts hu s (fun i => hunkMarked_of_known (hMarks i))
    hMembers hMembers'
  have hKnown {i : ι} {c : Cluster}
      (hc : c ∈ mergeClusters s (parts i).edges (Cluster.initial (members i))) {m : HunkMark}
      (hm : m ∈ c.hunks) : m.name ∈ hunkNames (fileParts i) := by
    obtain ⟨n, hn, hName⟩ := exists_node_of_mem_hunks (hMembers i)
      (arranged_mergeClusters s (hMembers i)) hc hm
    exact hMarks i n hn m.name hName
  simp only [hGs, together_groupsOf_iff]
  constructor
  · rintro (⟨c', hc', m, hm, n, hn, rfl, rfl⟩ | ⟨rfl, hx⟩)
    · obtain ⟨i, c, hc, hCopy⟩ := hMirrors.source c' hc'
      rw [hCopy.hunks] at hm hn
      exact ⟨i, ⟨hKnown hc hm, hKnown hc hn⟩, .inl ⟨c, hc, m, hm, n, hn, rfl, rfl⟩⟩
    · obtain ⟨i, hx⟩ := (hFiles x).1 hx
      exact ⟨i, ⟨hx, hx⟩, .inr ⟨rfl, hx⟩⟩
  · rintro ⟨i, ⟨hx, _⟩, ⟨c, hc, m, hm, n, hn, hNames⟩ | ⟨rfl, _⟩⟩
    · obtain ⟨c', hc', hCopy⟩ := hMirrors.image i c hc
      rw [← hCopy.hunks] at hm hn
      exact .inl ⟨c', hc', m, hm, n, hn, hNames⟩
    · exact .inr ⟨rfl, (hFiles x).2 ⟨i, hx⟩⟩

end Parts

/-- Unrelated changes are grouped independently. Grouping the union of their graphs over the union
of their hunks succeeds just if grouping either of them alone does. Then hunks are grouped together
just if they belong to the same change and are grouped together when it is grouped alone. -/
theorem groups_independent (s : Settings) {u a b : Graph} {files filesA filesB : List FileChange}
    (hu : u.Built) (ha : a.Built) (hb : b.Built) (hUnion : u.IsUnion a b)
    (hUnrelated : ∀ m ∈ a.nodes, ∀ n ∈ b.nodes, m.Unrelated n)
    (hMarksA : ∀ n ∈ a.nodes, ∀ name ∈ n.marks, name ∈ hunkNames filesA)
    (hMarksB : ∀ n ∈ b.nodes, ∀ name ∈ n.marks, name ∈ hunkNames filesB)
    (hApart : ∀ name ∈ hunkNames filesA, ¬ name ∈ hunkNames filesB)
    (hFiles : ∀ name, name ∈ hunkNames files ↔
      name ∈ hunkNames filesA ∨ name ∈ hunkNames filesB) :
    ((∃ gs, groups s u files = .ok gs) ↔
      (∃ gs, groups s a filesA = .ok gs) ∧ ∃ gs, groups s b filesB = .ok gs) ∧
    ∀ gs gsA gsB, groups s u files = .ok gs → groups s a filesA = .ok gsA →
      groups s b filesB = .ok gsB → ∀ x y, Together gs x y ↔
        ((x ∈ hunkNames filesA ∧ y ∈ hunkNames filesA) ∧ Together gsA x y) ∨
          ((x ∈ hunkNames filesB ∧ y ∈ hunkNames filesB) ∧ Together gsB x y) := by
  obtain ⟨f, h⟩ := hUnion.exists_decomposes hUnrelated fun m hm n hn name hName hName' =>
    hApart name (hMarksA m hm name hName) (hMarksB n hn name hName')
  have hParts : ∀ i, (ofTwo a b i).Built := Bool.forall_bool.2 ⟨ha, hb⟩
  have hMarks : ∀ i, ∀ n ∈ (ofTwo a b i).nodes, ∀ name ∈ n.marks,
      name ∈ hunkNames (ofTwo filesA filesB i) := Bool.forall_bool.2 ⟨hMarksA, hMarksB⟩
  have hNames : ∀ name, name ∈ hunkNames files ↔
      ∃ i, name ∈ hunkNames (ofTwo filesA filesB i) := by
    intro name
    rw [hFiles, Bool.exists_bool]
    rfl
  constructor
  · exact (exists_groups_iff_parts h hParts hu hMarks hNames s).trans Bool.forall_bool
  · intro gs gsA gsB hGroups hGroupsA hGroupsB x y
    have hGroupsParts : ∀ i, groups s (ofTwo a b i) (ofTwo filesA filesB i) =
        .ok (ofTwo gsA gsB i) := Bool.forall_bool.2 ⟨hGroupsA, hGroupsB⟩
    exact (together_iff_parts h hParts hu hMarks hNames s hGroups hGroupsParts x y).trans
      Bool.exists_bool

/-- A method in another package than those of `callPair`. -/
def farLabel : NodeLabel := {
  kind := .method, identifier := "f", name := "current:p.B.f", revision := .current
  package := some "p", owner := some "p.B", member := some "p.B.f" }

/-- That method alone, touched by one hunk. -/
def farMethod : Graph := (⟨[⟨farLabel, 1, none, ∅⟩], []⟩ : Graph).mark 1 "1:0"

/-- The pair of methods with the other one added between them. -/
def pairAndFar : Graph :=
  let nodes : List Node :=
    [⟨methodLabel "f", 1, none, ∅⟩, ⟨farLabel, 2, none, ∅⟩, ⟨methodLabel "g", 3, none, ∅⟩]
  ((((⟨nodes, []⟩ : Graph).addEdge 1 3 .calls).mark 2 "1:0").mark 1 "0:0").mark 3 "0:1"

theorem built_farMethod : farMethod.Built :=
  .mark 1 _ (Graph.Built.empty.append farLabel rfl)

theorem built_pairAndFar : pairAndFar.Built :=
  .mark 3 _ (.mark 1 _ (.mark 2 _ (.addEdge 1 3 .calls
    (((Graph.Built.empty.append (methodLabel "f") rfl).append farLabel rfl).append
      (methodLabel "g") rfl))))

theorem isUnion_pairAndFar : pairAndFar.IsUnion callPair farMethod := by
  refine ⟨?_, ?_, built_pairAndFar.nodup_ids, fun id => 2 * id - 1, fun _ => 2,
    (List.Perm.swap _ _ _).cons _, .refl _⟩
  · unfold Graph.Closed
    decide
  · unfold Graph.Closed
    decide

/-- A change of one file with one hunk. -/
def farHunk : List FileChange := [{ index := 1, hunks := [{ index := 0 }] }]

/-- The pair is merged, in the whole as alone, and the other method stays apart. -/
theorem groups_independent_pairAndFar :
    ∃ gs gsA gsB,
      groups { minSimilarity := .finite 0 } pairAndFar (twoHunks ++ farHunk) = .ok gs ∧
      groups { minSimilarity := .finite 0 } callPair twoHunks = .ok gsA ∧
      groups { minSimilarity := .finite 0 } farMethod farHunk = .ok gsB ∧
      (gs.length = 2 ∧ gsA.length = 1 ∧ gsB.length = 1) ∧
      ∀ x y, Together gs x y ↔
        ((x ∈ hunkNames twoHunks ∧ y ∈ hunkNames twoHunks) ∧ Together gsA x y) ∨
          ((x ∈ hunkNames farHunk ∧ y ∈ hunkNames farHunk) ∧ Together gsB x y) := by
  have hCounts : ((groups { minSimilarity := .finite 0 } pairAndFar
        (twoHunks ++ farHunk)).toOption.map List.length,
      (groups { minSimilarity := .finite 0 } callPair twoHunks).toOption.map List.length,
      (groups { minSimilarity := .finite 0 } farMethod farHunk).toOption.map List.length) =
        (some 2, some 1, some 1) := by decide +kernel
  have hLabels : ∀ m ∈ callPair.nodes, ∀ n ∈ farMethod.nodes,
      m.member ≠ n.member ∧ m.owner ≠ n.owner ∧ m.package ≠ n.package := by decide
  have hMarksA : ∀ n ∈ callPair.nodes, ∀ name ∈ n.marks.toList, name ∈ hunkNames twoHunks := by
    decide +kernel
  have hMarksB : ∀ n ∈ farMethod.nodes, ∀ name ∈ n.marks.toList, name ∈ hunkNames farHunk := by
    decide +kernel
  have hApart : ∀ name ∈ hunkNames twoHunks, ¬ name ∈ hunkNames farHunk := by decide +kernel
  have hFiles : ∀ name, name ∈ hunkNames (twoHunks ++ farHunk) ↔
      name ∈ hunkNames twoHunks ∨ name ∈ hunkNames farHunk := by
    intro name
    rw [hunkNames, List.flatMap_append, List.mem_append]
    rfl
  obtain ⟨hExists, hTogether⟩ := groups_independent { minSimilarity := .finite 0 } built_pairAndFar
    built_callPair built_farMethod isUnion_pairAndFar
    (fun m hm n hn =>
      have hNe := hLabels m hm n hn
      ⟨fun _ h h' => hNe.1 (h.trans h'.symm), fun _ h h' => hNe.2.1 (h.trans h'.symm),
        fun _ h h' => hNe.2.2 (h.trans h'.symm)⟩)
    hMarksA hMarksB hApart hFiles
  simp only [Prod.mk.injEq] at hCounts
  obtain ⟨hCount, hCountA, hCountB⟩ := hCounts
  obtain ⟨gs, hGroups, hLength⟩ := exists_ok_of_toOption hCount
  obtain ⟨gsA, hGroupsA, hLengthA⟩ := exists_ok_of_toOption hCountA
  obtain ⟨gsB, hGroupsB, hLengthB⟩ := exists_ok_of_toOption hCountB
  exact ⟨gs, gsA, gsB, hGroups, hGroupsA, hGroupsB, ⟨hLength, hLengthA, hLengthB⟩,
    hTogether gs gsA gsB hGroups hGroupsA hGroupsB⟩

end Grouping

end ChangeSplit
