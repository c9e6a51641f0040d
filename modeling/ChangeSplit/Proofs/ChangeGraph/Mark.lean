import ChangeSplit.Proofs.ChangeGraph.Anchor
import ChangeSplit.Proofs.Diff.Reading
import Mathlib.Data.List.Pairwise
import Mathlib.Tactic.Tauto

/-! Which hunks leave a mark in the graph of a change: those that can be put down to some place of
a source. No way of placing a hunk drops it then, and none leaves the mark of another hunk. -/

namespace ChangeSplit

namespace Graph

/-- Whether some node carries a mark. -/
def Marked (g : Graph) (name : String) : Prop := ∃ n ∈ g.nodes, name ∈ n.marks

variable {g g' : Graph} {n : Node}

theorem marked_mark (hn : n ∈ g.nodes) (hunk name : String) :
    (g.mark n.id hunk).Marked name ↔ g.Marked name ∨ name = hunk := by
  constructor
  · intro ⟨m, hm, hName⟩
    obtain ⟨k, hk, _, _, hMarks⟩ := same_of_mem_mark hm
    rcases hMarks name hName with rfl | hOld
    · exact .inr rfl
    · exact .inl ⟨k, hk, hOld⟩
  · intro h
    rcases h with ⟨m, hm, hName⟩ | rfl
    · refine ⟨_, List.mem_map_of_mem hm, ?_⟩
      split
      case isTrue => exact OrderedSet.mem_insert.2 (.inr hName)
      case isFalse => exact hName
    · refine ⟨n.mark name, List.mem_map.2 ⟨n, hn, if_pos rfl⟩, ?_⟩
      exact OrderedSet.mem_insert.2 (.inl rfl)

/-- A node comes without marks. -/
theorem marked_addNode {label : NodeLabel} (h : g.addNode label = .ok (g', n)) (name : String) :
    g'.Marked name ↔ g.Marked name := by
  obtain ⟨_, rfl, rfl⟩ := addNode_eq_ok h
  constructor
  · intro ⟨m, hm, hName⟩
    rcases List.mem_append.1 hm with hm | hm
    · exact ⟨m, hm, hName⟩
    · rw [List.mem_singleton.1 hm] at hName
      cases hName
  · intro ⟨m, hm, hName⟩
    exact ⟨m, List.mem_append_left _ hm, hName⟩

end Graph

namespace ChangeGraph

open Java

theorem marked_addEntity (path : String) (g : ChangeGraph) (e : Entity) (name : String) :
    (addEntity path g e).graph.Marked name ↔ g.graph.Marked name := by
  unfold addEntity
  split
  case h_1 => exact .rfl
  case h_2 graph n hAdd => exact Graph.marked_addNode hAdd name

/-- No hunk marks anything before hunks are placed. -/
theorem not_marked_declared (subjects : List (Subject × FileChange)) (notes : List Note)
    (name : String) : ¬ (declared subjects notes).graph.Marked name := by
  refine declared_invariant (motive := fun g => ¬ g.graph.Marked name) ?_ fun path g e hg => ?_
  · intro ⟨n, hn, _⟩
    cases hn
  · rwa [marked_addEntity]

namespace Placing

/-- What holds while a hunk is placed on a graph: the only new mark is its own, and it is there
as soon as the hunk touched a node. -/
structure Marks (g : Graph) (hunk : String) (p : Placing) : Prop where
  name : p.hunk.name = hunk
  marked : ∀ m, p.result.graph.Marked m ↔ g.Marked m ∨ m = hunk ∧ p.hunk.anchors ≠ []

namespace Marks

variable {g : Graph} {hunk : String} {p : Placing} {s : Subject}

theorem touch (h : p.Marks g hunk) {n : Node} (hn : n ∈ p.result.graph.nodes) :
    (p.touch n).Marks g hunk := by
  refine ⟨h.name, fun m => ?_⟩
  have hAnchors : (p.touch n).hunk.anchors ≠ [] := by simp [Placing.touch]
  show (p.result.graph.mark n.id p.hunk.name).Marked m ↔ _
  rw [Graph.marked_mark hn, h.marked, h.name]
  tauto

theorem define (h : p.Marks g hunk) (kind : NodeKind) (defined : String) :
    (p.define kind defined).Marks g hunk := by
  obtain ⟨_, _, _, hHunk⟩ := p.define_hunk kind defined
  exact ⟨by rw [hHunk]; exact h.name, fun m => by rw [hHunk]; exact h.marked m⟩

theorem steady (s : Subject) (g : Graph) (hunk : String) : Steady s (Placing.Marks g hunk) where
  note _ h := ⟨h.name, h.marked⟩
  facts _ h := ⟨h.name, h.marked⟩
  define kind name h := h.define kind name
  claim imported h := ⟨(h.define .classType imported).name, (h.define .classType imported).marked⟩
  touch _ hn h := h.touch hn.mem

theorem onOwn (h : p.Marks g hunk) {label : NodeLabel} {graph : Graph} {n : Node}
    (hAdd : p.result.graph.addNode label = .ok (graph, n)) (container : Option Node) :
    (p.onOwn container graph n).Marks g hunk ∧ (p.onOwn container graph n).hunk.anchors ≠ [] := by
  have hNew : n ∈ graph.nodes := (Graph.mem_addNode hAdd).1
  have hAdded : Placing.Marks g hunk ⟨{ p.result with graph }, p.settled container⟩ :=
    ⟨h.name, fun m => (Graph.marked_addNode hAdd m).trans (h.marked m)⟩
  have hTouched := hAdded.touch hNew
  have hAnchors : (p.onOwn container graph n).hunk.anchors ≠ [] := by
    cases container <;> simp [Placing.onOwn, Placing.touch]
  refine ⟨?_, hAnchors⟩
  -- neither a note nor an edge has to do with marks
  cases container with
  | none => exact ⟨hTouched.name, hTouched.marked⟩
  | some c => exact ⟨hTouched.name, hTouched.marked⟩

end Marks

end Placing

/-- Placing a hunk leaves its mark if there is a place to put it down to, and no other mark. -/
theorem marked_placeHunk {s : Subject} {g g' : ChangeGraph} {h : Hunk}
    (hPlace : placeHunk s g h = .ok g') (name : String) :
    g'.graph.Marked name ↔ g.graph.Marked name ∨
      name = HunkName.ofIndexes s.fileIndex h.index ∧ anchors s h ≠ [] := by
  have hAnchored : (anchored s g h).Marks g.graph (HunkName.ofIndexes s.fileIndex h.index) :=
    (Placing.Marks.steady s g.graph _).anchored h ⟨rfl, fun m => by simp [pooled]⟩
  rcases placeHunk_eq_ok hPlace with ⟨hNil, rfl⟩ | ⟨hNe, p, rfl, ⟨hTouched, rfl⟩ | ⟨_, hAdd⟩⟩
  · simp [hNil]
  · simpa [hTouched, hNe] using hAnchored.marked name
  · obtain ⟨graph, n, hNode, rfl⟩ := addHunkNode_eq_ok hAdd
    obtain ⟨hOwn, hTouched⟩ := hAnchored.onOwn hNode (containerFor? s _ (anchors s h))
    simpa [hTouched, hNe] using hOwn.marked name

theorem marked_placeAll {subjects : List (Subject × FileChange)} {g g' : ChangeGraph}
    (hPlace : placeAll subjects g = .ok g') (name : String) :
    g'.graph.Marked name ↔ g.graph.Marked name ∨ ∃ t ∈ subjects, ∃ h ∈ t.2.hunks,
      name = HunkName.ofIndexes t.1.fileIndex h.index ∧ anchors t.1 h ≠ [] := by
  refine foldlM_iff (motive := fun g : ChangeGraph => g.graph.Marked name) _ hPlace ?_
  intro t _ g g' hHunks
  exact foldlM_iff (motive := fun g : ChangeGraph => g.graph.Marked name) _ hHunks
    fun h _ g g' hStep => marked_placeHunk hStep name

/-- Whether a source has a place to which a hunk of it can be put down. It has to change code, to
have lines in the revision, and these have to cover something that can take it. -/
def HasPlaceFor (unit : SourceUnit) (r : Revision) (h : Hunk) : Prop :=
  h.containsCode = true ∧ ∃ first last, (h.side r).range? = some (first, last) ∧
    ∃ p ∈ unit.covered (lineSpan unit.source first last).1 (lineSpan unit.source first last).2,
      p.anchor?.isSome = true

theorem anchors_ne_nil_iff {s : Subject} {h : Hunk} :
    anchors s h ≠ [] ↔ HasPlaceFor s.unit s.revision h := by
  have hSome : anchors s h ≠ [] ↔ ∃ p ∈ coveredBy s h, p.anchor?.isSome = true := by
    rw [anchors, ne_eq, anchorsOf_eq_nil_iff]
    simp [Option.isSome_iff_ne_none]
  rw [hSome, HasPlaceFor, coveredBy]
  cases hCode : h.containsCode with
  | false => simp
  | true =>
      cases hRange : (h.side s.revision).range? with
      | none => simp
      | some range =>
          obtain ⟨first, last⟩ := range
          simp

/-- Whether some source in a folder belongs to a file of a change, can be read, and has a place for
a hunk of the file. -/
def Anchored (rootPath : String) (root : Folder) (path : List String) (files : List FileChange)
    (f : FileChange) (h : Hunk) : Prop :=
  ∃ source ∈ ChangedSource.inFolder (root.subfolder path) files, source.change = f ∧
    ∃ unit, SourceUnit.parse source.content
        (source.shownPath (Path.ofParts (rootPath :: path))) = .ok unit ∧
      HasPlaceFor unit source.revision h

section Build

variable {rootPath : String} {root : Folder} {path : List String} {files : List FileChange}

theorem mem_subjectsIn {t : Subject × FileChange} :
    t ∈ subjectsIn rootPath root path files ↔
      ∃ source ∈ ChangedSource.inFolder (root.subfolder path) files, ∃ unit,
        SourceUnit.parse source.content
          (source.shownPath (Path.ofParts (rootPath :: path))) = .ok unit ∧
        t = (.ofUnit unit source.revision source.change.index, source.change) := by
  rw [subjectsIn, readable, List.mem_filterMap]
  apply exists_congr
  intro source
  apply and_congr_right
  intro _
  unfold ChangedSource.subject
  cases SourceUnit.parse source.content (source.shownPath (Path.ofParts (rootPath :: path))) with
  | error e => simp [Except.map, Except.toOption]
  | ok unit => simp [Except.map, Except.toOption, eq_comm]

/-- The marks of a graph that was built are the names of the hunks for which there was a place. -/
theorem marked_build {g : ChangeGraph} (hBuild : build rootPath root path files = .ok g)
    (name : String) :
    g.graph.Marked name ↔ ∃ f ∈ files, ∃ h ∈ f.hunks,
      name = HunkName.ofIndexes f.index h.index ∧ Anchored rootPath root path files f h := by
  obtain ⟨placed, note, hPlaced, rfl⟩ := exists_placed_of_build hBuild
  have hMarked : placed.wire.graph.Marked name ↔ placed.graph.Marked name := by
    rw [Graph.Marked, wire_nodes, Graph.Marked]
  show placed.wire.graph.Marked name ↔ _
  rw [hMarked, marked_placeAll hPlaced, or_iff_right (not_marked_declared _ _ _)]
  constructor
  · intro ⟨t, ht, h, hh, hName, hAnchors⟩
    have hFile := (exists_of_mem_readable ht).1
    obtain ⟨source, hSource, unit, hParse, rfl⟩ := mem_subjectsIn.1 ht
    exact ⟨source.change, hFile, h, hh, hName, source, hSource, rfl, unit, hParse,
      anchors_ne_nil_iff.1 hAnchors⟩
  · intro ⟨f, _, h, hh, hName, source, hSource, hFile, unit, hParse, hPlace⟩
    subst hFile
    exact ⟨_, mem_subjectsIn.2 ⟨source, hSource, unit, hParse, rfl⟩, h, hh, hName,
      anchors_ne_nil_iff.2 hPlace⟩

/-- If no two hunks share a name, a name tells the file and the hunk. -/
theorem eq_of_nodup_hunkNames (hNodup : (hunkNames files).Nodup) {f f' : FileChange} {h h' : Hunk}
    (hf : f ∈ files) (hh : h ∈ f.hunks) (hf' : f' ∈ files) (hh' : h' ∈ f'.hunks)
    (hName : HunkName.ofIndexes f.index h.index = HunkName.ofIndexes f'.index h'.index) :
    f = f' ∧ h = h' := by
  obtain ⟨hEach, hApart⟩ := List.nodup_flatMap.1 hNodup
  have hFile : f = f' := by
    by_contra hNe
    have hSymm : Std.Symm (Function.onFun List.Disjoint fun f : FileChange =>
      f.hunks.map fun h => HunkName.ofIndexes f.index h.index) := ⟨fun _ _ => List.disjoint_symm⟩
    apply hApart.forall hf hf' hNe (List.mem_map_of_mem hh)
    rw [hName]
    exact List.mem_map_of_mem hh'
  subst hFile
  exact ⟨rfl, List.inj_on_of_nodup_map (hEach f hf) hh hh' hName⟩

/-- In a graph that was built, a hunk left its mark on some node just if there was a place for it
in some source of its file. There are no other marks. A mark tells its hunk if no two hunks share a
name, and none do in any part of a change that was read. -/
theorem marked_iff_anchored {g : ChangeGraph} (hBuild : build rootPath root path files = .ok g) :
    (∀ name, g.graph.Marked name ↔ ∃ f ∈ files, ∃ h ∈ f.hunks,
      name = HunkName.ofIndexes f.index h.index ∧ Anchored rootPath root path files f h) ∧
    ((hunkNames files).Nodup → ∀ f ∈ files, ∀ h ∈ f.hunks,
      (g.graph.Marked (HunkName.ofIndexes f.index h.index) ↔
        Anchored rootPath root path files f h)) ∧
    ∀ text all, Diff.read text = .ok all → files.Sublist all → (hunkNames files).Nodup := by
  refine ⟨marked_build hBuild, ?_, fun _ _ hRead hPart => Diff.nodup_hunkNames_of_read hRead hPart⟩
  intro hNodup f hf h hh
  rw [marked_build hBuild]
  constructor
  · intro ⟨f', hf', h', hh', hName, hAnchored⟩
    obtain ⟨rfl, rfl⟩ := eq_of_nodup_hunkNames hNodup hf hh hf' hh' hName
    exact hAnchored
  · intro hAnchored
    exact ⟨f, hf, h, hh, rfl, hAnchored⟩

/-- A class with a remark above it. -/
def remarkedClass : Folder :=
  ⟨[(["current", "A.java"], Utf8.encode "// remark\nclass A\x7b\x7d")]⟩

/-- The change of the remark, of the class, and of a file that has no source. -/
def remarkChange : List FileChange := [
  { index := 0, currentPath := some "A.java"
    hunks := [{ index := 0, current := ⟨1, 1, ["// remark"]⟩ },
      { index := 1, current := ⟨2, 2, ["class A\x7b\x7d"]⟩ }] },
  { index := 1, currentPath := some "B.java"
    hunks := [{ index := 0, current := ⟨1, 1, ["class B\x7b\x7d"]⟩ }] }]

/-- Only the hunk of the class leaves a mark. -/
theorem marked_iff_anchored_remark :
    ∃ g, build "" remarkedClass [] remarkChange = .ok g ∧ ∀ f ∈ remarkChange, ∀ h ∈ f.hunks,
      (Anchored "" remarkedClass [] remarkChange f h ↔
        HunkName.ofIndexes f.index h.index = "0:1") := by
  have hMarks : ∃ g ∈ (build "" remarkedClass [] remarkChange).toOption.toList,
      g.graph.nodes.map (·.marks.toList) = [["0:1"]] := by
    decide +kernel
  have hNodup : (hunkNames remarkChange).Nodup := by decide
  obtain ⟨g, hg, hMarks⟩ := hMarks
  have hBuild := mem_toOption_iff.1 hg
  have hMarked (name : String) : g.graph.Marked name ↔ name = "0:1" := by
    have hFlat : g.graph.Marked name ↔ name ∈ (g.graph.nodes.map (·.marks.toList)).flatten := by
      rw [← List.flatMap_def, List.mem_flatMap]
      rfl
    simp [hFlat, hMarks]
  refine ⟨g, hBuild, fun f hf h hh => ?_⟩
  rw [← (marked_iff_anchored hBuild).2.1 hNodup f hf h hh, hMarked]

end Build

end ChangeGraph

end ChangeSplit
