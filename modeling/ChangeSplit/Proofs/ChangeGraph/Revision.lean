import ChangeSplit.Proofs.ChangeGraph.Source
import ChangeSplit.Proofs.ChangeGraph.Step

/-! The two revisions never influence each other. The graph of a change is made up of the graphs
that come from the sources of each revision alone. -/

namespace ChangeSplit

/-- The files of a folder that belong to a revision. -/
def Folder.only (f : Folder) (r : Revision) : Folder :=
  ⟨f.files.filter fun file => Revision.ofPath (Path.ofParts file.1) = r⟩

theorem Folder.subfolder_only (f : Folder) (path : List String) (r : Revision) :
    ((f.subfolder path).only r).subfolder [] = (f.subfolder path).only r :=
  f.subfolder_filter path _

theorem ChangedSource.inFolder_only (f : Folder) (r : Revision) (files : List FileChange) :
    inFolder (f.only r) files = (inFolder f files).filter (·.revision = r) := by
  refine inFolder_filter fun file s hs => ?_
  rw [ofFile?_eq] at hs
  split at hs
  case isFalse => cases hs
  case isTrue =>
    obtain ⟨change, _, rfl⟩ := Option.map_eq_some_iff.1 hs
    rfl

namespace ChangeGraph

open Java

section Build

variable {rootPath : String} {root : Folder} {path : List String} {files : List FileChange}
  {g : ChangeGraph}

theorem subjectsIn_only (rootPath : String) (root : Folder) (path : List String)
    (files : List FileChange) (r : Revision) :
    subjectsIn (Path.ofParts (rootPath :: path)) ((root.subfolder path).only r) [] files =
      (subjectsIn rootPath root path files).filter (·.1.revision = r) := by
  have hPath : Path.ofParts [Path.ofParts (rootPath :: path)] = Path.ofParts (rootPath :: path) :=
    rfl
  rw [subjectsIn, hPath, Folder.subfolder_only, ChangedSource.inFolder_only, subjectsIn, readable,
    readable, List.filterMap_filter, List.filter_filterMap]
  congr 1
  funext source
  unfold ChangedSource.subject
  cases SourceUnit.parse source.content (source.shownPath (Path.ofParts (rootPath :: path))) with
  | error e => simp [Except.map, Except.toOption]
  | ok unit =>
      by_cases hr : source.revision = r <;>
        simp [Except.map, Except.toOption, hr, Subject.ofUnit, Option.filter]

/-- The graph of a revision alone is the part of the whole graph that belongs to the revision. -/
theorem exists_build_only (hBuild : build rootPath root path files = .ok g) (r : Revision) :
    ∃ h, build (Path.ofParts (rootPath :: path)) ((root.subfolder path).only r) [] files = .ok h ∧
      h.graph = g.graph.part r := by
  obtain ⟨placed, n, hPlaced, rfl⟩ := exists_placed_of_build hBuild
  have hApart := apart_declared (subjectsIn rootPath root path files)
    (notesAhead rootPath root path files)
  have hStart := isPart_declared r (subjectsIn rootPath root path files)
    (notesAhead rootPath root path files)
    (notesAhead (Path.ofParts (rootPath :: path)) ((root.subfolder path).only r) [] files)
  obtain ⟨h, hOk, hPart⟩ := hStart.placeAll hApart hPlaced
  have hTop : ((root.subfolder path).only r).isFolder [] = true := rfl
  have hBuild' := build_eq (Path.ofParts (rootPath :: path)) ((root.subfolder path).only r) [] files
  rw [if_pos hTop, subjectsIn_only, hOk] at hBuild'
  exact ⟨_, hBuild', hPart.wire (apart_placeAll hApart hPlaced)⟩

/-- The revisions never influence each other in the graph of a change. It is made up of what is
built from the sources of each revision alone, and no edge joins nodes of both. -/
theorem revisions_apart (hBuild : build rootPath root path files = .ok g) :
    ∃ base current,
      build (Path.ofParts (rootPath :: path)) ((root.subfolder path).only .base) [] files =
        .ok base ∧
      build (Path.ofParts (rootPath :: path)) ((root.subfolder path).only .current) [] files =
        .ok current ∧
      (∀ n ∈ base.graph.nodes, n.revision = .base) ∧
      (∀ n ∈ current.graph.nodes, n.revision = .current) ∧
      g.graph.IsUnion base.graph current.graph ∧
      ∀ e ∈ g.graph.edges, ∀ m ∈ g.graph.nodes, ∀ n ∈ g.graph.nodes,
        m.id = e.source → n.id = e.target → m.revision = n.revision := by
  obtain ⟨base, hBase, hBasePart⟩ := exists_build_only hBuild .base
  obtain ⟨current, hCurrent, hCurrentPart⟩ := exists_build_only hBuild .current
  obtain ⟨placed, n, hPlaced, rfl⟩ := exists_placed_of_build hBuild
  have hApart : Apart placed := apart_placeAll (apart_declared _ _) hPlaced
  have hBuilt : placed.wire.graph.Built := built_wire hApart.built
  have hJoins : placed.wire.graph.JoinsWithin := hApart.joinsWithin_wire
  refine ⟨base, current, hBase, hCurrent, ?_, ?_, ?_, ?_⟩
  · rw [hBasePart]
    exact fun _ hn => Graph.revision_of_mem_part hn
  · rw [hCurrentPart]
    exact fun _ hn => Graph.revision_of_mem_part hn
  · rw [hBasePart, hCurrentPart]
    exact hJoins.isUnion_parts hBuilt
  · intro e he m hm n hn hSource hTarget
    obtain ⟨r, hIn, hIn'⟩ := hJoins e he
    rw [← hSource] at hIn
    rw [← hTarget] at hIn'
    rw [hBuilt.eq_of_mem_numbers (Graph.id_mem_numbers hm) hIn,
      hBuilt.eq_of_mem_numbers (Graph.id_mem_numbers hn) hIn']

/-- A class that refers to itself, in two revisions. -/
def renamedField : Folder := ⟨[
  (["base", "A.java"], Utf8.encode "class A\x7bA x;\x7d"),
  (["current", "A.java"], Utf8.encode "class A\x7bA y;\x7d")]⟩

/-- The change from one revision to the other. -/
def fieldRenaming : List FileChange := [
  { index := 0, basePath := some "A.java", currentPath := some "A.java"
    hunks := [{
      index := 0, base := ⟨1, 1, ["class A\x7bA x;\x7d"]⟩
      current := ⟨1, 1, ["class A\x7bA y;\x7d"]⟩ }] }]

/-- Each revision has a class, a field, and the edge from the field to its type. -/
theorem revisions_apart_fieldRenaming :
    ∃ g base current, build "" renamedField [] fieldRenaming = .ok g ∧
      build "" ((renamedField.subfolder []).only .base) [] fieldRenaming = .ok base ∧
      build "" ((renamedField.subfolder []).only .current) [] fieldRenaming = .ok current ∧
      base.graph.edges.map Edge.link = [⟨2, 1, .refers⟩] ∧
      current.graph.edges.map Edge.link = [⟨2, 1, .refers⟩] ∧
      g.graph.edges.map Edge.link = [⟨2, 1, .refers⟩, ⟨4, 3, .refers⟩] ∧
      g.graph.IsUnion base.graph current.graph := by
  have hEdges : ∃ g ∈ (build "" renamedField [] fieldRenaming).toOption.toList,
      g.graph.edges.map Edge.link = [⟨2, 1, .refers⟩, ⟨4, 3, .refers⟩] := by decide +kernel
  have hEach (r : Revision) : ∀ h ∈
      (build "" ((renamedField.subfolder []).only r) [] fieldRenaming).toOption.toList,
      h.graph.edges.map Edge.link = [⟨2, 1, .refers⟩] := by
    cases r <;> decide +kernel
  obtain ⟨g, hg, hEdges⟩ := hEdges
  have hBuild := mem_toOption_iff.1 hg
  obtain ⟨base, current, hBase, hCurrent, _, _, hUnion, _⟩ := revisions_apart hBuild
  exact ⟨g, base, current, hBuild, hBase, hCurrent, hEach _ base (mem_toOption_iff.2 hBase),
    hEach _ current (mem_toOption_iff.2 hCurrent), hEdges, hUnion⟩

end Build

end ChangeGraph

end ChangeSplit
