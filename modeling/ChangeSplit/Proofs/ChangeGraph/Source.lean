import ChangeSplit.ChangeGraph.Source
import ChangeSplit.Proofs.Collection.Sorting
import ChangeSplit.Proofs.Diff.Matching
import Mathlib.Data.List.Basic

/-! The sources of a change in a folder, file by file. If some files of the folder are left out,
the sources that they are go, and nothing else changes. -/

namespace ChangeSplit

/-- Nothing is left out at the top of what is kept of a folder in a folder. -/
theorem Folder.subfolder_filter (f : Folder) (path : List String)
    (keep : List String × List UInt8 → Bool) :
    (Folder.mk ((f.subfolder path).files.filter keep)).subfolder [] =
      ⟨(f.subfolder path).files.filter keep⟩ := by
  have hInside : ∀ file ∈ (f.subfolder path).files.filter keep,
      leadsThrough file.1 [] = true := by
    intro file hFile
    obtain ⟨outer, _, hOuter⟩ := List.mem_filterMap.1 (List.mem_filter.1 hFile).1
    dsimp only at hOuter
    split at hOuter
    case isFalse => cases hOuter
    case isTrue hThrough =>
      cases hOuter
      rw [leadsThrough, Bool.and_eq_true, List.isPrefixOf_iff_prefix] at hThrough
      obtain ⟨⟨rest, hRest⟩, hNe⟩ := hThrough
      rw [← hRest] at hNe ⊢
      cases rest with
      | nil => simp at hNe
      | cons part rest => simp [leadsThrough]
  have hFiles : ((f.subfolder path).files.filter keep).filterMap (fun file =>
      if leadsThrough file.1 [] then some (file.1.drop 0, file.2) else none) =
        (f.subfolder path).files.filter keep := by
    refine (List.filterMap_congr fun file hFile => ?_).trans List.filterMap_some
    rw [if_pos (hInside file hFile)]
    rfl
  exact congrArg Folder.mk hFiles

namespace ChangedSource

/-- The source of a change that a file is. Files without a place in the change are none. -/
def ofFile? (files : List FileChange) (file : List String × List UInt8) : Option ChangedSource :=
  (inFolder ⟨[file]⟩ files).head?

theorem ofFile?_eq (files : List FileChange) (file : List String × List UInt8) :
    ofFile? files file =
      if file.1.getLast?.any (·.endsWith ".java") then
        let path := Path.ofParts file.1
        let revision := Revision.ofPath path
        (fileAt? files path revision).map fun change => ⟨path, revision, change, file.2⟩
      else none := by
  unfold ofFile? inFolder
  cases hJava : file.1.getLast?.any (·.endsWith ".java") with
  | false => simp [hJava, sortBy]
  | true =>
      cases hChange :
        fileAt? files (Path.ofParts file.1) (Revision.ofPath (Path.ofParts file.1)) <;>
          simp [hJava, hChange, sortBy, insertBy]

/-- Whether the path of one file does not come after that of another. -/
def pathLe (a b : List String × List UInt8) : Bool := (compare a.1 b.1).isLE

theorem pathLe_total (a b : List String × List UInt8) : pathLe a b = true ∨ pathLe b a = true := by
  have hSwap : compare a.1 b.1 = (compare b.1 a.1).swap := Std.OrientedCmp.eq_swap
  rw [pathLe, pathLe, hSwap]
  cases compare b.1 a.1 <;> simp

theorem pathLe_trans (a b c : List String × List UInt8) (hab : pathLe a b = true)
    (hbc : pathLe b c = true) : pathLe a c = true :=
  Std.TransCmp.isLE_trans hab hbc

/-- The sources in a folder are those that its files are, in order of their paths. -/
theorem inFolder_eq (f : Folder) (files : List FileChange) :
    inFolder f files = (sortBy pathLe f.files).filterMap (ofFile? files) := by
  show (sortBy pathLe
    (f.files.filter fun file => file.1.getLast?.any (·.endsWith ".java"))).filterMap _ = _
  rw [← filter_sortBy pathLe_total pathLe_trans, List.filterMap_filter]
  congr 1
  funext file
  rw [ofFile?_eq]

/-- Files are left out of a folder by what sources they are. -/
theorem inFolder_filter {f : Folder} {files : List FileChange}
    {keep : List String × List UInt8 → Bool} {keep' : ChangedSource → Bool}
    (h : ∀ file, ∀ s ∈ ofFile? files file, keep file = keep' s) :
    inFolder ⟨f.files.filter keep⟩ files = (inFolder f files).filter keep' := by
  rw [inFolder_eq, inFolder_eq, ← filter_sortBy pathLe_total pathLe_trans, List.filterMap_filter,
    List.filter_filterMap]
  congr 1
  funext file
  cases hSource : ofFile? files file with
  | none => simp
  | some s => simp [h file s hSource, Option.filter]

/-- A folder with one file has the source that the file is, if it is one. -/
theorem inFolder_singleton (files : List FileChange) (file : List String × List UInt8) :
    inFolder ⟨[file]⟩ files = (ofFile? files file).toList := by
  rw [inFolder_eq]
  show [file].filterMap (ofFile? files) = _
  cases hSource : ofFile? files file <;> simp [hSource]

/-- Whether a source can be read. Only its content decides this. -/
def isReadable (s : ChangedSource) : Bool := (s.subject "").toOption.isSome

theorem isSome_subject (folderPath : String) (s : ChangedSource) :
    (s.subject folderPath).toOption.isSome = s.isReadable := by
  unfold isReadable subject Java.SourceUnit.parse
  cases Utf8.decode s.content with
  | error fault => rfl
  | ok cs =>
      dsimp only
      cases (Java.Token.tokens? cs).bind (Java.treeOf? s.content.length) <;> rfl

theorem of_subject {folderPath : String} {s : ChangedSource} {subject : Java.Subject}
    (h : (s.subject folderPath).toOption = some subject) :
    subject.revision = s.revision ∧ subject.fileIndex = s.change.index := by
  unfold ChangedSource.subject at h
  cases hParse : Java.SourceUnit.parse s.content (s.shownPath folderPath) with
  | error e =>
      rw [hParse] at h
      cases h
  | ok unit =>
      rw [hParse] at h
      cases h
      exact ⟨rfl, rfl⟩

theorem change_mem {folder : Folder} {files : List FileChange} {s : ChangedSource}
    (h : s ∈ inFolder folder files) : s.change ∈ files := by
  obtain ⟨file, _, hChange⟩ := List.mem_filterMap.1 h
  obtain ⟨change, hFound, rfl⟩ := Option.map_eq_some_iff.1 hChange
  exact mem_of_fileAt? hFound

end ChangedSource

/-- A folder without the files that belong to a change and cannot be read. -/
def Folder.legible (f : Folder) (files : List FileChange) : Folder :=
  ⟨f.files.filter fun file => (ChangedSource.inFolder ⟨[file]⟩ files).all (·.isReadable)⟩

theorem ChangedSource.inFolder_legible (f : Folder) (files : List FileChange) :
    inFolder (f.legible files) files = (inFolder f files).filter (·.isReadable) := by
  refine inFolder_filter fun file s hs => ?_
  rw [inFolder_singleton, hs]
  simp

end ChangeSplit
