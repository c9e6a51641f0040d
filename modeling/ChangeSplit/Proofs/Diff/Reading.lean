import ChangeSplit.Diff.Reader
import ChangeSplit.Proofs.Collection.Traversal
import ChangeSplit.Proofs.Diff.HunkName
import Mathlib.Data.List.TakeWhile

/-! How the lines of a text give files and hunks, as relations. The reader makes hunks of the pieces
of a section, a file of a section and files of one section after the other by a few rules each, so
that a fact about changes that are read takes one look at every rule. -/

namespace ChangeSplit.Diff

/-- Some lines cut in front of each line that passes a test. -/
structure Cut (test : List Char → Bool) (lines front : List (List Char))
    (pieces : List (List Char × List (List Char))) : Prop where
  lines_eq : lines = front ++ pieces.flatMap fun p => p.1 :: p.2
  front : ∀ line ∈ front, test line = false
  firsts : ∀ p ∈ pieces, test p.1 = true
  others : ∀ p ∈ pieces, ∀ line ∈ p.2, test line = false

theorem cut_cutBefore (test : List Char → Bool) (lines : List (List Char)) :
    Cut test lines (cutBefore test lines).1 (cutBefore test lines).2 := by
  induction lines with
  | nil => exact ⟨rfl, by simp [cutBefore], by simp [cutBefore], by simp [cutBefore]⟩
  | cons line lines ih =>
      cases hTest : test line with
      | true =>
          simp only [cutBefore, hTest, if_true]
          refine ⟨?_, List.forall_mem_nil _, ?_, ?_⟩
          · rw [List.nil_append, List.flatMap_cons, List.cons_append, ← ih.lines_eq]
          · exact List.forall_mem_cons.2 ⟨hTest, ih.firsts⟩
          · exact List.forall_mem_cons.2 ⟨ih.front, ih.others⟩
      | false =>
          simp only [cutBefore, hTest, Bool.false_eq_true, if_false]
          refine ⟨?_, ?_, ih.firsts, ih.others⟩
          · rw [List.cons_append, ← ih.lines_eq]
          · exact List.forall_mem_cons.2 ⟨hTest, ih.front⟩

theorem Cut.mem {test : List Char → Bool} {lines front : List (List Char)}
    {pieces : List (List Char × List (List Char))} (h : Cut test lines front pieces)
    {p : List Char × List (List Char)} (hp : p ∈ pieces) :
    ∀ line ∈ p.1 :: p.2, line ∈ lines := by
  intro line hLine
  rw [h.lines_eq]
  exact List.mem_append_right _ (List.mem_flatMap.2 ⟨p, hp, hLine⟩)

/-- The hunks of some pieces, numbered from an index on. -/
inductive GivesHunks : Nat → List (List Char × List (List Char)) → List Hunk → Prop
  | nil {index : Nat} : GivesHunks index [] []
  | cons {index base current : Nat} {header : List Char} {body : List (List Char)}
      {pieces : List (List Char × List (List Char))} {hunks : List Hunk}
      (hHeader : readHeader? header = some (base, current))
      (hRest : GivesHunks (index + 1) pieces hunks) :
      GivesHunks index ((header, body) :: pieces)
        (⟨index, sideOf (gather '-' '+' base body), sideOf (gather '+' '-' current body)⟩ :: hunks)

/-- The file of a section, or nothing if its first line names no paths. These paths are corrected by
the lines in front of the first label. If there is no label, or if a line in front of it says that
the content is not text, there are no hunks; otherwise the label and the line behind it tell the
paths, and the lines behind the label are cut into hunks. -/
inductive GivesFile (index : Nat) (header : List Char) (body : List (List Char)) :
    Option FileChange → Prop
  | nameless (hPaths : pathsInHeader? header = none) : GivesFile index header body none
  | unlabelled {paths : Paths} (hPaths : pathsInHeader? header = some paths)
      (hBody : ∀ line ∈ body, begins "--- " line = false) :
      GivesFile index header body (some ⟨index, (body.foldl Paths.renamed paths).base,
        (body.foldl Paths.renamed paths).current, []⟩)
  | binary {paths : Paths} {remarks rest : List (List Char)} {label : List Char}
      (hPaths : pathsInHeader? header = some paths) (hBody : body = remarks ++ label :: rest)
      (hLabel : begins "--- " label = true)
      (hRemarks : ∀ line ∈ remarks, begins "--- " line = false)
      (hBinary : ∃ line ∈ remarks, tellsBinary line = true) :
      GivesFile index header body (some ⟨index, (remarks.foldl Paths.renamed paths).base,
        (remarks.foldl Paths.renamed paths).current, []⟩)
  | text {paths : Paths} {remarks rest : List (List Char)} {label : List Char}
      {current : Option String} {hunks : List Hunk} (hPaths : pathsInHeader? header = some paths)
      (hBody : body = remarks ++ label :: rest) (hLabel : begins "--- " label = true)
      (hRemarks : ∀ line ∈ remarks, begins "--- " line = false)
      (hText : ∀ line ∈ remarks, tellsBinary line = false)
      (hCurrent : current = (remarks.foldl Paths.renamed paths).current ∨
        ∃ new ∈ rest.head?, begins "+++ " new = true ∧ current = labelled "b/" (new.drop 4))
      (hHunks : GivesHunks 0 (cutBefore beginsHunk rest).2 hunks) :
      GivesFile index header body (some ⟨index, labelled "a/" (label.drop 4), current, hunks⟩)

/-- The files of some sections, numbered from an index on. A section that gives none takes no
index. -/
inductive GivesFiles : Nat → List (List Char × List (List Char)) → List FileChange → Prop
  | nil {index : Nat} : GivesFiles index [] []
  | skip {index : Nat} {header : List Char} {body : List (List Char)}
      {pieces : List (List Char × List (List Char))} {files : List FileChange}
      (hHead : GivesFile index header body none) (hRest : GivesFiles index pieces files) :
      GivesFiles index ((header, body) :: pieces) files
  | file {index : Nat} {header : List Char} {body : List (List Char)}
      {pieces : List (List Char × List (List Char))} {f : FileChange} {files : List FileChange}
      (hHead : GivesFile index header body (some f)) (hRest : GivesFiles (index + 1) pieces files) :
      GivesFiles index ((header, body) :: pieces) (f :: files)

variable {index : Nat} {header : List Char} {body : List (List Char)}
  {pieces : List (List Char × List (List Char))} {hunks : List Hunk} {files : List FileChange}

theorem givesHunks_of_readHunks (h : readHunks index pieces = .ok hunks) :
    GivesHunks index pieces hunks := by
  induction pieces generalizing index hunks with
  | nil =>
      cases h
      exact .nil
  | cons piece pieces ih =>
      obtain ⟨header, body⟩ := piece
      unfold readHunks readHunk at h
      cases hHeader : readHeader? header with
      | none => simp [hHeader] at h
      | some starts =>
          simp only [hHeader] at h
          obtain ⟨rest, hRest, rfl⟩ := exists_ok_of_map h
          exact .cons hHeader (ih hRest)

theorem givesFile_of_readSection {found : Option FileChange}
    (h : readSection index header body = .ok found) : GivesFile index header body found := by
  unfold readSection at h
  split at h
  case h_1 hPaths =>
    cases h
    exact .nameless hPaths
  case h_2 named hPaths =>
    extract_lets isLabel remarks paths at h
    have hRemarks : ∀ line ∈ remarks, begins "--- " line = false := by
      intro line hLine
      simpa using List.mem_takeWhile_imp hLine
    have hSplit : remarks ++ body.dropWhile (!isLabel ·) = body := List.takeWhile_append_dropWhile
    split at h
    case h_1 hDrop =>
      cases h
      have hSame : remarks = body := by rwa [hDrop, List.append_nil] at hSplit
      have hPathsSame : paths = body.foldl Paths.renamed named :=
        congrArg (List.foldl Paths.renamed named) hSame
      rw [hPathsSame]
      exact .unlabelled hPaths (hSame ▸ hRemarks)
    case h_2 label rest hDrop =>
      have hLabel : begins "--- " label = true := by
        have hHead := List.head?_dropWhile_not (!isLabel ·) body
        rw [hDrop] at hHead
        simpa using hHead
      rw [hDrop] at hSplit
      split at h
      case isTrue hBinary =>
        cases h
        exact .binary hPaths hSplit.symm hLabel hRemarks (List.any_eq_true.1 hBinary)
      case isFalse hText =>
        extract_lets base current at h
        have hCurrent : current = paths.current ∨ ∃ new ∈ rest.head?,
            begins "+++ " new = true ∧ current = labelled "b/" (new.drop 4) := by
          unfold current
          split
          case h_1 new _ =>
            split
            case isTrue hNew => exact .inr ⟨new, rfl, hNew, rfl⟩
            case isFalse => exact .inl rfl
          case h_2 => exact .inl rfl
        split at h
        case h_1 => cases h
        case h_2 hunks hHunks =>
          cases h
          exact .text hPaths hSplit.symm hLabel hRemarks (by simpa using hText) hCurrent
            (givesHunks_of_readHunks hHunks)

theorem givesFiles_of_readSections (h : readSections index pieces = .ok files) :
    GivesFiles index pieces files := by
  induction pieces generalizing index files with
  | nil =>
      cases h
      exact .nil
  | cons piece pieces ih =>
      obtain ⟨header, body⟩ := piece
      unfold readSections at h
      split at h
      case h_1 => cases h
      case h_2 hHead => exact .skip (givesFile_of_readSection hHead) (ih h)
      case h_3 f hHead =>
        obtain ⟨rest, hTail, rfl⟩ := exists_ok_of_map h
        exact .file (givesFile_of_readSection hHead) (ih hTail)

theorem GivesHunks.indexes (h : GivesHunks index pieces hunks) :
    hunks.map (·.index) = (List.range' index hunks.length).map (↑) := by
  induction h with
  | nil => rfl
  | cons _ _ ih => rw [List.map_cons, ih, List.length_cons, List.range'_succ, List.map_cons]

theorem GivesFile.indexes {f : FileChange} (h : GivesFile index header body (some f)) :
    f.index = index ∧ f.hunks.map (·.index) = (List.range f.hunks.length).map (↑) := by
  cases h with
  | unlabelled | binary => exact ⟨rfl, rfl⟩
  | text _ _ _ _ _ _ hHunks => exact ⟨rfl, List.range_eq_range' ▸ hHunks.indexes⟩

theorem GivesFiles.indexes (h : GivesFiles index pieces files) :
    files.map (·.index) = (List.range' index files.length).map (↑) ∧
      ∀ f ∈ files, f.hunks.map (·.index) = (List.range f.hunks.length).map (↑) := by
  induction h with
  | nil => exact ⟨rfl, List.forall_mem_nil _⟩
  | skip _ _ ih => exact ih
  | file hHead _ ih =>
      refine ⟨?_, List.forall_mem_cons.2 ⟨hHead.indexes.2, ih.2⟩⟩
      rw [List.map_cons, ih.1, hHead.indexes.1, List.length_cons, List.range'_succ, List.map_cons]

theorem nodup_of_numbered {α : Type} {idx : α → Int} {l : List α}
    (h : l.map idx = (List.range l.length).map (↑)) : (l.map idx).Nodup := by
  rw [h]
  exact List.nodup_range.map fun _ _ => Int.ofNat.inj

/-- Files and hunks that are read are numbered by their places. -/
theorem read_indexes {text : String} (h : read text = .ok files) :
    files.map (·.index) = (List.range files.length).map (↑) ∧
      ∀ f ∈ files, f.hunks.map (·.index) = (List.range f.hunks.length).map (↑) := by
  rw [List.range_eq_range']
  exact (givesFiles_of_readSections h).indexes

/-- No two hunks of a change that was read have the same name, and so it is with a part of it. -/
theorem nodup_hunkNames_of_read {text : String} {all files : List FileChange}
    (h : read text = .ok all) (hPart : files.Sublist all) : (hunkNames files).Nodup := by
  obtain ⟨hFiles, hHunks⟩ := read_indexes h
  apply List.nodup_flatMap.2
  constructor
  · intro f hf
    have hApart := nodup_of_numbered (hHunks f (hPart.subset hf))
    apply List.pairwise_map.2
    exact (List.pairwise_map.1 hApart).imp fun hNe hName => hNe (HunkName.ofIndexes_inj hName).2
  · have hApart := List.pairwise_map.1 (nodup_of_numbered hFiles)
    refine (hApart.sublist hPart).imp fun hNe name hName hName' => ?_
    obtain ⟨hunk, _, rfl⟩ := List.mem_map.1 hName
    obtain ⟨hunk', _, hEq⟩ := List.mem_map.1 hName'
    exact hNe (HunkName.ofIndexes_inj hEq).1.symm

end ChangeSplit.Diff
