import ChangeSplit.Proofs.Diff.Boundary
import ChangeSplit.Proofs.Diff.Sections
import ChangeSplit.Proofs.Run.Layout

/-! Sections without labels: nothing in the file changed, or nothing that is shown line by line.
All there is of the paths is the first line, where blanks set them apart, and the lines that tell of
a new name. Which revision does not have the file is not looked for, so that the paths come out
right only for files that both revisions have. -/

namespace ChangeSplit.Diff

open Text (Whole Trimmed Unbroken)

/-- What became of a file from one revision to the next. -/
inductive Fate where
  | added (path : String)
  | deleted (path : String)
  | kept (path : String)
  | renamed (old new : String)
  | copied (old new : String)

/-- Whether a line tells a former or a new name. -/
def tellsName (line : List Char) : Bool := begins "rename from " line || begins "rename to " line

namespace Fate

/-- The path of the file in a revision that has it. -/
def path? : Fate → Revision → Option String
  | added path, .current | deleted path, .base | kept path, _ => some path
  | added _, .base | deleted _, .current => none
  | renamed old _, .base | copied old _, .base => some old
  | renamed _ new, .current | copied _ new, .current => some new

/-- The file as a change should have it. -/
def file (fate : Fate) (index : Int) : FileChange :=
  { index, basePath := fate.path? .base, currentPath := fate.path? .current }

/-- The two paths in the first line of the section. -/
def named : Fate → String × String
  | added path | deleted path | kept path => (path, path)
  | renamed old new | copied old new => (old, new)

/-- The path of a file that only one of the revisions has. -/
def lonePath? : Fate → Option String
  | added path | deleted path => some path
  | kept _ | renamed .. | copied .. => none

/-- The lines that tell the former and the new name of a file. -/
def nameLines : Fate → List (List Char)
  | renamed old new => ["rename from ".toList ++ old.toList, "rename to ".toList ++ new.toList]
  | added _ | deleted _ | kept _ | copied .. => []

/-- Whether the paths can be told from a section without labels. They stand apart in the first line
if they hold no blank, and have lines of their own if the file was renamed. -/
def Told : Fate → Prop
  | added _ | deleted _ => False
  | kept path => Unbroken path.toList
  | renamed old new =>
    (Whole old.toList ∧ Trimmed old.toList) ∧ Whole new.toList ∧ Trimmed new.toList
  | copied old new => Unbroken old.toList ∧ Unbroken new.toList

end Fate

/-- The section of a file without labels. Its lines tell the mode, the names, how alike the contents
are, and that they are not text, in whatever order. -/
structure Unlabelled where
  fate : Fate
  body : List (List Char)
  plain : ∀ line ∈ body, beginsSection line = false ∧ begins "--- " line = false
  /-- Nothing but the paths brings a boundary into a line. -/
  whole : Whole fate.named.1.toList → Whole fate.named.2.toList → ∀ line ∈ body, Whole line
  names : body.filter tellsName = fate.nameLines
  added : fate.path? .base = none ↔ ∃ line ∈ body, begins "new file mode " line = true
  deleted : fate.path? .current = none ↔ ∃ line ∈ body, begins "deleted file mode " line = true

/-- The file that the paths of a section without hunks make. -/
def Paths.file (paths : Paths) (index : Int) : FileChange :=
  { index, basePath := paths.base, currentPath := paths.current }

section Header

variable {header : List Char} {paths : Paths}

theorem exists_words_of_pathsInHeader? (h : pathsInHeader? header = some paths) :
    ∃ current base rest, (Text.words header).reverse = current :: base :: rest ∧
      paths = ⟨some (withoutMark "a/" base), some (withoutMark "b/" current)⟩ := by
  unfold pathsInHeader? at h
  split at h
  case h_1 current base _ _ _ hWords =>
    cases h
    exact ⟨current, base, _, hWords, rfl⟩
  case h_2 => cases h

theorem withoutMark_subset (mark : String) (path : List Char) :
    (withoutMark mark path).toList ⊆ path := by
  rw [withoutMark, String.toList_ofList, Content.after?]
  split
  · exact List.drop_subset _ _
  · exact List.Subset.refl _

theorem withoutMark_append (mark path : String) :
    withoutMark mark (mark.toList ++ path.toList) = path := by
  rw [withoutMark, Content.after?_append, Option.getD_some, String.ofList_toList]

/-- The first line tells two paths apart exactly if neither holds a blank. -/
theorem pathsInHeader?_eq_iff {f : FileChange} {old new : String}
    (hOld : f.basePath.or f.currentPath = some old) (hNew : f.currentPath.or f.basePath = some new)
    (h : pathsInHeader? (sectionHeader f) = some paths) :
    paths = ⟨some old, some new⟩ ↔ Unbroken old.toList ∧ Unbroken new.toList := by
  obtain ⟨current, base, rest, hReverse, rfl⟩ := exists_words_of_pathsInHeader? h
  have hWords : Text.words (sectionHeader f) = rest.reverse ++ [base, current] := by
    rw [← List.reverse_reverse (Text.words _), hReverse]
    simp
  constructor
  · intro hPaths
    obtain ⟨rfl, rfl⟩ := by simpa using hPaths
    have hUnbroken {word : List Char} (hWord : word ∈ [base, current]) : Unbroken word := by
      have hMem : word ∈ Text.words (sectionHeader f) := by
        rw [hWords]
        exact List.mem_append_right _ hWord
      exact Text.unbroken_of_mem_words hMem
    exact ⟨(hUnbroken (by simp)).mono (withoutMark_subset _ _),
      (hUnbroken (by simp)).mono (withoutMark_subset _ _)⟩
  · rintro ⟨hOldBare, hNewBare⟩
    have hMarked {mark path : String} (hMark : Unbroken mark.toList) (hPath : Unbroken path.toList)
        (hNil : mark.toList ≠ []) :
        Text.words (writtenPath mark (some path)) = [mark.toList ++ path.toList] := by
      refine Text.words_eq_singleton (by simp [writtenPath, hNil]) fun c hc => ?_
      rcases List.mem_append.1 hc with hc | hc
      · exact hMark c hc
      · exact hPath c hc
    have hSplit := words_sectionHeader f
    rw [hOld, hNew, hMarked (by decide) hOldBare (by decide),
      hMarked (by decide) hNewBare (by decide)] at hSplit
    rw [hSplit] at hReverse
    simp only [List.reverse_cons, List.reverse_nil, List.nil_append, List.cons_append,
      List.cons.injEq] at hReverse
    obtain ⟨rfl, rfl, -⟩ := hReverse
    rw [withoutMark_append, withoutMark_append]

end Header

section Names

theorem renamed_of_not_tellsName {line : List Char} (h : tellsName line = false) (paths : Paths) :
    paths.renamed line = paths := by
  obtain ⟨hOld, hNew⟩ := Bool.or_eq_false_iff.1 h
  have hOld : Content.after? "rename from ".toList line = none := if_neg (ne_true_of_eq_false hOld)
  have hNew : Content.after? "rename to ".toList line = none := if_neg (ne_true_of_eq_false hNew)
  rw [Paths.renamed, hOld, hNew]

/-- Only the lines that tell a name matter to the paths. -/
theorem foldl_renamed_filter (body : List (List Char)) (paths : Paths) :
    body.foldl Paths.renamed paths = (body.filter tellsName).foldl Paths.renamed paths := by
  induction body generalizing paths with
  | nil => rfl
  | cons line body ih =>
      rw [List.foldl_cons]
      cases hLine : tellsName line with
      | true => rw [List.filter_cons_of_pos hLine, List.foldl_cons, ih]
      | false =>
          rw [List.filter_cons_of_neg (by simp [hLine]), renamed_of_not_tellsName hLine, ih]

theorem foldl_nameLines_renamed (old new : String) (paths : Paths) :
    (Fate.renamed old new).nameLines.foldl Paths.renamed paths =
      ⟨some (String.ofList (Text.trim old.toList)),
        some (String.ofList (Text.trim new.toList))⟩ := by
  have hOld : paths.renamed ("rename from ".toList ++ old.toList) =
      { paths with base := some (String.ofList (Text.trim old.toList)) } := by
    rw [Paths.renamed, Content.after?_append]
  have hNot : Content.after? "rename from ".toList ("rename to ".toList ++ new.toList) = none := rfl
  rw [Fate.nameLines, List.foldl_cons, List.foldl_cons, List.foldl_nil, hOld, Paths.renamed, hNot,
    Content.after?_append]

end Names

section Recorded

/-! Paths that are recorded come from the lines of the text too, and hold no boundary. -/

/-- Whether no path of a file holds a boundary. -/
def WholePaths (f : FileChange) : Prop :=
  ∀ path, f.basePath = some path ∨ f.currentPath = some path → Whole path.toList

theorem whole_withoutMark {path : List Char} (h : Whole path) (mark : String) :
    Whole (withoutMark mark path).toList :=
  h.mono (withoutMark_subset mark path)

theorem whole_of_labelled {mark path : String} {label : List Char} (hLabel : Whole label)
    (h : labelled mark label = some path) : Whole path.toList := by
  rw [labelled] at h
  split at h
  · cases h
  · cases h
    exact whole_withoutMark (hLabel.mono (Text.trim_subset label)) mark

theorem Paths.file_renamed_whole {paths : Paths} {line : List Char} (hLine : Whole line)
    (h : ∀ index, WholePaths (paths.file index)) (index : Int) :
    WholePaths ((paths.renamed line).file index) := by
  have hName {word rest : List Char} (hAfter : Content.after? word line = some rest) :
      Whole (String.ofList (Text.trim rest)).toList := by
    rw [String.toList_ofList]
    rw [Content.after?] at hAfter
    split at hAfter
    · cases hAfter
      exact hLine.mono fun c hc => List.drop_subset _ _ (Text.trim_subset _ hc)
    · cases hAfter
  intro path hPath
  rw [Paths.renamed] at hPath
  split at hPath
  case h_1 old hOld =>
    rcases hPath with hPath | hPath
    · cases hPath
      exact hName hOld
    · exact h index path (.inr hPath)
  case h_2 =>
    split at hPath
    case h_1 new hNew =>
      rcases hPath with hPath | hPath
      · exact h index path (.inl hPath)
      · cases hPath
        exact hName hNew
    case h_2 => exact h index path hPath

variable {index : Nat} {header : List Char} {body : List (List Char)}
  {pieces : List (List Char × List (List Char))}

theorem Paths.file_whole_of_header {paths : Paths} (hHeader : Whole header)
    (hPaths : pathsInHeader? header = some paths) (index : Int) :
    WholePaths (paths.file index) := by
  obtain ⟨current, base, rest, hWords, rfl⟩ := exists_words_of_pathsInHeader? hPaths
  have hWord {word : List Char} (hMem : word ∈ [current, base]) : Whole word := by
    have hIn : word ∈ (Text.words header).reverse := by
      rw [hWords]
      exact List.mem_append_left rest hMem
    exact hHeader.mono (Text.subset_of_mem_words (List.mem_reverse.1 hIn))
  rintro path (hPath | hPath)
  · cases hPath
    exact whole_withoutMark (hWord (by simp)) _
  · cases hPath
    exact whole_withoutMark (hWord (by simp)) _

theorem Paths.file_whole_of_remarks {paths : Paths} {remarks : List (List Char)}
    (hHeader : Whole header) (hRemarks : ∀ l ∈ remarks, Whole l)
    (hPaths : pathsInHeader? header = some paths) (index : Int) :
    WholePaths ((remarks.foldl Paths.renamed paths).file index) :=
  List.foldlRecOn (motive := fun paths => ∀ index, WholePaths (Paths.file paths index)) remarks _
    (Paths.file_whole_of_header hHeader hPaths)
    (fun _ hPaths line hLine => Paths.file_renamed_whole (hRemarks line hLine) hPaths) index

theorem GivesFile.wholePaths {f : FileChange} (h : GivesFile index header body (some f))
    (hHeader : Whole header) (hWhole : ∀ l ∈ body, Whole l) : WholePaths f := by
  cases h with
  | unlabelled hPaths => exact Paths.file_whole_of_remarks hHeader hWhole hPaths index
  | binary hPaths hBody =>
      rw [hBody, List.forall_mem_append] at hWhole
      exact Paths.file_whole_of_remarks hHeader hWhole.1 hPaths index
  | text hPaths hBody _ _ _ hCurrent =>
      rw [hBody, List.forall_mem_append, List.forall_mem_cons] at hWhole
      obtain ⟨hRemarks, hLabel, hRest⟩ := hWhole
      rintro path (hPath | hPath)
      · exact whole_of_labelled (hLabel.mono (List.drop_subset _ _)) hPath
      · rcases hCurrent with rfl | ⟨new, hNew, _, rfl⟩
        · exact Paths.file_whole_of_remarks hHeader hRemarks hPaths index path (.inr hPath)
        · have hLine := hRest new (List.mem_of_head? hNew)
          exact whole_of_labelled (hLine.mono (List.drop_subset _ _)) hPath

theorem GivesFiles.wholePaths {files : List FileChange} (h : GivesFiles index pieces files)
    (hPieces : ∀ p ∈ pieces, ∀ l ∈ p.1 :: p.2, Whole l) : ∀ f ∈ files, WholePaths f := by
  induction h with
  | nil => exact List.forall_mem_nil _
  | skip _ _ ih => exact ih (List.forall_mem_cons.1 hPieces).2
  | file hHead _ ih =>
      obtain ⟨hPiece, hRest⟩ := List.forall_mem_cons.1 hPieces
      obtain ⟨hHeader, hBody⟩ := List.forall_mem_cons.1 hPiece
      exact List.forall_mem_cons.2 ⟨hHead.wholePaths hHeader hBody, ih hRest⟩

theorem wholePaths_of_read {text : String} {files : List FileChange}
    (hRead : read text = .ok files) : ∀ f ∈ files, WholePaths f :=
  (givesFiles_of_readSections hRead).wholePaths fun _ hp l hl =>
    Text.whole_of_mem_lines ((cut_cutBefore _ _).mem hp l hl)

end Recorded

namespace Fate

variable {fate : Fate} {index : Int}

theorem or_path?_base (fate : Fate) (index : Int) :
    (fate.file index).basePath.or (fate.file index).currentPath = some fate.named.1 := by
  cases fate <;> rfl

theorem or_path?_current (fate : Fate) (index : Int) :
    (fate.file index).currentPath.or (fate.file index).basePath = some fate.named.2 := by
  cases fate <;> rfl

/-- Paths that can be told hold no boundary. -/
theorem Told.whole (h : fate.Told) :
    Whole fate.named.1.toList ∧ Whole fate.named.2.toList := by
  cases fate with
  | added | deleted => exact h.elim
  | kept path => exact ⟨Unbroken.whole h, Unbroken.whole h⟩
  | renamed old new => exact ⟨h.1.1, h.2.1⟩
  | copied old new => exact ⟨h.1.whole, h.2.whole⟩

/-- The first line names no other paths than those of the file. -/
theorem whole_named (h : WholePaths (fate.file index)) :
    Whole fate.named.1.toList ∧ Whole fate.named.2.toList := by
  cases fate with
  | added path => exact ⟨h path (.inr rfl), h path (.inr rfl)⟩
  | deleted path => exact ⟨h path (.inl rfl), h path (.inl rfl)⟩
  | kept path => exact ⟨h path (.inl rfl), h path (.inl rfl)⟩
  | renamed old new => exact ⟨h old (.inl rfl), h new (.inr rfl)⟩
  | copied old new => exact ⟨h old (.inl rfl), h new (.inr rfl)⟩

theorem file_eq_file_iff {paths : Paths} :
    paths.file index = fate.file index ↔ paths = ⟨fate.path? .base, fate.path? .current⟩ := by
  cases paths
  simp [Paths.file, Fate.file]

/-- What the first line and the lines with names make of the paths. -/
theorem foldl_nameLines_eq_iff {paths : Paths} (hOld : Whole fate.named.1.toList)
    (hNew : Whole fate.named.2.toList)
    (h : pathsInHeader? (sectionHeader (fate.file index)) = some paths) :
    fate.nameLines.foldl Paths.renamed paths = ⟨fate.path? .base, fate.path? .current⟩ ↔
      fate.Told := by
  have hHeader :=
    pathsInHeader?_eq_iff (fate.or_path?_base index) (fate.or_path?_current index) h
  obtain ⟨current, base, _, _, hBoth⟩ := exists_words_of_pathsInHeader? h
  cases fate with
  | added path | deleted path => simp [nameLines, path?, Told, hBoth]
  | kept path => exact hHeader.trans and_self_iff
  | copied old new => exact hHeader
  | renamed old new =>
      have hTrim (path : String) : some (String.ofList (Text.trim path.toList)) = some path ↔
          Trimmed path.toList := by
        rw [Option.some_inj, ← Text.trim_eq_iff, ← String.toList_inj, String.toList_ofList]
      rw [foldl_nameLines_renamed, Paths.mk.injEq]
      exact and_congr ((hTrim old).trans (and_iff_right hOld).symm)
        ((hTrim new).trans (and_iff_right hNew).symm)

section Fetch

variable {c : ChosenChange} {x : Fetch}

/-- A file with the right paths is asked only of revisions that have it. -/
theorem path?_of_mem_ofFile (fate : Fate) (h : x ∈ Fetch.ofFile c (fate.file index)) :
    fate.path? x.revision = some x.path := by
  rw [Fetch.ofFile, List.mem_append, Option.mem_toList, Option.mem_toList] at h
  rcases h with h | h
  · obtain ⟨path, hPath, h⟩ := Option.bind_eq_some_iff.1 h
    obtain ⟨commit, _, rfl⟩ := Option.map_eq_some_iff.1 h
    exact (Option.filter_eq_some_iff.1 hPath).1
  · obtain ⟨path, hPath, rfl⟩ := Option.map_eq_some_iff.1 h
    exact (Option.filter_eq_some_iff.1 hPath).1

theorem named_of_lonePath? {path : String} (h : fate.lonePath? = some path) :
    fate.named = (path, path) ∧ fate.nameLines = [] := by
  cases fate <;> cases h <;> exact ⟨rfl, rfl⟩

/-- With two paths, both revisions are asked for a file that only one of them has. -/
theorem exists_fetch_of_lonePath? {path : String} (h : fate.lonePath? = some path)
    (hBase : c.base.isSome = true) (hNil : path ≠ "") (hunks : List Hunk) :
    ∃ x ∈ Fetch.ofFile c ⟨index, some path, some path, hunks⟩, fate.path? x.revision = none := by
  obtain ⟨commit, hCommit⟩ := Option.isSome_iff_exists.1 hBase
  have hPath (r : Revision) :
      FileChange.path? ⟨index, some path, some path, hunks⟩ r = some path := by
    cases r <;> simp [FileChange.path?, Option.filter, hNil]
  have hFetches : Fetch.ofFile c ⟨index, some path, some path, hunks⟩ =
      [⟨.base, path, some commit⟩, ⟨.current, path, c.target⟩] := by
    simp only [Fetch.ofFile, hPath, hCommit]
    rfl
  rw [hFetches]
  cases fate with
  | added => exact ⟨_, List.mem_cons_self, rfl⟩
  | deleted => exact ⟨_, List.mem_cons_of_mem _ List.mem_cons_self, rfl⟩
  | kept | renamed | copied => cases h

end Fetch

end Fate

/-- Where each line is ended, the last one is. -/
theorem getLast?_flatMap_lines {ls : List (List Char)} (h : ls ≠ []) :
    (ls.flatMap (· ++ ['\n'])).getLast? = some '\n' := by
  obtain ⟨ls, l, rfl⟩ := (List.eq_nil_or_concat ls).resolve_left h
  simp

namespace Unlabelled

def header (s : Unlabelled) : List Char := sectionHeader (s.fate.file 0)

/-- The section as text. -/
def text (s : Unlabelled) : String :=
  String.ofList ((s.header :: s.body).flatMap (· ++ ['\n']))

variable {s : Unlabelled}

theorem header_eq (s : Unlabelled) : s.header = "diff --git ".toList ++
    (writtenPath "a/" (some s.fate.named.1) ++ ' ' :: writtenPath "b/" (some s.fate.named.2)) := by
  unfold header sectionHeader
  simp only [Fate.or_path?_base, Fate.or_path?_current]

theorem whole_lines (hOld : Whole s.fate.named.1.toList) (hNew : Whole s.fate.named.2.toList) :
    ∀ line ∈ s.header :: s.body, Whole line := by
  have hPath {mark path : String} (hMark : Whole mark.toList) (hPath : Whole path.toList) :
      Whole (writtenPath mark (some path)) := hMark.append hPath
  refine List.forall_mem_cons.2 ⟨?_, s.whole hOld hNew⟩
  rw [header_eq]
  apply Whole.append (by decide)
  apply (hPath (by decide) hOld).append
  exact (hPath (by decide) hNew).cons (by decide)

theorem prefix_text (s : Unlabelled) : "diff --git ".toList <+: s.text.toList := by
  have hHeader : s.header <+: s.text.toList := by
    rw [text, String.toList_ofList, List.flatMap_cons, List.append_assoc]
    exact List.prefix_append _ _
  have hWord : "diff --git ".toList <+: s.header := ⟨_, rfl⟩
  exact hWord.trans hHeader

theorem getLast?_text (s : Unlabelled) : s.text.toList.getLast? = some '\n' := by
  rw [text, String.toList_ofList]
  exact getLast?_flatMap_lines (List.cons_ne_nil _ _)

/-- The section is one piece if its paths hold no boundary. -/
theorem cutBefore_text (hOld : Whole s.fate.named.1.toList)
    (hNew : Whole s.fate.named.2.toList) :
    (cutBefore beginsSection (Text.lines s.text.toList)).2 = [(s.header, s.body)] := by
  have hPiece : ∀ p ∈ [(s.header, s.body)],
      beginsSection p.1 = true ∧ ∀ line ∈ p.2, beginsSection line = false :=
    List.forall_mem_singleton.2 ⟨begins_append _ _, fun line hLine => (s.plain line hLine).1⟩
  have hCut := cutBefore_flatMap hPiece
  rw [List.flatMap_singleton] at hCut
  rw [text, String.toList_ofList, Text.lines_flatMap (whole_lines hOld hNew), hCut]

theorem readSection_eq {paths : Paths} (h : pathsInHeader? s.header = some paths) (index : Nat) :
    readSection index s.header s.body =
      .ok (some ((s.fate.nameLines.foldl Paths.renamed paths).file index)) := by
  have hLabel : ∀ line ∈ s.body, (!begins "--- " line) = true := fun line hLine => by
    rw [(s.plain line hLine).2]
    rfl
  have hRemarks : (s.body ++ []).takeWhile (!begins "--- " ·) = s.body ++ [] :=
    List.takeWhile_append_of_pos hLabel
  have hNone : (s.body ++ []).dropWhile (!begins "--- " ·) = [] :=
    List.dropWhile_append_of_pos hLabel
  rw [List.append_nil] at hRemarks hNone
  have hPaths := foldl_renamed_filter s.body paths
  rw [s.names] at hPaths
  simp only [readSection, h, hRemarks, hNone, hPaths]
  rfl

section Between

variable {front back : String} {files others : List FileChange}
  (hFront : front = "" ∨ front.toList.getLast? = some '\n')
  (hBack : back = "" ∨ "diff --git ".toList <+: back.toList)
  (hFiles : read front = .ok files) (hOthers : read back = .ok others)

include hFront hBack hFiles hOthers

/-- The section is read by itself wherever it stands in a change. -/
theorem read_between (hOld : Whole s.fate.named.1.toList) (hNew : Whole s.fate.named.2.toList)
    {paths : Paths} (h : pathsInHeader? s.header = some paths) :
    read (front ++ s.text ++ back) =
      .ok (files ++ (s.fate.nameLines.foldl Paths.renamed paths).file files.length ::
        others.map (.later (files.length + 1))) := by
  have hPieces : (cutBefore beginsSection (Text.lines (front ++ s.text ++ back).toList)).2 =
      (cutBefore beginsSection (Text.lines front.toList)).2 ++ ((s.header, s.body) ::
        (cutBefore beginsSection (Text.lines back.toList)).2) := by
    have hHead := cutBefore_lines_append hFront s.prefix_text
    rw [cutBefore_text hOld hNew] at hHead
    rcases hBack with rfl | hBack
    · rw [String.append_empty, hHead]
      rfl
    · have hLast : (front ++ s.text).toList.getLast? = some '\n' := by
        rw [String.toList_append, List.getLast?_append, s.getLast?_text]
        rfl
      rw [cutBefore_lines_append (.inr hLast) hBack, hHead, List.append_assoc]
      rfl
  have hLater := readSections_later 0 (files.length + 1)
    (cutBefore beginsSection (Text.lines back.toList)).2
  rw [Nat.zero_add, show readSections 0 _ = read back from rfl, hOthers] at hLater
  rw [read, hPieces, readSections_append, show readSections 0 _ = read front from rfl, hFiles]
  simp only [bind, Except.bind, Nat.zero_add, readSections, readSection_eq h, hLater]
  rfl

end Between

end Unlabelled

/-- The file that is read from a section without labels has the right paths exactly if both
revisions have it and the paths can be told, and then no revision is asked for a file that it does
not have. A file that was added or deleted is read as one that both revisions have, so that the one
without it is asked for it too. -/
theorem read_unlabelled_iff_told (s : Unlabelled) {front back : String}
    {files others : List FileChange} (hFront : front = "" ∨ front.toList.getLast? = some '\n')
    (hBack : back = "" ∨ "diff --git ".toList <+: back.toList)
    (hFiles : read front = .ok files) (hOthers : read back = .ok others) :
    let reads (f : FileChange) : Prop := read (front ++ s.text ++ back) =
      .ok (files ++ f :: others.map (.later (files.length + 1)))
    (reads (s.fate.file files.length) ↔ s.fate.Told) ∧
    (s.fate.Told → ∀ c, ∀ x ∈ Fetch.ofFile c (s.fate.file files.length),
      s.fate.path? x.revision = some x.path) ∧
    ∀ path, s.fate.lonePath? = some path → Unbroken path.toList →
      ∃ f : FileChange, reads f ∧ f.basePath = some path ∧ f.currentPath = some path ∧
        ∀ c : ChosenChange, c.base.isSome = true → path ≠ "" →
          ∃ x ∈ Fetch.ofFile c f, s.fate.path? x.revision = none := by
  intro reads
  obtain ⟨paths, hPaths⟩ := pathsInHeader?_sectionHeader (s.fate.file 0)
  have hRead (hWhole : Whole s.fate.named.1.toList ∧ Whole s.fate.named.2.toList) :
      reads ((s.fate.nameLines.foldl Paths.renamed paths).file files.length) :=
    Unlabelled.read_between hFront hBack hFiles hOthers hWhole.1 hWhole.2 hPaths
  refine ⟨⟨fun hTrue => ?_, fun hTold => ?_⟩, fun _ c x hx => ?_, fun path hLone hPath => ?_⟩
  · have hMem : s.fate.file files.length ∈ files ++ s.fate.file files.length ::
        others.map (.later (files.length + 1)) := by simp
    have hWhole := Fate.whole_named (wholePaths_of_read hTrue _ hMem)
    have hSame := Except.ok.inj ((hRead hWhole).symm.trans hTrue)
    rw [List.append_cancel_left_eq, List.cons.injEq, Fate.file_eq_file_iff] at hSame
    exact (Fate.foldl_nameLines_eq_iff hWhole.1 hWhole.2 hPaths).1 hSame.1
  · have hWhole := hTold.whole
    have hFile := hRead hWhole
    rwa [(Fate.foldl_nameLines_eq_iff hWhole.1 hWhole.2 hPaths).2 hTold] at hFile
  · exact s.fate.path?_of_mem_ofFile hx
  · have hNamed : s.fate.named = (path, path) ∧ s.fate.nameLines = [] :=
      Fate.named_of_lonePath? hLone
    refine ⟨⟨files.length, some path, some path, []⟩, ?_, rfl, rfl, fun c hBase hNil => ?_⟩
    · have hFile := hRead (by rw [hNamed.1]; exact ⟨hPath.whole, hPath.whole⟩)
      have hBoth := (pathsInHeader?_eq_iff (s.fate.or_path?_base 0) (s.fate.or_path?_current 0)
        hPaths).2 (by rw [hNamed.1]; exact ⟨hPath, hPath⟩)
      rwa [hNamed.2, hBoth, hNamed.1] at hFile
    · exact Fate.exists_fetch_of_lonePath? hLone hBase hNil _

/-- A file whose name, with blanks in it, is all that changed. -/
def renamedAlone : Unlabelled where
  fate := .renamed "My old.java" "My new.java"
  body := ["similarity index 100%".toList, "rename from My old.java".toList,
    "rename to My new.java".toList]
  plain := by decide
  whole _ _ := by decide
  names := by decide
  added := by decide
  deleted := by decide

/-- A file without lines that only the revision after the change has. -/
def addedEmpty : Unlabelled where
  fate := .added "A.java"
  body := ["new file mode 100644".toList, "index 0000000..e69de29".toList]
  plain := by decide
  whole _ _ := by decide
  names := by decide
  added := by decide
  deleted := by decide

/-- The renamed file is read back. The added one comes out with a path in both revisions. -/
theorem read_unlabelled_addedEmpty :
    read ("" ++ renamedAlone.text ++ addedEmpty.text) = .ok [
        { index := 0, basePath := some "My old.java", currentPath := some "My new.java" },
        { index := 1, basePath := some "A.java", currentPath := some "A.java" }] ∧
      read (renamedAlone.text ++ addedEmpty.text ++ "") ≠ .ok [
        { index := 0, basePath := some "My old.java", currentPath := some "My new.java" },
        { index := 1, basePath := none, currentPath := some "A.java" }] := by
  have hRenamed : read renamedAlone.text = .ok [
      { index := 0, basePath := some "My old.java", currentPath := some "My new.java" }] := by
    decide +kernel
  have hAdded : read addedEmpty.text = .ok [
      { index := 0, basePath := some "A.java", currentPath := some "A.java" }] := by
    decide +kernel
  have hTold : renamedAlone.fate.Told := by
    refine ⟨⟨?_, ?_⟩, ?_, ?_⟩ <;> decide
  have hFirst := read_unlabelled_iff_told renamedAlone (.inl rfl) (.inr addedEmpty.prefix_text)
    (rfl : read "" = .ok []) hAdded
  have hSecond := read_unlabelled_iff_told addedEmpty (.inr renamedAlone.getLast?_text)
    (.inl rfl) hRenamed (rfl : read "" = .ok [])
  exact ⟨hFirst.1.2 hTold, fun hRead => hSecond.1.1 hRead⟩

end ChangeSplit.Diff
