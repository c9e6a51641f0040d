import ChangeSplit.Proofs.Diff.Reader
import ChangeSplit.Proofs.Text.Lines

/-! Writing a change in the unified form without lines of context, and reading it back. The form
leaves a good deal open: a count of one may be left out, a heading may follow the ranges, a remark
may follow the lines of a side, and more may be said of a file than its paths. A style settles all
of this, and none of it comes back. -/

namespace ChangeSplit.Diff

open Text (Whole Trimmed)

/-- What the form leaves open about one side of a hunk. -/
structure SideStyle where
  /-- The line behind which a side without lines is said to stand. -/
  behind : Nat := 0
  /-- Whether a count of one is left out. -/
  short : Bool := false
  /-- Whether it is remarked that the last line has no end. -/
  remarked : Bool := false

structure HunkStyle where
  base : SideStyle := {}
  current : SideStyle := {}
  /-- What follows the ranges in the header. -/
  heading : List Char := []
  whole : Whole heading := by decide

/-- Whether a line can stand between the first line of a section and the labels. -/
def saysMore (line : List Char) : Bool :=
  !beginsSection line && !begins "--- " line && !tellsBinary line

structure FileStyle where
  /-- What else is said of the file, such as its mode or its former name. -/
  more : List (List Char) := []
  saysMore : ∀ line ∈ more, Whole line ∧ saysMore line = true := by decide
  /-- Whether a tab ends the labels, as it does behind paths with blanks. -/
  tabbed : Bool := false
  hunk : Hunk → HunkStyle := fun _ => {}

/-- The number with which the range of a side begins. -/
def SideStyle.start (style : SideStyle) (s : Side) : Nat :=
  if s.lines.isEmpty then style.behind else s.first.toNat

def SideStyle.range (style : SideStyle) (s : Side) : List Char :=
  Nat.toDigits 10 (style.start s) ++
    if style.short && s.lines.length = 1 then [] else ',' :: Nat.toDigits 10 s.lines.length

def SideStyle.remarks (style : SideStyle) : List (List Char) :=
  if style.remarked then ["\\ No newline at end of file".toList] else []

/-- The lines of a side with the mark of its revision in front. -/
def SideStyle.body (style : SideStyle) (mark : Char) (s : Side) : List (List Char) :=
  (s.lines.map String.toList).map (mark :: ·) ++ style.remarks

def HunkStyle.header (style : HunkStyle) (h : Hunk) : List Char :=
  "@@ -".toList ++ (style.base.range h.base ++ (" +".toList ++
    (style.current.range h.current ++ (" @@".toList ++ style.heading))))

def HunkStyle.body (style : HunkStyle) (h : Hunk) : List (List Char) :=
  style.base.body '-' h.base ++ style.current.body '+' h.current

/-- The path of a file in a revision with the mark of the revision in front. -/
def writtenPath (mark : String) (path : Option String) : List Char :=
  path.elim "/dev/null".toList fun path => mark.toList ++ path.toList

def FileStyle.label (style : FileStyle) (word mark : String) (path : Option String) : List Char :=
  word.toList ++ (writtenPath mark path ++ if style.tabbed then ['\t'] else [])

/-- The first line of a section. It names two paths even if a revision does not have the file. -/
def sectionHeader (f : FileChange) : List Char :=
  "diff --git ".toList ++ (writtenPath "a/" (f.basePath.or f.currentPath) ++
    ' ' :: writtenPath "b/" (f.currentPath.or f.basePath))

def FileStyle.hunks (style : FileStyle) (f : FileChange) : List (List Char × List (List Char)) :=
  f.hunks.map fun h => ((style.hunk h).header h, (style.hunk h).body h)

def FileStyle.body (style : FileStyle) (f : FileChange) : List (List Char) :=
  style.more ++ style.label "--- " "a/" f.basePath :: style.label "+++ " "b/" f.currentPath ::
    (style.hunks f).flatMap fun p => p.1 :: p.2

def writtenLines (style : FileChange → FileStyle) (files : List FileChange) : List (List Char) :=
  (files.map fun f => (sectionHeader f, (style f).body f)).flatMap fun p => p.1 :: p.2

/-- The text of a change, in the given style. -/
def write (style : FileChange → FileStyle) (files : List FileChange) : String :=
  String.ofList ((writtenLines style files).flatMap (· ++ ['\n']))

/-- A side that has either lines, with the numbers of the first and the last, or none. -/
structure RegularSide (s : Side) : Prop where
  whole : ∀ l ∈ s.lines, Whole l.toList
  vacant : s.lines = [] → s.first = 0 ∧ s.last = 0
  numbered : s.lines ≠ [] → 1 ≤ s.first ∧ s.last = s.first + s.lines.length - 1

/-- A path that can stand on a line of its own. -/
structure RegularPath (path : String) : Prop where
  ne_nil : path.toList ≠ []
  whole : Whole path.toList
  trimmed : Trimmed path.toList

structure RegularHunk (h : Hunk) : Prop where
  base : RegularSide h.base
  current : RegularSide h.current

/-- A file whose paths, if it has them, and hunks can be written, and whose hunks are numbered by
their places. -/
structure RegularFile (f : FileChange) : Prop where
  base : ∀ path, f.basePath = some path → RegularPath path
  current : ∀ path, f.currentPath = some path → RegularPath path
  hunks : ∀ h ∈ f.hunks, RegularHunk h
  numbered : f.hunks.map (·.index) = (List.range f.hunks.length).map (↑)

/-- Files numbered by their places. -/
structure Regular (files : List FileChange) : Prop where
  file : ∀ f ∈ files, RegularFile f
  numbered : files.map (·.index) = (List.range files.length).map (↑)

instance (s : Side) : Decidable (RegularSide s) :=
  decidable_of_iff ((∀ l ∈ s.lines, Whole l.toList) ∧ (s.lines = [] → s.first = 0 ∧ s.last = 0) ∧
      (s.lines ≠ [] → 1 ≤ s.first ∧ s.last = s.first + s.lines.length - 1))
    ⟨fun h => ⟨h.1, h.2.1, h.2.2⟩, fun h => ⟨h.whole, h.vacant, h.numbered⟩⟩

instance (path : String) : Decidable (RegularPath path) :=
  decidable_of_iff (path.toList ≠ [] ∧ Whole path.toList ∧ Trimmed path.toList)
    ⟨fun h => ⟨h.1, h.2.1, h.2.2⟩, fun h => ⟨h.ne_nil, h.whole, h.trimmed⟩⟩

instance (h : Hunk) : Decidable (RegularHunk h) :=
  decidable_of_iff (RegularSide h.base ∧ RegularSide h.current)
    ⟨fun h => ⟨h.1, h.2⟩, fun h => ⟨h.base, h.current⟩⟩

instance (f : FileChange) : Decidable (RegularFile f) :=
  decidable_of_iff ((∀ path, f.basePath = some path → RegularPath path) ∧
      (∀ path, f.currentPath = some path → RegularPath path) ∧ (∀ h ∈ f.hunks, RegularHunk h) ∧
      f.hunks.map (·.index) = (List.range f.hunks.length).map (↑))
    ⟨fun h => ⟨h.1, h.2.1, h.2.2.1, h.2.2.2⟩, fun h => ⟨h.base, h.current, h.hunks, h.numbered⟩⟩

instance (files : List FileChange) : Decidable (Regular files) :=
  decidable_of_iff ((∀ f ∈ files, RegularFile f) ∧
      files.map (·.index) = (List.range files.length).map (↑))
    ⟨fun h => ⟨h.1, h.2⟩, fun h => ⟨h.file, h.numbered⟩⟩

section Hunk

theorem readRange?_range (style : SideStyle) (s : Side) (rest : List Char) {c : Char}
    (h : rest.head? = some c) (hDigit : Category.isDigit c = false) (hComma : c ≠ ',') :
    readRange? (style.range s ++ rest) = some (style.start s, rest) := by
  have hRest : ∀ d, rest.head? = some d → Category.isDigit d = false := by
    intro d hd
    cases h.symm.trans hd
    exact hDigit
  rw [SideStyle.range]
  split
  case isTrue => simpa using readRange?_toDigits hRest (by simpa [h] using hComma) _
  case isFalse => simpa using readRange?_toDigits_comma hRest _ _

theorem readHeader?_header (style : HunkStyle) (h : Hunk) :
    readHeader? (style.header h) =
      some (style.base.start h.base, style.current.start h.current) := by
  have hBase := readRange?_range style.base h.base
    (" +".toList ++ (style.current.range h.current ++ (" @@".toList ++ style.heading)))
    (c := ' ') rfl (by decide) (by decide)
  have hCurrent := readRange?_range style.current h.current
    (" @@".toList ++ style.heading) (c := ' ') rfl (by decide) (by decide)
  simp only [readHeader?, HunkStyle.header, Content.after?_append, Option.bind_some, hBase,
    hCurrent, Option.map_some]

variable {own other : Char}

theorem gather_remarks (style : SideStyle) (number : Nat) (rest : List (List Char)) :
    gather own other number (style.remarks ++ rest) = gather own other number rest := by
  rw [SideStyle.remarks]
  split
  · exact gather_remark (by decide) number rest
  · rfl

theorem gather_body_own (hOwn : own ≠ '\\') (style : SideStyle) (s : Side) (number : Nat)
    (rest : List (List Char)) :
    gather own other number (style.body own s ++ rest) =
      (List.range' number s.lines.length).zip s.lines ++
        gather own other (number + s.lines.length) rest := by
  have hLines : (s.lines.map String.toList).map String.ofList = s.lines := by
    simp [Function.comp_def]
  rw [SideStyle.body, List.append_assoc, gather_own hOwn, gather_remarks, hLines, List.length_map]

theorem gather_body_other (hOther : other ≠ '\\') (hNe : own ≠ other) (style : SideStyle)
    (s : Side) (number : Nat) (rest : List (List Char)) :
    gather own other number (style.body other s ++ rest) = gather own other number rest := by
  rw [SideStyle.body, List.append_assoc, gather_other hOther hNe, gather_remarks]

theorem sideOf_start (style : SideStyle) {s : Side} (h : RegularSide s) :
    sideOf ((List.range' (style.start s) s.lines.length).zip s.lines) = s := by
  by_cases hNil : s.lines = []
  · obtain ⟨hFirst, hLast⟩ := h.vacant hNil
    cases s
    simp_all [sideOf]
  · obtain ⟨hFirst, hLast⟩ := h.numbered hNil
    have hStart : ((style.start s : Nat) : Int) = s.first := by
      simp [SideStyle.start, hNil]
      omega
    rw [sideOf_zip hNil, hStart, ← hLast]

theorem readHunk_header (style : HunkStyle) {h : Hunk} {index : Nat} (hIndex : h.index = index)
    (hRegular : RegularHunk h) : readHunk index (style.header h) (style.body h) = .ok h := by
  have hBase (number : Nat) : gather '-' '+' number (style.body h) =
      (List.range' number h.base.lines.length).zip h.base.lines := by
    have hOther : gather '-' '+' (number + h.base.lines.length) (style.current.body '+' h.current) =
        [] := by
      rw [← List.append_nil (style.current.body '+' h.current),
        gather_body_other (by decide) (by decide), gather]
    rw [HunkStyle.body, gather_body_own (by decide), hOther, List.append_nil]
  have hCurrent (number : Nat) : gather '+' '-' number (style.body h) =
      (List.range' number h.current.lines.length).zip h.current.lines := by
    rw [HunkStyle.body, gather_body_other (by decide) (by decide),
      ← List.append_nil (style.current.body '+' h.current), gather_body_own (by decide), gather,
      List.append_nil]
  simp only [readHunk, readHeader?_header, hBase, hCurrent, sideOf_start _ hRegular.base,
    sideOf_start _ hRegular.current, ← hIndex]

theorem readHunks_hunks (style : Hunk → HunkStyle) {hunks : List Hunk} {index : Nat}
    (hIndex : hunks.map (·.index) = (List.range' index hunks.length).map (↑))
    (hRegular : ∀ h ∈ hunks, RegularHunk h) :
    readHunks index (hunks.map fun h => ((style h).header h, (style h).body h)) = .ok hunks := by
  induction hunks generalizing index with
  | nil => rfl
  | cons h hunks ih =>
      simp only [List.map_cons, List.length_cons, List.range'_succ, List.cons.injEq] at hIndex
      have hHead := readHunk_header (style h) hIndex.1 (hRegular h (List.mem_cons_self ..))
      have hTail := ih hIndex.2 fun g hg => hRegular g (List.mem_cons_of_mem _ hg)
      simp only [List.map_cons, readHunks, hHead, hTail]
      rfl

/-- Every line of a side begins with its mark or with the one of a remark. -/
theorem head?_of_mem_body {style : SideStyle} {mark : Char} {s : Side} {line : List Char}
    (h : line ∈ style.body mark s) : line.head? = some mark ∨ line.head? = some '\\' := by
  rw [SideStyle.body, List.mem_append] at h
  rcases h with h | h
  · obtain ⟨l, _, rfl⟩ := List.mem_map.1 h
    exact .inl rfl
  · rw [SideStyle.remarks] at h
    split at h
    · rw [List.mem_singleton.1 h]
      exact .inr rfl
    · cases h

theorem head?_of_mem_hunk {style : HunkStyle} {h : Hunk} {line : List Char}
    (hLine : line ∈ style.body h) :
    line.head? = some '-' ∨ line.head? = some '+' ∨ line.head? = some '\\' := by
  rcases List.mem_append.1 hLine with hLine | hLine
  · rcases head?_of_mem_body hLine with hHead | hHead <;> simp [hHead]
  · rcases head?_of_mem_body hLine with hHead | hHead <;> simp [hHead]

end Hunk

/-- A line does not begin with a word whose first character is another. -/
theorem begins_of_head? {word : String} {line : List Char} {c d : Char}
    (hWord : word.toList.head? = some d) (h : line.head? = some c) (hNe : d ≠ c) :
    begins word line = false := by
  cases line with
  | nil => cases h
  | cons b line =>
      cases h
      obtain ⟨rest, hRest⟩ := List.head?_eq_some_iff.1 hWord
      simp [begins, hRest, List.isPrefixOf, hNe]

section File

variable {style : FileStyle} {f : FileChange}

theorem beginsSection_of_mem_body {line : List Char} (h : line ∈ style.body f) :
    beginsSection line = false := by
  simp only [FileStyle.body, List.mem_append, List.mem_cons, List.mem_flatMap,
    FileStyle.hunks, List.mem_map] at h
  rcases h with h | rfl | rfl | ⟨_, ⟨hunk, _, rfl⟩, rfl | h⟩
  · have hMore := (style.saysMore line h).2
    simp only [saysMore, Bool.and_eq_true, Bool.not_eq_true'] at hMore
    exact hMore.1.1
  · exact begins_of_head? rfl rfl (by decide)
  · exact begins_of_head? rfl rfl (by decide)
  · exact begins_of_head? rfl rfl (by decide)
  · rcases head?_of_mem_hunk h with hHead | hHead | hHead
    all_goals exact begins_of_head? rfl hHead (by decide)

theorem beginsHunk_hunks :
    ∀ p ∈ style.hunks f, beginsHunk p.1 = true ∧ ∀ line ∈ p.2, beginsHunk line = false := by
  intro p hp
  obtain ⟨hunk, _, rfl⟩ := List.mem_map.1 hp
  refine ⟨rfl, fun line hLine => ?_⟩
  rcases head?_of_mem_hunk hLine with hHead | hHead | hHead
  all_goals exact begins_of_head? rfl hHead (by decide)

theorem trimmed_writtenPath {mark : String} {path : Option String}
    (hMark : Trimmed mark.toList) (hNil : mark.toList ≠ [])
    (h : ∀ p, path = some p → RegularPath p) : Trimmed (writtenPath mark path) := by
  cases path with
  | none =>
      show Trimmed "/dev/null".toList
      decide
  | some p =>
      obtain ⟨hPath, _, hTrimmed⟩ := h p rfl
      show Trimmed (mark.toList ++ p.toList)
      constructor
      · rw [List.head?_append_of_ne_nil _ hNil]
        exact hMark.head
      · rw [List.getLast?_append_of_ne_nil _ hPath]
        exact hTrimmed.last

/-- A label gives the path back. One with a mark is not taken for that of a missing file. -/
theorem labelled_writtenPath {mark : String} {path : Option String} {blanks : List Char}
    (hMark : Trimmed mark.toList) (hNil : mark.toList ≠ []) (hSlash : mark.toList.head? ≠ some '/')
    (hBlanks : ∀ c ∈ blanks, Category.isBlank c = true)
    (h : ∀ p, path = some p → RegularPath p) :
    labelled mark (writtenPath mark path ++ blanks) = path := by
  have hWritten : writtenPath mark path ≠ [] := by
    cases path <;> simp [writtenPath, hNil]
  have hTrim := Text.trim_append hWritten (trimmed_writtenPath hMark hNil h) hBlanks
  rw [labelled]
  simp only [hTrim]
  cases path with
  | none => rfl
  | some p =>
      have hSome : writtenPath mark (some p) = mark.toList ++ p.toList := rfl
      have hNe : mark.toList ++ p.toList ≠ "/dev/null".toList := by
        intro hEq
        have hHead := congrArg List.head? hEq
        rw [List.head?_append_of_ne_nil _ hNil] at hHead
        exact hSlash hHead
      rw [hSome, if_neg hNe, withoutMark, Content.after?_append]
      simp

/-- The first line of a section has words enough to name two paths. -/
theorem words_writtenPath_ne_nil (mark : String)
    (hMark : ∃ c ∈ mark.toList, Category.isBlank c = false) (path : Option String) :
    Text.words (writtenPath mark path) ≠ [] := by
  apply Text.words_ne_nil
  cases path with
  | none => exact ⟨'/', by simp [writtenPath], by decide⟩
  | some p =>
      obtain ⟨c, hc, hBlank⟩ := hMark
      exact ⟨c, List.mem_append_left _ hc, hBlank⟩

/-- Two words of the form come before the words of the paths. -/
theorem words_sectionHeader (f : FileChange) :
    Text.words (sectionHeader f) = "diff".toList :: "--git".toList ::
      (Text.words (writtenPath "a/" (f.basePath.or f.currentPath)) ++
        Text.words (writtenPath "b/" (f.currentPath.or f.basePath))) := by
  show Text.words ("diff".toList ++ ' ' :: ("--git".toList ++ ' ' :: (_ ++ ' ' :: _))) = _
  rw [Text.words_append_cons rfl, Text.words_append_cons rfl, Text.words_append_cons rfl]
  rfl

theorem pathsInHeader?_sectionHeader (f : FileChange) :
    ∃ paths, pathsInHeader? (sectionHeader f) = some paths := by
  have hBase := words_writtenPath_ne_nil "a/" ⟨'a', by decide, by decide⟩
    (f.basePath.or f.currentPath)
  have hCurrent := words_writtenPath_ne_nil "b/" ⟨'b', by decide, by decide⟩
    (f.currentPath.or f.basePath)
  have hLength : 4 ≤ (Text.words (sectionHeader f)).reverse.length := by
    have hBase := List.length_pos_iff.2 hBase
    have hCurrent := List.length_pos_iff.2 hCurrent
    simp only [words_sectionHeader, List.length_reverse, List.length_cons, List.length_append]
    omega
  rw [pathsInHeader?]
  match (Text.words (sectionHeader f)).reverse, hLength with
  | _ :: _ :: _ :: _ :: _, _ => exact ⟨_, rfl⟩

theorem FileStyle.not_label_of_mem_more {line : List Char} (h : line ∈ style.more) :
    begins "--- " line = false ∧ tellsBinary line = false := by
  have hMore := (style.saysMore line h).2
  simp only [Diff.saysMore, Bool.and_eq_true, Bool.not_eq_true'] at hMore
  exact ⟨hMore.1.2, hMore.2⟩

theorem FileStyle.takeWhile_body (style : FileStyle) (f : FileChange) :
    (style.body f).takeWhile (!begins "--- " ·) = style.more := by
  have hOld : begins "--- " (style.label "--- " "a/" f.basePath) = true := begins_append "--- " _
  rw [FileStyle.body, List.takeWhile_append_of_pos]
  · simp [hOld]
  · intro line hLine
    simp [(style.not_label_of_mem_more hLine).1]

theorem FileStyle.dropWhile_body (style : FileStyle) (f : FileChange) :
    (style.body f).dropWhile (!begins "--- " ·) =
      style.label "--- " "a/" f.basePath :: style.label "+++ " "b/" f.currentPath ::
        (style.hunks f).flatMap fun p => p.1 :: p.2 := by
  have hOld : begins "--- " (style.label "--- " "a/" f.basePath) = true := begins_append "--- " _
  rw [FileStyle.body, List.dropWhile_append_of_pos]
  · simp [hOld]
  · intro line hLine
    simp [(style.not_label_of_mem_more hLine).1]

/-- The tab at the end of a label does not belong to the path. -/
theorem FileStyle.isBlank_of_mem_tab (style : FileStyle) :
    ∀ c ∈ (if style.tabbed then ['\t'] else []), Category.isBlank c = true := by
  intro c hc
  split at hc
  · rw [List.mem_singleton.1 hc]
    decide
  · cases hc

theorem readSection_header {index : Nat} (hIndex : f.index = index) (h : RegularFile f) :
    readSection index (sectionHeader f) (style.body f) = .ok (some f) := by
  obtain ⟨paths, hPaths⟩ := pathsInHeader?_sectionHeader f
  have hText : style.more.any tellsBinary = false := by
    rw [List.any_eq_false]
    intro line hLine
    simp [(style.not_label_of_mem_more hLine).2]
  have hBase : labelled "a/" ((style.label "--- " "a/" f.basePath).drop 4) = f.basePath :=
    labelled_writtenPath (by decide) (by decide) (by decide) style.isBlank_of_mem_tab h.base
  have hCurrent : labelled "b/" ((style.label "+++ " "b/" f.currentPath).drop 4) =
      f.currentPath :=
    labelled_writtenPath (by decide) (by decide) (by decide) style.isBlank_of_mem_tab h.current
  have hNew : begins "+++ " (style.label "+++ " "b/" f.currentPath) = true :=
    begins_append "+++ " _
  have hHunks : (cutBefore beginsHunk (style.label "+++ " "b/" f.currentPath ::
      (style.hunks f).flatMap fun p => p.1 :: p.2)).2 = style.hunks f := by
    have hFront : ∀ line ∈ [style.label "+++ " "b/" f.currentPath], beginsHunk line = false :=
      List.forall_mem_singleton.2 (begins_of_head? rfl rfl (by decide))
    rw [← List.singleton_append, cutBefore_append hFront, cutBefore_flatMap beginsHunk_hunks]
  have hRead : readHunks 0 (style.hunks f) = .ok f.hunks :=
    readHunks_hunks style.hunk (by simpa [List.range_eq_range'] using h.numbered) h.hunks
  simp only [readSection, hPaths, style.takeWhile_body, style.dropWhile_body, hText, hBase, hNew,
    hCurrent, hHunks, hRead, ← hIndex]
  rfl

end File

theorem readSections_files (style : FileChange → FileStyle) {files : List FileChange} {index : Nat}
    (hIndex : files.map (·.index) = (List.range' index files.length).map (↑))
    (h : ∀ f ∈ files, RegularFile f) :
    readSections index (files.map fun f => (sectionHeader f, (style f).body f)) = .ok files := by
  induction files generalizing index with
  | nil => rfl
  | cons f files ih =>
      simp only [List.map_cons, List.length_cons, List.range'_succ, List.cons.injEq] at hIndex
      have hHead : readSection index (sectionHeader f) ((style f).body f) = .ok (some f) :=
        readSection_header hIndex.1 (h f (List.mem_cons_self ..))
      have hTail := ih hIndex.2 fun g hg => h g (List.mem_cons_of_mem _ hg)
      simp only [List.map_cons, readSections, hHead, hTail]
      rfl

section Whole

theorem whole_toDigits (n : Nat) : Whole (Nat.toDigits 10 n) := by
  intro c hc
  obtain ⟨hLow, hHigh⟩ :=
    Numeral.isDigit_range (Nat.isDigit_of_mem_toDigits (by decide) (by decide) hc)
  simp only [Category.isLineBoundary, Bool.or_eq_false_iff, Bool.and_eq_false_iff,
    decide_eq_false_iff_not]
  omega

theorem SideStyle.whole_range (style : SideStyle) (s : Side) : Whole (style.range s) := by
  apply (whole_toDigits _).append
  split
  · exact List.forall_mem_nil _
  · exact (whole_toDigits _).cons (by decide)

theorem SideStyle.whole_body {style : SideStyle} {mark : Char} {s : Side}
    (hMark : Category.isLineBoundary mark = false) (h : RegularSide s) :
    ∀ line ∈ style.body mark s, Whole line := by
  intro line hLine
  rw [SideStyle.body, List.mem_append, SideStyle.remarks] at hLine
  rcases hLine with hLine | hLine
  · simp only [List.map_map, List.mem_map] at hLine
    obtain ⟨l, hl, rfl⟩ := hLine
    exact (h.whole l hl).cons hMark
  · split at hLine
    · rw [List.mem_singleton.1 hLine]
      decide
    · cases hLine

theorem HunkStyle.whole_hunk {style : HunkStyle} {h : Hunk} (hRegular : RegularHunk h) :
    ∀ line ∈ style.header h :: style.body h, Whole line := by
  have hWord (word : String) (hWord : Whole word.toList) {rest : List Char} (hRest : Whole rest) :
      Whole (word.toList ++ rest) := hWord.append hRest
  intro line hLine
  rcases List.mem_cons.1 hLine with rfl | hLine
  · apply hWord "@@ -" (by decide)
    apply (style.base.whole_range h.base).append
    apply hWord " +" (by decide)
    apply (style.current.whole_range h.current).append
    exact hWord " @@" (by decide) style.whole
  · rcases List.mem_append.1 hLine with hLine | hLine
    · exact SideStyle.whole_body (by decide) hRegular.base line hLine
    · exact SideStyle.whole_body (by decide) hRegular.current line hLine

theorem whole_writtenPath {mark : String} {path : Option String} (hMark : Whole mark.toList)
    (h : ∀ p, path = some p → RegularPath p) : Whole (writtenPath mark path) := by
  cases path with
  | none =>
      show Whole "/dev/null".toList
      decide
  | some p => exact hMark.append (h p rfl).whole

theorem whole_sectionHeader {f : FileChange} (h : RegularFile f) : Whole (sectionHeader f) := by
  have hBase : ∀ p, (f.basePath.or f.currentPath) = some p → RegularPath p := by
    intro p hp
    rcases Option.or_eq_some_iff.1 hp with hp | ⟨_, hp⟩
    · exact h.base p hp
    · exact h.current p hp
  have hCurrent : ∀ p, (f.currentPath.or f.basePath) = some p → RegularPath p := by
    intro p hp
    rcases Option.or_eq_some_iff.1 hp with hp | ⟨_, hp⟩
    · exact h.current p hp
    · exact h.base p hp
  apply Whole.append (by decide)
  apply (whole_writtenPath (by decide) hBase).append
  exact (whole_writtenPath (by decide) hCurrent).cons (by decide)

theorem FileStyle.whole_label (style : FileStyle) {word mark : String} {path : Option String}
    (hWord : Whole word.toList) (hMark : Whole mark.toList)
    (h : ∀ p, path = some p → RegularPath p) : Whole (style.label word mark path) := by
  apply hWord.append
  apply (whole_writtenPath hMark h).append
  split <;> decide

theorem FileStyle.whole_body (style : FileStyle) {f : FileChange} (h : RegularFile f) :
    ∀ line ∈ style.body f, Whole line := by
  intro line hLine
  simp only [FileStyle.body, List.mem_append, List.mem_cons, List.mem_flatMap,
    FileStyle.hunks, List.mem_map] at hLine
  rcases hLine with hLine | rfl | rfl | ⟨_, ⟨hunk, hHunk, rfl⟩, hLine⟩
  · exact (style.saysMore line hLine).1
  · exact style.whole_label (by decide) (by decide) h.base
  · exact style.whole_label (by decide) (by decide) h.current
  · exact HunkStyle.whole_hunk (h.hunks hunk hHunk) line (List.mem_cons.2 hLine)

theorem whole_writtenLines (style : FileChange → FileStyle) {files : List FileChange}
    (h : ∀ f ∈ files, RegularFile f) : ∀ line ∈ writtenLines style files, Whole line := by
  intro line hLine
  simp only [writtenLines, List.mem_flatMap, List.mem_map] at hLine
  obtain ⟨_, ⟨f, hf, rfl⟩, hLine⟩ := hLine
  rcases List.mem_cons.1 hLine with rfl | hLine
  · exact whole_sectionHeader (h f hf)
  · exact (style f).whole_body (h f hf) line hLine

end Whole

/-- Once the lines of a written change are there, the change is read off them. -/
theorem readSections_writtenLines (style : FileChange → FileStyle) {files : List FileChange}
    (h : Regular files) :
    readSections 0 (cutBefore beginsSection (writtenLines style files)).2 = .ok files := by
  have hSections : ∀ p ∈ files.map (fun f => (sectionHeader f, (style f).body f)),
      beginsSection p.1 = true ∧ ∀ line ∈ p.2, beginsSection line = false := by
    intro p hp
    obtain ⟨f, _, rfl⟩ := List.mem_map.1 hp
    exact ⟨begins_append "diff --git " _, fun line => beginsSection_of_mem_body⟩
  rw [writtenLines, cutBefore_flatMap hSections]
  exact readSections_files style (by simpa [List.range_eq_range'] using h.numbered) h.file

/-- A change is read back from its text. It does not matter what the lines of the hunks look like,
nor in which style the text is. -/
theorem read_write (style : FileChange → FileStyle) {files : List FileChange}
    (h : Regular files) : read (write style files) = .ok files := by
  have hLines : Text.lines (write style files).toList = writtenLines style files := by
    rw [write, String.toList_ofList, Text.lines_flatMap (whole_writtenLines style h.file)]
  rw [read, hLines]
  exact readSections_writtenLines style h

/-- Lines that would be taken for something else, were it not for the marks in front of them. -/
def lookalikes : List FileChange := [
  { index := 0, currentPath := some "b/New file.java",
    hunks := [{
      index := 0, current := ⟨1, 3, ["++ b/A.java", "@@ -1 +1 @@", "diff --git a/A b/A"]⟩ }] },
  { index := 1, basePath := some "a/A.java", currentPath := some "/dev/null",
    hunks := [{ index := 0, base := ⟨2, 2, ["-- a/A.java"]⟩ },
      { index := 1, base := ⟨9, 9, ["\\ No newline at end of file"]⟩, current := ⟨8, 8, [""]⟩ }] }]

def lookalikeStyle (f : FileChange) : FileStyle where
  more := if f.index = 0 then ["new file mode 100644".toList] else ["rename from A.java".toList]
  saysMore := by split <;> decide
  tabbed := f.index = 0
  hunk h := { base := { behind := 7, short := true, remarked := true },
              current := { short := h.index = 1, remarked := true },
              heading := " class A @@ -1 +1 @@".toList }

theorem read_write_lookalikes :
    Regular lookalikes ∧ read (write lookalikeStyle lookalikes) = .ok lookalikes :=
  have hRegular : Regular lookalikes := by decide
  ⟨hRegular, read_write lookalikeStyle hRegular⟩

end ChangeSplit.Diff
