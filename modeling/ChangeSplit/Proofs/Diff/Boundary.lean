import ChangeSplit.Proofs.Diff.Reading
import ChangeSplit.Proofs.Diff.Writer
import ChangeSplit.Proofs.Java.Line

/-! Changes with any lines. Files are cut into lines at line feeds, but the text of a change is cut
at every boundary. A written change is read back exactly if no changed line holds a boundary, but
for a carriage return at its end, which is lost. -/

namespace ChangeSplit

/-- A side with each line put through a function. -/
def Side.mapLines (g : String → String) (s : Side) : Side := { s with lines := s.lines.map g }

def Hunk.mapLines (g : String → String) (h : Hunk) : Hunk :=
  { h with base := h.base.mapLines g, current := h.current.mapLines g }

def FileChange.mapLines (g : String → String) (f : FileChange) : FileChange :=
  { f with hunks := f.hunks.map (·.mapLines g) }

@[simp] theorem Hunk.index_mapLines (g : String → String) (h : Hunk) :
    (h.mapLines g).index = h.index := rfl

@[simp] theorem FileChange.index_mapLines (g : String → String) (f : FileChange) :
    (f.mapLines g).index = f.index := rfl

/-- The lines of all hunks of a change. -/
def changedLines (files : List FileChange) : List String :=
  files.flatMap fun f => f.hunks.flatMap fun h => h.base.lines ++ h.current.lines

/-- A line without a carriage return at its end. -/
def withoutReturn (line : String) : String := String.ofList (Text.withoutReturn line.toList)

/-- The lines of a side stand in a file at their numbers. -/
def Side.StandsIn (s : Side) (cs : List Char) : Prop :=
  ∀ i line, s.lines[i]? = some line →
    (Java.rows cs)[s.first.toNat - 1 + i]? = some line.toList

theorem toList_withoutReturn (line : String) :
    (withoutReturn line).toList = Text.withoutReturn line.toList :=
  String.toList_ofList

theorem mem_changedLines_mapLines {g : String → String} {files : List FileChange} {line : String}
    (h : line ∈ changedLines files) : g line ∈ changedLines (files.map (·.mapLines g)) := by
  simp only [changedLines, List.mem_flatMap, List.mem_map, List.mem_append] at h ⊢
  obtain ⟨f, hf, hunk, hHunk, hLine⟩ := h
  refine ⟨_, ⟨f, hf, rfl⟩, hunk.mapLines g, List.mem_map_of_mem hHunk, ?_⟩
  exact hLine.imp List.mem_map_of_mem List.mem_map_of_mem

namespace Diff

open Text (Whole)

section Recorded

/-! Lines that are recorded come from the lines of the text, and those hold no boundary. -/

theorem whole_of_mem_gather {own other : Char} {number : Nat} {body : List (List Char)}
    (hBody : ∀ l ∈ body, Whole l) {p : Nat × String} (h : p ∈ gather own other number body) :
    Whole p.2.toList := by
  induction body generalizing number with
  | nil => cases h
  | cons line body ih =>
      have hRest := fun l hl => hBody l (List.mem_cons_of_mem _ hl)
      unfold gather at h
      split at h
      · exact ih hRest h
      · split at h
        · rcases List.mem_cons.1 h with rfl | h
          · rw [String.toList_ofList]
            exact fun c hc => hBody line (List.mem_cons_self ..) c (List.mem_of_mem_drop hc)
          · exact ih hRest h
        · split at h
          · exact ih hRest h
          · exact ih hRest h

variable {index : Nat} {header : List Char} {body : List (List Char)}
  {pieces : List (List Char × List (List Char))}

theorem GivesHunks.whole {hunks : List Hunk} (h : GivesHunks index pieces hunks)
    (hPieces : ∀ p ∈ pieces, ∀ l ∈ p.2, Whole l) :
    ∀ h ∈ hunks, ∀ line ∈ h.base.lines ++ h.current.lines, Whole line.toList := by
  induction h with
  | nil => exact List.forall_mem_nil _
  | cons _ _ ih =>
      obtain ⟨hBody, hRest⟩ := List.forall_mem_cons.1 hPieces
      refine List.forall_mem_cons.2 ⟨fun line hLine => ?_, ih hRest⟩
      simp only [sideOf, List.mem_append, List.mem_map] at hLine
      rcases hLine with ⟨p, hp, rfl⟩ | ⟨p, hp, rfl⟩
      · exact whole_of_mem_gather hBody hp
      · exact whole_of_mem_gather hBody hp

theorem GivesFile.whole {f : FileChange} (h : GivesFile index header body (some f))
    (hWhole : ∀ l ∈ body, Whole l) :
    ∀ h ∈ f.hunks, ∀ line ∈ h.base.lines ++ h.current.lines, Whole line.toList := by
  cases h with
  | unlabelled | binary => exact List.forall_mem_nil _
  | text _ hBody _ _ _ _ hHunks =>
      refine hHunks.whole fun p hp l hl => hWhole l ?_
      rw [hBody]
      have hRest := (cut_cutBefore _ _).mem hp l (List.mem_cons_of_mem _ hl)
      exact List.mem_append_right _ (List.mem_cons_of_mem _ hRest)

theorem GivesFiles.whole {files : List FileChange} (h : GivesFiles index pieces files)
    (hPieces : ∀ p ∈ pieces, ∀ l ∈ p.2, Whole l) :
    ∀ line ∈ changedLines files, Whole line.toList := by
  induction h with
  | nil => exact List.forall_mem_nil _
  | skip _ _ ih => exact ih (List.forall_mem_cons.1 hPieces).2
  | file hHead _ ih =>
      obtain ⟨hBody, hRest⟩ := List.forall_mem_cons.1 hPieces
      rw [changedLines, List.flatMap_cons, List.forall_mem_append]
      refine ⟨fun line hLine => ?_, ih hRest⟩
      obtain ⟨hunk, hHunk, hLine⟩ := List.mem_flatMap.1 hLine
      exact hHead.whole hBody hunk hHunk line hLine

/-- No line that is recorded holds a boundary, whatever the text was. -/
theorem whole_of_read {text : String} {files : List FileChange} (hRead : read text = .ok files) :
    ∀ line ∈ changedLines files, Whole line.toList := by
  refine (givesFiles_of_readSections hRead).whole fun p hp l hl => ?_
  exact Text.whole_of_mem_lines ((cut_cutBefore _ _).mem hp l (List.mem_cons_of_mem _ hl))

end Recorded

section Written

/-! A written change with its lines put through a function is again a written change, in the styles
that the files and hunks had before. -/

variable {g : String → String}

/-- Among things told apart by their indexes, each is the first with its own. -/
theorem find?_index {α : Type} {idx : α → Int} {l : List α} (h : (l.map idx).Nodup) {a : α}
    (ha : a ∈ l) : l.find? (fun b => idx b = idx a) = some a := by
  induction l with
  | nil => cases ha
  | cons b l ih =>
      obtain ⟨hNotMem, hNodup⟩ := List.nodup_cons.1 h
      rcases List.mem_cons.1 ha with rfl | ha
      · simp
      · have hNe : idx b ≠ idx a := fun hEq => hNotMem (hEq ▸ List.mem_map_of_mem ha)
        rw [List.find?_cons_of_neg (by simpa using hNe), ih hNodup ha]

/-- The style of the hunk that has the place of the given one. -/
def FileStyle.through (style : FileStyle) (f : FileChange) : FileStyle :=
  { style with hunk := fun h => style.hunk ((f.hunks.find? (·.index = h.index)).getD h) }

/-- The style of the file that has the place of the given one. -/
def through (style : FileChange → FileStyle) (files : List FileChange) (f : FileChange) :
    FileStyle :=
  let f := (files.find? (·.index = f.index)).getD f
  (style f).through f

theorem HunkStyle.header_mapLines (style : HunkStyle) (h : Hunk) :
    style.header (h.mapLines g) = style.header h := by
  simp [HunkStyle.header, Hunk.mapLines, Side.mapLines, SideStyle.range, SideStyle.start]

theorem SideStyle.body_mapLines (style : SideStyle) {mark : Char} (hMark : mark ≠ '\r')
    (s : Side) : style.body mark (s.mapLines withoutReturn) =
      (style.body mark s).map Text.withoutReturn := by
  have hRemarks : style.remarks.map Text.withoutReturn = style.remarks := by
    unfold SideStyle.remarks
    split <;> rfl
  rw [SideStyle.body, SideStyle.body, List.map_append, hRemarks]
  simp [Side.mapLines, toList_withoutReturn, Text.withoutReturn_cons hMark]

theorem HunkStyle.body_mapLines (style : HunkStyle) (h : Hunk) :
    style.body (h.mapLines withoutReturn) = (style.body h).map Text.withoutReturn := by
  rw [HunkStyle.body, HunkStyle.body, List.map_append]
  exact congrArg₂ (· ++ ·) (style.base.body_mapLines (by decide) h.base)
    (style.current.body_mapLines (by decide) h.current)

theorem HunkStyle.withoutReturn_header (style : HunkStyle) {h : Hunk}
    (hFrame : RegularHunk (h.mapLines fun _ => "")) :
    Text.withoutReturn (style.header h) = style.header h := by
  rw [← style.header_mapLines (g := fun _ => "")]
  exact (HunkStyle.whole_hunk hFrame _ (List.mem_cons_self ..)).withoutReturn_eq

theorem FileStyle.hunks_mapLines (style : FileStyle) {f : FileChange}
    (hFrame : RegularFile (f.mapLines fun _ => "")) :
    ((style.through f).hunks (f.mapLines withoutReturn)).flatMap (fun p => p.1 :: p.2) =
      ((style.hunks f).flatMap fun p => p.1 :: p.2).map Text.withoutReturn := by
  have hNodup : (f.hunks.map (·.index)).Nodup := by
    have hMapped := nodup_of_numbered hFrame.numbered
    rwa [FileChange.mapLines, List.map_map] at hMapped
  simp only [FileStyle.hunks, FileChange.mapLines, List.map_map, List.flatMap_map, List.map_flatMap]
  refine List.flatMap_congr fun h hh => ?_
  have hStyle : (style.through f).hunk (h.mapLines withoutReturn) = style.hunk h := by
    change style.hunk ((f.hunks.find? (·.index = h.index)).getD _) = _
    rw [find?_index hNodup hh, Option.getD_some]
  have hHunk : RegularHunk (h.mapLines fun _ => "") := hFrame.hunks _ (List.mem_map_of_mem hh)
  simp only [Function.comp_apply, hStyle, HunkStyle.header_mapLines, HunkStyle.body_mapLines,
    List.map_cons, HunkStyle.withoutReturn_header _ hHunk]

theorem FileStyle.body_mapLines (style : FileStyle) {f : FileChange}
    (hFrame : RegularFile (f.mapLines fun _ => "")) :
    (style.through f).body (f.mapLines withoutReturn) =
      (style.body f).map Text.withoutReturn := by
  have hMore : style.more.map Text.withoutReturn = style.more :=
    (List.map_congr_left fun line hLine =>
      (style.saysMore line hLine).1.withoutReturn_eq).trans (List.map_id _)
  have hBase : Text.withoutReturn (style.label "--- " "a/" f.basePath) =
      style.label "--- " "a/" f.basePath :=
    (style.whole_label (by decide) (by decide) hFrame.base).withoutReturn_eq
  have hCurrent : Text.withoutReturn (style.label "+++ " "b/" f.currentPath) =
      style.label "+++ " "b/" f.currentPath :=
    (style.whole_label (by decide) (by decide) hFrame.current).withoutReturn_eq
  rw [FileStyle.body, FileStyle.body, style.hunks_mapLines hFrame, List.map_append, hMore,
    List.map_cons, List.map_cons, hBase, hCurrent]
  rfl

theorem writtenLines_mapLines (style : FileChange → FileStyle) {files : List FileChange}
    (hFrame : Regular (files.map (·.mapLines fun _ => ""))) :
    writtenLines (through style files) (files.map (·.mapLines withoutReturn)) =
      (writtenLines style files).map Text.withoutReturn := by
  have hNodup : (files.map (·.index)).Nodup := by
    have hMapped := nodup_of_numbered hFrame.numbered
    rwa [List.map_map] at hMapped
  simp only [writtenLines, List.map_map, List.flatMap_map, List.map_flatMap]
  refine List.flatMap_congr fun f hf => ?_
  have hStyle : through style files (f.mapLines withoutReturn) = (style f).through f := by
    change (style ((files.find? (·.index = f.index)).getD _)).through
      ((files.find? (·.index = f.index)).getD _) = _
    rw [find?_index hNodup hf, Option.getD_some]
  have hFile : RegularFile (f.mapLines fun _ => "") := hFrame.file _ (List.mem_map_of_mem hf)
  have hHeader : Text.withoutReturn (sectionHeader f) = sectionHeader f :=
    (whole_sectionHeader hFile).withoutReturn_eq
  simp only [Function.comp_apply, hStyle, FileStyle.body_mapLines _ hFile, List.map_cons, hHeader]
  rfl

theorem regularSide_mapLines {s : Side} (hFrame : RegularSide (s.mapLines fun _ => ""))
    (hWhole : ∀ line ∈ s.lines, Whole (g line).toList) : RegularSide (s.mapLines g) where
  whole := by simpa [Side.mapLines] using hWhole
  vacant := by simpa [Side.mapLines] using hFrame.vacant
  numbered := by simpa [Side.mapLines] using hFrame.numbered

/-- Only the lines themselves can make a change irregular whose frame is regular. -/
theorem regular_mapLines {files : List FileChange}
    (hFrame : Regular (files.map (·.mapLines fun _ => "")))
    (hWhole : ∀ line ∈ changedLines files, Whole (g line).toList) :
    Regular (files.map (·.mapLines g)) := by
  refine ⟨List.forall_mem_map.2 fun f hf => ?_, by
    simpa [List.map_map, Function.comp_def] using hFrame.numbered⟩
  have hFile : RegularFile (f.mapLines fun _ => "") := hFrame.file _ (List.mem_map_of_mem hf)
  refine ⟨hFile.base, hFile.current, List.forall_mem_map.2 fun h hh => ?_, by
    simpa [FileChange.mapLines, List.map_map, Function.comp_def] using hFile.numbered⟩
  have hHunk : RegularHunk (h.mapLines fun _ => "") := hFile.hunks _ (List.mem_map_of_mem hh)
  have hLines : ∀ line ∈ h.base.lines ++ h.current.lines, line ∈ changedLines files :=
    fun line hLine => List.mem_flatMap.2 ⟨f, hf, List.mem_flatMap.2 ⟨h, hh, hLine⟩⟩
  exact ⟨regularSide_mapLines hHunk.base fun line hLine =>
      hWhole line (hLines line (List.mem_append_left _ hLine)),
    regularSide_mapLines hHunk.current fun line hLine =>
      hWhole line (hLines line (List.mem_append_right _ hLine))⟩

end Written

/-- A written change is read back, but for carriage returns at the end of changed lines, if no
changed line holds any other boundary. -/
theorem read_write_withoutReturn (style : FileChange → FileStyle) {files : List FileChange}
    (hFrame : Regular (files.map (·.mapLines fun _ => "")))
    (hWhole : ∀ line ∈ changedLines files, Whole (withoutReturn line).toList) :
    read (write style files) = .ok (files.map (·.mapLines withoutReturn)) := by
  have hRegular := regular_mapLines hFrame hWhole
  have hLines : Text.lines (write style files).toList =
      writtenLines (through style files) (files.map (·.mapLines withoutReturn)) := by
    rw [writtenLines_mapLines style hFrame, write, String.toList_ofList]
    refine Text.lines_flatMap_returns fun line hLine => ?_
    refine whole_writtenLines (through style files) hRegular.file _ ?_
    rw [writtenLines_mapLines style hFrame]
    exact List.mem_map_of_mem hLine
  rw [read, hLines]
  exact readSections_writtenLines _ hRegular

/-- The hunks of a written change come back with all their lines and numbers, but for carriage
returns at the end of lines, exactly if no changed line holds any other boundary. Their numbers are
then right in a source too: a line that stands at its number in the source begins where the table
of line starts has it. -/
theorem read_write_eq_iff (style : FileChange → FileStyle) {files : List FileChange}
    (hFrame : Regular (files.map (·.mapLines fun _ => ""))) :
    (read (write style files) = .ok (files.map (·.mapLines withoutReturn)) ↔
      ∀ line ∈ changedLines files, Whole (withoutReturn line).toList) ∧
    ∀ f ∈ files, ∀ h ∈ f.hunks, ∀ r source cs, Utf8.decode source = .ok cs →
      (h.side r).StandsIn cs → ∀ i line, (h.side r).lines[i]? = some line →
        ∃ start rest,
          (Java.startsOfLines source)[(h.side r).first.toNat - 1 + i]? = some start ∧
          Utf8.decode (source.drop start) = .ok (line.toList ++ rest) ∧
          (rest = [] ∨ rest.head? = some '\n') := by
  refine ⟨⟨fun hRead line hLine => ?_, read_write_withoutReturn style hFrame⟩, ?_⟩
  · exact whole_of_read hRead _ (mem_changedLines_mapLines hLine)
  · intro f _ h _ r source cs hDecode hStands i line hLine
    exact Java.decode_drop_start hDecode (hStands i line hLine)

/-- A change of two lines, of which the first was another one before. -/
def twoLines (before : String) : List FileChange := [
  { index := 0, basePath := some "A.java", currentPath := some "A.java"
    hunks := [{ index := 0, base := ⟨1, 2, [before, "b"]⟩, current := ⟨1, 2, ["a", "c"]⟩ }] }]

/-- A carriage return at the end of a line does no harm. A form feed in it makes the rest of it a
line of context, which moves the line below and the other side. -/
theorem read_write_eq_iff_twoLines :
    read (write (fun _ => {}) (twoLines "a\r")) = .ok (twoLines "a") ∧
      read (write (fun _ => {}) (twoLines "a\x0cz")) ≠ .ok (twoLines "a\x0cz") ∧
      read (write (fun _ => {}) (twoLines "a\x0cz")) = .ok [
        { index := 0, basePath := some "A.java", currentPath := some "A.java"
          hunks := [{ index := 0, base := ⟨1, 3, ["a", "b"]⟩
                      current := ⟨2, 3, ["a", "c"]⟩ }] }] := by
  have hReturn := (@read_write_eq_iff (fun _ => {}) (twoLines "a\r") (by decide)).1
  have hFeed := (@read_write_eq_iff (fun _ => {}) (twoLines "a\x0cz") (by decide)).1
  refine ⟨hReturn.2 (by decide), fun hRead => ?_, by decide +kernel⟩
  exact absurd (hFeed.1 hRead) (by decide)

end Diff

end ChangeSplit
