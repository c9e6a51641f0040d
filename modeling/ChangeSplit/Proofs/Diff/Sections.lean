import ChangeSplit.Proofs.Diff.Reader
import ChangeSplit.Proofs.Text.Lines

/-! The sections of a change are read one by one. Where a section ends the reader forgets all but
how many files it has read, whatever state the section left it in: without its labels, within the
remarks, within a hunk or within content that is not text. Two texts put one after the other are
thus read like each of them alone, if a section begins with the second. -/

namespace ChangeSplit

/-- The change of a file, some places further on. -/
def FileChange.later (count : Nat) (f : FileChange) : FileChange :=
  { f with index := f.index + count }

namespace Diff

theorem cutBefore_append_cons {test : List Char → Bool} {line : List Char} (h : test line = true)
    (front rest : List (List Char)) :
    cutBefore test (front ++ line :: rest) =
      ((cutBefore test front).1,
        (cutBefore test front).2 ++ (cutBefore test (line :: rest)).2) := by
  induction front with
  | nil => simp [cutBefore, h]
  | cons l front ih =>
      rw [List.cons_append, cutBefore, ih]
      cases hl : test l <;> simp [cutBefore, hl]

/-- The number of a section is written down and plays no other part. -/
theorem readSection_later (index count : Nat) (header : List Char) (body : List (List Char)) :
    readSection (index + count) header body =
      (readSection index header body).map (Option.map (.later count)) := by
  unfold readSection
  split
  case h_1 => rfl
  case h_2 paths hPaths =>
    extract_lets isLabel remarks paths
    split
    case h_1 => simp [Except.map, FileChange.later]
    case h_2 old rest hDrop =>
      split
      case isTrue => simp [Except.map, FileChange.later]
      case isFalse =>
        extract_lets base current
        split <;> simp [Except.map, FileChange.later]

theorem readSections_later (index count : Nat) (pieces : List (List Char × List (List Char))) :
    readSections (index + count) pieces =
      (readSections index pieces).map (List.map (.later count)) := by
  induction pieces generalizing index with
  | nil => rfl
  | cons piece pieces ih =>
      obtain ⟨header, body⟩ := piece
      rw [readSections, readSections, readSection_later]
      cases readSection index header body with
      | error e => rfl
      | ok found =>
          cases found with
          | none => exact ih index
          | some f =>
              have hNext : index + count + 1 = index + 1 + count := by omega
              simp only [Except.map, Option.map_some, hNext, ih (index + 1)]
              cases readSections (index + 1) pieces <;> rfl

/-- The sections behind some others are numbered on from the files in those, which are fewer than
the sections if some sections are passed over. -/
theorem readSections_append (index : Nat) (pieces more : List (List Char × List (List Char))) :
    readSections index (pieces ++ more) = do
      let files ← readSections index pieces
      let others ← readSections (index + files.length) more
      return files ++ others := by
  induction pieces generalizing index with
  | nil =>
      show readSections index more = (readSections index more).map ([] ++ ·)
      cases readSections index more <;> rfl
  | cons piece pieces ih =>
      obtain ⟨header, body⟩ := piece
      rw [List.cons_append, readSections, readSections]
      cases readSection index header body with
      | error e => rfl
      | ok found =>
          cases found with
          | none => exact ih index
          | some f =>
              simp only [ih (index + 1)]
              cases readSections (index + 1) pieces with
              | error e => rfl
              | ok files =>
                  have hNext : index + 1 + files.length = index + (f :: files).length := by
                    simp only [List.length_cons]
                    omega
                  simp only [Except.map, bind, Except.bind, hNext]
                  cases readSections (index + (f :: files).length) more <;> rfl

/-- A text that begins with a section is cut off from whatever stands in front of it. -/
theorem cutBefore_lines_append {front back : String}
    (hFront : front = "" ∨ front.toList.getLast? = some '\n')
    (hBack : "diff --git ".toList <+: back.toList) :
    (cutBefore beginsSection (Text.lines (front ++ back).toList)).2 =
      (cutBefore beginsSection (Text.lines front.toList)).2 ++
        (cutBefore beginsSection (Text.lines back.toList)).2 := by
  rw [String.toList_append]
  rcases hFront with rfl | hFront
  · rfl
  · obtain ⟨rest, hRest⟩ := hBack
    have hWord : Text.Whole "diff --git ".toList := by decide
    obtain ⟨line, more, hLines⟩ := Text.exists_lines_append hWord (by decide) rest
    have hSection : beginsSection ("diff --git ".toList ++ line) = true := begins_append _ line
    rw [Text.lines_append_of_getLast? hFront, ← hRest, hLines, cutBefore_append_cons hSection]

/-- Two texts put one after the other, where the first ends its last line and the second begins
with a section, are read as each of them alone: a fault of the first comes before one of the
second, and the files of the second are numbered on from those of the first. -/
theorem read_append {front back : String}
    (hFront : front = "" ∨ front.toList.getLast? = some '\n')
    (hBack : "diff --git ".toList <+: back.toList) :
    read (front ++ back) = do
      let files ← read front
      let others ← read back
      return files ++ others.map (.later files.length) := by
  rw [read, cutBefore_lines_append hFront hBack, readSections_append]
  unfold read
  cases readSections 0 (cutBefore beginsSection (Text.lines front.toList)).2 with
  | error e => rfl
  | ok files =>
      simp only [bind, Except.bind, readSections_later]
      cases readSections 0 (cutBefore beginsSection (Text.lines back.toList)).2 <;> rfl

/-- Lines in front of the sections, a section whose first line names no paths, one of content that
is not text and one that breaks off within a hunk. -/
def tornSections : String :=
  "From\ndiff --git a\n@@\ndiff --git a b\nBinary files \n--- a\n@@\n" ++
    "diff --git c c\n--- c\n@@ -1,2 +1 @@\n-c\n"

def renamedSection : String := "diff --git d e\nrename from d\n"

theorem read_append_tornSections :
    (tornSections = "" ∨ tornSections.toList.getLast? = some '\n') ∧
      "diff --git ".toList <+: renamedSection.toList ∧
      read (tornSections ++ renamedSection) = .ok [
        { index := 0, basePath := some "a", currentPath := some "b" },
        { index := 1, basePath := some "c", currentPath := some "c",
          hunks := [{ index := 0, base := ⟨1, 1, ["c"]⟩ }] },
        { index := 2, basePath := some "d", currentPath := some "e" }] := by
  have hFront : tornSections = "" ∨ tornSections.toList.getLast? = some '\n' := by decide +kernel
  have hBack : "diff --git ".toList <+: renamedSection.toList := by decide +kernel
  refine ⟨hFront, hBack, ?_⟩
  rw [read_append hFront hBack]
  decide +kernel

end Diff

end ChangeSplit
