import ChangeSplit.Proofs.Java.Line
import Mathlib.Data.List.DropRight

/-! The bytes of a range of lines. They go from the first byte of the first line to the end of the
last, without the line feeds and carriage returns that stand there, however many lines those end.
So the bytes of a wider range are never fewer, as long as the range begins with a line. -/

namespace ChangeSplit.Java

/-- The lines of some bytes, each with the newline that ends it. A newline at the very end begins no
further line, and no bytes at all are one line. -/
inductive LinesOf : List UInt8 → List (List UInt8) → Prop where
  | last {line : List UInt8} (hLine : 0x0A ∉ line.dropLast) : LinesOf line [line]
  | more {line rest : List UInt8} {lines : List (List UInt8)} (hLine : 0x0A ∉ line)
      (hRest : rest ≠ []) (later : LinesOf rest lines) :
      LinesOf (line ++ 0x0A :: rest) ((line ++ [0x0A]) :: lines)

/-- Whatever the bytes are, they have lines. -/
theorem exists_linesOf (source : List UInt8) : ∃ lines, LinesOf source lines := by
  by_cases hNewline : 0x0A ∈ source.dropLast
  · obtain ⟨line, front, hFront, hLine⟩ := List.eq_append_cons_of_mem hNewline
    have hNil : source ≠ [] := by
      rintro rfl
      cases hNewline
    have hSource : source = line ++ 0x0A :: (front ++ [source.getLast hNil]) := by
      conv_lhs => rw [← List.dropLast_append_getLast hNil, hFront]
      simp
    obtain ⟨lines, later⟩ := exists_linesOf (front ++ [source.getLast hNil])
    rw [hSource]
    exact ⟨_, .more hLine (by simp) later⟩
  · exact ⟨_, .last hNewline⟩
termination_by source.length
decreasing_by
  have hLength := congrArg List.length hSource
  simp only [List.length_append, List.length_cons] at hLength ⊢
  omega

/-- The byte at which the line after the first `k` begins. -/
def lineOffset (lines : List (List UInt8)) (k : Nat) : Nat := (lines.take k).flatten.length

/-- The bytes of the lines after the first `k` up to line `final`. -/
def stretch (lines : List (List UInt8)) (k final : Nat) : List UInt8 :=
  ((lines.drop k).take (final - k)).flatten

section Stretch

variable {k m n : Nat}

theorem stretch_append (lines : List (List UInt8)) (hkm : k ≤ m) (hmn : m ≤ n) :
    stretch lines k n = stretch lines k m ++ stretch lines m n := by
  have hLength : n - k = (m - k) + (n - m) := by omega
  rw [stretch, hLength, List.take_add, List.flatten_append, List.drop_drop,
    Nat.add_sub_cancel' hkm]
  rfl

theorem lineOffset_add_length (lines : List (List UInt8)) (hkm : k ≤ m) :
    lineOffset lines k + (stretch lines k m).length = lineOffset lines m := by
  rw [lineOffset, lineOffset, ← Nat.add_sub_cancel' hkm, List.take_add, List.flatten_append,
    List.length_append, Nat.add_sub_cancel' hkm]
  rfl

end Stretch

namespace LinesOf

variable {source : List UInt8} {lines lines' : List (List UInt8)} {k final : Nat}

theorem flatten_eq (h : LinesOf source lines) : lines.flatten = source := by
  induction h with
  | last => simp
  | more hLine hRest later ih => simp [ih]

theorem takeWhile_append_newline {line : List UInt8} (hLine : 0x0A ∉ line) (rest : List UInt8) :
    (line ++ 0x0A :: rest).takeWhile (· ≠ 0x0A) = line := by
  have hPlain : ∀ b ∈ line, decide (b ≠ 0x0A) = true := by
    rintro b hb
    have hNe : b ≠ 0x0A := fun hEq => hLine (hEq ▸ hb)
    simp [hNe]
  rw [List.takeWhile_append_of_pos hPlain]
  simp

/-- The first newline that is not the very last byte ends the first line, so there is one way only
to cut bytes into lines. -/
theorem unique (h : LinesOf source lines) (h' : LinesOf source lines') : lines' = lines := by
  have hInside {line rest : List UInt8} (hRest : rest ≠ []) :
      0x0A ∈ (line ++ 0x0A :: rest).dropLast := by
    rw [List.dropLast_append_of_ne_nil (by simp), List.dropLast_cons_of_ne_nil hRest]
    simp
  induction h generalizing lines' with
  | last hLine =>
      cases h' with
      | last => rfl
      | more _ hRest => exact absurd (hInside hRest) hLine
  | @more line rest _ hLine hRest later ih =>
      generalize hSource : line ++ 0x0A :: rest = bytes at h'
      cases h' with
      | last hLine' =>
          rw [← hSource] at hLine'
          exact absurd (hInside hRest) hLine'
      | more hLine' hRest' later' =>
          have hSame := takeWhile_append_newline hLine rest
          rw [hSource, takeWhile_append_newline hLine'] at hSame
          subst hSame
          obtain ⟨_, rfl⟩ := List.cons.inj (List.append_cancel_left hSource)
          rw [ih later']

/-- The table of line starts has the first byte of each line. -/
theorem starts_eq (h : LinesOf source lines) (offset : Nat) :
    offset :: lineStartsFrom offset source =
      (List.range lines.length).map fun k => offset + lineOffset lines k := by
  induction h generalizing offset with
  | @last line hLine =>
      have hNone : lineStartsFrom offset line = [] := by
        rcases line.eq_nil_or_concat' with rfl | ⟨front, b, rfl⟩
        · rfl
        · rw [List.dropLast_concat] at hLine
          rw [lineStartsFrom_append hLine (by simp)]
          rfl
      simp [hNone, lineOffset]
  | @more line rest lines hLine hRest later ih =>
      rw [lineStartsFrom_append hLine (by simp), lineStartsFrom_newline hRest, ih,
        List.length_cons, List.range_succ_eq_map, List.map_cons, List.map_map]
      congr 1
      apply List.map_congr_left
      intro k _
      simp only [Function.comp_apply, lineOffset, List.take_succ_cons, List.flatten_cons,
        List.length_append, List.length_singleton]
      omega

theorem length_startsOfLines (h : LinesOf source lines) :
    (startsOfLines source).length = lines.length := by
  rw [startsOfLines, h.starts_eq, List.length_map, List.length_range]

theorem getD_startsOfLines (h : LinesOf source lines) (hk : k < lines.length) :
    (startsOfLines source).getD k 0 = lineOffset lines k := by
  rw [startsOfLines, h.starts_eq]
  simp [List.getD_eq_getElem?_getD, hk]

/-- Every line but the last ends with a newline. -/
theorem exists_eq_concat (h : LinesOf source lines) (hk : k + 1 < lines.length) :
    ∃ line, lines[k]? = some (line ++ [0x0A]) := by
  induction h generalizing k with
  | last => simp at hk
  | @more line rest lines hLine hRest later ih =>
      cases k with
      | zero => exact ⟨line, rfl⟩
      | succ k => exact ih (Nat.lt_of_succ_lt_succ hk)

theorem lineOffset_length (h : LinesOf source lines) :
    lineOffset lines lines.length = source.length := by
  rw [lineOffset, List.take_length, h.flatten_eq]

theorem drop_lineOffset (h : LinesOf source lines) (hk : k ≤ final) :
    source.drop (lineOffset lines k) = stretch lines k final ++ (lines.drop final).flatten := by
  have hSource : source = (lines.take k).flatten ++ (lines.drop k).flatten := by
    rw [← List.flatten_append, List.take_append_drop, h.flatten_eq]
  have hRest : lines.drop k = (lines.drop k).take (final - k) ++ lines.drop final := by
    conv_lhs => rw [← List.take_append_drop (final - k) (lines.drop k), List.drop_drop,
      Nat.add_sub_cancel' hk]
  conv_lhs => rw [hSource, lineOffset, List.drop_left, hRest, List.flatten_append]
  rfl

/-- The newline behind a range of lines belongs to its last line, if another line follows. -/
theorem exists_stretch_eq (h : LinesOf source lines) (hk : k < final)
    (hFinal : final < lines.length) : ∃ front, stretch lines k final = front ++ [0x0A] := by
  obtain ⟨before, rfl⟩ : ∃ before, final = before + 1 := ⟨final - 1, by omega⟩
  obtain ⟨line, hLine⟩ := h.exists_eq_concat hFinal
  have hLast : stretch lines before (before + 1) = line ++ [0x0A] := by
    obtain ⟨hBefore, hEq⟩ := List.getElem?_eq_some_iff.1 hLine
    rw [stretch, Nat.add_sub_cancel_left, List.drop_eq_getElem_cons hBefore, hEq]
    simp
  rw [stretch_append lines (Nat.le_of_lt_succ hk) (Nat.le_succ before), hLast, ← List.append_assoc]
  exact ⟨_, rfl⟩

/-- What is cut off at the end of a range are its line ends, whether or not the newline that ends
the last line was left out before. -/
theorem lineSpan_eq (h : LinesOf source lines) {first last : Int} (hFirst : 1 ≤ first)
    (hLast : first ≤ lines.length) :
    lineSpan source first last =
      (lineOffset lines (first.toNat - 1), lineOffset lines (first.toNat - 1) +
        ((stretch lines (first.toNat - 1) (min (max last first).toNat lines.length)).rdropWhile
          isLineEnd).length) := by
  have hIn : ¬ (decide (first < 1) || decide (first > lines.length)) = true := by
    simp only [Bool.or_eq_true, decide_eq_true_eq]
    omega
  have hk : first.toNat - 1 < min (max last first).toNat lines.length := by omega
  have hFinal : min (max last first).toNat lines.length ≤ lines.length := Nat.min_le_right _ _
  unfold lineSpan
  simp only [h.length_startsOfLines]
  rw [if_neg hIn]
  generalize first.toNat - 1 = k at hk ⊢
  generalize min (max last first).toNat lines.length = final at hk hFinal ⊢
  rw [h.getD_startsOfLines (hk.trans_le hFinal)]
  have hLength := lineOffset_add_length lines hk.le
  congr 2
  split
  case isTrue hLt =>
    obtain ⟨front, hFront⟩ := h.exists_stretch_eq hk hLt
    have hFrontLength : lineOffset lines final - 1 - lineOffset lines k = front.length := by
      rw [hFront, List.length_append, List.length_singleton] at hLength
      omega
    rw [h.getD_startsOfLines hLt, h.drop_lineOffset hk.le, hFrontLength, hFront,
      List.append_assoc, List.take_left, List.rdropWhile_concat_pos _ _ _ (by decide),
      List.rdropWhile, List.length_reverse]
  case isFalse hNot =>
    obtain rfl : final = lines.length := by omega
    rw [h.drop_lineOffset hk.le, List.drop_length, List.flatten_nil, List.append_nil,
      List.take_of_length_le, List.rdropWhile, List.length_reverse]
    rw [h.lineOffset_length] at hLength
    omega

end LinesOf

/-- Whether some bytes of a source are its lines from one to another, counted from one, but for the
line feeds and carriage returns at the end of them. -/
structure Spans (source : List UInt8) (lines : List (List UInt8)) (first last : Nat)
    (span : Nat × Nat) : Prop where
  start : span.1 = lineOffset lines (first - 1)
  ordered : span.1 ≤ span.2
  inside : span.2 ≤ source.length
  text : ∃ ends, stretch lines (first - 1) last =
    (source.drop span.1).take (span.2 - span.1) ++ ends ∧ ∀ b ∈ ends, b = 0x0A ∨ b = 0x0D
  bare : ∀ b, ((source.drop span.1).take (span.2 - span.1)).getLast? = some b →
    b ≠ 0x0A ∧ b ≠ 0x0D

theorem isLineEnd_iff {b : UInt8} : isLineEnd b = true ↔ b = 0x0A ∨ b = 0x0D := by
  simp [isLineEnd]

/-- What does not pass the test stays, with all in front of it, when elements that pass it are taken
away from the end. -/
theorem prefix_rdropWhile {α : Type} {test : α → Bool} {b : α} (hb : ¬ test b = true)
    (front rest : List α) : front ++ [b] <+: (front ++ [b] ++ rest).rdropWhile test := by
  induction rest using List.reverseRecOn with
  | nil => simp [List.rdropWhile_concat_neg _ _ _ hb]
  | append_singleton rest c ih =>
      rw [← List.append_assoc, List.rdropWhile_concat]
      split
      · exact ih
      · exact (List.prefix_append _ _).trans (List.prefix_append _ _)

theorem not_of_rdropWhile_eq {α : Type} {test : α → Bool} {l front : List α} {b : α}
    (h : l.rdropWhile test = front ++ [b]) : ¬ test b = true := by
  have hLast := List.rdropWhile_last_not test l (by simp [h])
  rwa [List.getLast_congr _ (by simp) h, List.getLast_append_singleton] at hLast

namespace LinesOf

variable {source : List UInt8} {lines : List (List UInt8)}

theorem spans_lineSpan (h : LinesOf source lines) {first last : Int} (hFirst : 1 ≤ first)
    (hLast : first ≤ lines.length) :
    Spans source lines first.toNat (min (max first last) lines.length).toNat
      (lineSpan source first last) := by
  obtain ⟨k, hNat⟩ : ∃ k, first.toNat = k + 1 := ⟨first.toNat - 1, by omega⟩
  have hFinal : (min (max first last) lines.length).toNat =
      min (max last first).toNat lines.length := by omega
  have hk : k ≤ min (max last first).toNat lines.length := by omega
  rw [h.lineSpan_eq hFirst hLast, hFinal, hNat, Nat.add_sub_cancel]
  have hAll : min (max last first).toNat lines.length ≤ lines.length := Nat.min_le_right _ _
  generalize min (max last first).toNat lines.length = final at hk hAll ⊢
  have hKept := List.rdropWhile_prefix isLineEnd (stretch lines k final)
  have hText : (source.drop (lineOffset lines k)).take
      ((stretch lines k final).rdropWhile isLineEnd).length =
        (stretch lines k final).rdropWhile isLineEnd := by
    rw [h.drop_lineOffset hk]
    exact (List.prefix_iff_eq_take.1 (hKept.trans (List.prefix_append _ _))).symm
  refine ⟨rfl, Nat.le_add_right _ _, ?_, ?_, ?_⟩
  · have hLength := lineOffset_add_length lines hk
    have hLater := lineOffset_add_length lines hAll
    have hFit := hKept.length_le
    rw [h.lineOffset_length] at hLater
    simp only
    omega
  · rw [Nat.add_sub_cancel_left, hText]
    refine ⟨_, List.rdropWhile_append_rtakeWhile.symm, ?_⟩
    intro b hb
    exact isLineEnd_iff.1 (List.mem_rtakeWhile_imp hb)
  · intro b hLast
    rw [Nat.add_sub_cancel_left, hText] at hLast
    obtain ⟨front, hFront⟩ := List.getLast?_eq_some_iff.1 hLast
    exact not_or.1 (isLineEnd_iff.not.1 (not_of_rdropWhile_eq hFront))

theorem lineSpan_outside (h : LinesOf source lines) {first : Int}
    (hFirst : first < 1 ∨ lines.length < first) (last : Int) :
    lineSpan source first last = (0, 0) := by
  unfold lineSpan
  simp only [h.length_startsOfLines]
  rw [if_pos]
  simpa using hFirst

/-- The last byte of a range is no line end, so it is not cut off from a wider range either. -/
theorem lineSpan_mono (h : LinesOf source lines) {first last first' last' : Int}
    (hFirst : 1 ≤ first') (hLow : first' ≤ first) (hHigh : max first last ≤ max first' last')
    (hProper : (lineSpan source first last).1 < (lineSpan source first last).2) :
    (lineSpan source first' last').1 ≤ (lineSpan source first last).1 ∧
      (lineSpan source first last).2 ≤ (lineSpan source first' last').2 := by
  have hLast : first ≤ lines.length := by
    by_contra hNot
    rw [h.lineSpan_outside (.inr (by omega))] at hProper
    cases hProper
  rw [h.lineSpan_eq (by omega) hLast] at hProper ⊢
  rw [h.lineSpan_eq hFirst (by omega)]
  have hkk : first'.toNat - 1 ≤ first.toNat - 1 := by omega
  have hk : first.toNat - 1 ≤ min (max last first).toNat lines.length := by omega
  have hFinal : min (max last first).toNat lines.length ≤
      min (max last' first').toNat lines.length := by omega
  generalize first.toNat - 1 = k at hProper hkk hk ⊢
  generalize first'.toNat - 1 = k' at hkk ⊢
  generalize min (max last first).toNat lines.length = final at hProper hk hFinal ⊢
  generalize min (max last' first').toNat lines.length = final' at hFinal ⊢
  have hOffset := lineOffset_add_length lines hkk
  have hNil : (stretch lines k final).rdropWhile isLineEnd ≠ [] := by
    intro hNil
    simp [hNil] at hProper
  obtain ⟨ends, hEnds⟩ := List.rdropWhile_prefix isLineEnd (stretch lines k final)
  obtain ⟨front, b, hFront⟩ := (List.eq_nil_or_concat' _).resolve_left hNil
  have hWide : stretch lines k' final' =
      stretch lines k' k ++ front ++ [b] ++ (ends ++ stretch lines final final') := by
    rw [stretch_append lines hkk (hk.trans hFinal), stretch_append lines hk hFinal, ← hEnds, hFront]
    simp
  have hLength := (prefix_rdropWhile (not_of_rdropWhile_eq hFront) (stretch lines k' k ++ front)
    (ends ++ stretch lines final final')).length_le
  rw [← hWide] at hLength
  rw [hFront]
  simp only [List.length_append] at hLength ⊢
  exact ⟨by omega, by omega⟩

end LinesOf

/-- The lines of a source are determined, and the bytes of a range of them are none if the range
begins with no line. Otherwise they are all bytes from the first line to the last, or the very last
if the range goes on behind that, but for the line ends behind them. A range that takes in more
lines has no fewer bytes, unless it begins in front of the first line. -/
theorem lineSpan_lines (source : List UInt8) :
    ∃! lines, LinesOf source lines ∧ ∀ first last : Int,
      (first < 1 ∨ lines.length < first → lineSpan source first last = (0, 0)) ∧
      (1 ≤ first → first ≤ lines.length →
        Spans source lines first.toNat (min (max first last) lines.length).toNat
          (lineSpan source first last)) ∧
      ∀ first' last' : Int, first' ≤ first → max first last ≤ max first' last' →
        (lineSpan source first last).1 < (lineSpan source first last).2 →
          first' < 1 ∨ (lineSpan source first' last').1 ≤ (lineSpan source first last).1 ∧
            (lineSpan source first last).2 ≤ (lineSpan source first' last').2 := by
  obtain ⟨lines, h⟩ := exists_linesOf source
  refine ⟨lines, ⟨h, fun first last => ⟨?_, h.spans_lineSpan, ?_⟩⟩, ?_⟩
  · intro hFirst
    exact h.lineSpan_outside hFirst last
  · intro first' last' hLow hHigh hProper
    rcases Int.lt_or_le first' 1 with hOutside | hFirst
    · exact .inl hOutside
    · exact .inr (h.lineSpan_mono hFirst hLow hHigh hProper)
  · rintro lines' ⟨h', _⟩
    exact h.unique h'

/-- Carriage returns are cut off with the line feeds, and so are the ends of empty lines. -/
example : lineSpan (Utf8.encode "a\r\n\r\nb") 1 2 = (0, 1) := by decide +kernel

end ChangeSplit.Java
