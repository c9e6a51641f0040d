import ChangeSplit.Text.Blank
import Mathlib.Data.List.DropRight

/-! What cutting a text undoes. Lines that hold no boundary are read back from the text that puts
a line feed behind each, and a word stands by itself once blanks are around it. -/

namespace ChangeSplit.Text

open Category

/-- A line that no character of it would end. -/
def Whole (line : List Char) : Prop := ∀ c ∈ line, isLineBoundary c = false

instance (line : List Char) : Decidable (Whole line) :=
  List.decidableBAll (isLineBoundary · = false) line

theorem Whole.append {l m : List Char} (hl : Whole l) (hm : Whole m) : Whole (l ++ m) := by
  intro c hc
  rcases List.mem_append.1 hc with hc | hc
  · exact hl c hc
  · exact hm c hc

theorem Whole.cons {l : List Char} {c : Char} (hc : isLineBoundary c = false) (hl : Whole l) :
    Whole (c :: l) :=
  List.forall_mem_cons.2 ⟨hc, hl⟩

theorem lines_append {line rest : List Char} (h : Whole line) :
    lines (line ++ '\n' :: rest) = line :: lines rest := by
  unfold lines
  induction line with
  | nil =>
      have hBoundary : isLineBoundary '\n' = true := by decide
      simp [linesAfter, hBoundary]
  | cons c line ih =>
      have hc : isLineBoundary c = false := h c (List.mem_cons_self ..)
      simp [linesAfter, hc, ih fun d hd => h d (List.mem_cons_of_mem _ hd)]

theorem lines_flatMap {ls : List (List Char)} (h : ∀ l ∈ ls, Whole l) :
    lines (ls.flatMap (· ++ ['\n'])) = ls := by
  induction ls with
  | nil => rfl
  | cons l ls ih =>
      rw [List.flatMap_cons, List.append_assoc, List.singleton_append,
        lines_append (h l (List.mem_cons_self ..)), ih fun m hm => h m (List.mem_cons_of_mem _ hm)]

/-- A line without a carriage return at its end. -/
def withoutReturn (line : List Char) : List Char :=
  if line.getLast? = some '\r' then line.dropLast else line

theorem Whole.withoutReturn_eq {line : List Char} (h : Whole line) : withoutReturn line = line := by
  refine if_neg fun hLast => ?_
  have hReturn := h '\r' (List.mem_of_getLast? hLast)
  exact absurd hReturn (by decide)

theorem withoutReturn_cons {c : Char} (hc : c ≠ '\r') (line : List Char) :
    withoutReturn (c :: line) = c :: withoutReturn line := by
  cases line with
  | nil => simp [withoutReturn, hc]
  | cons d line =>
      simp only [withoutReturn, List.getLast?_cons_cons, List.dropLast_cons_cons]
      split <;> rfl

/-- A carriage return before a line feed ends the same line. -/
theorem lines_append_return {line rest : List Char} (h : Whole line) :
    lines (line ++ '\r' :: '\n' :: rest) = line :: lines rest := by
  unfold lines
  induction line with
  | nil =>
      have hBoundary : isLineBoundary '\r' = true := by decide
      simp [linesAfter, hBoundary]
  | cons c line ih =>
      have hc : isLineBoundary c = false := h c (List.mem_cons_self ..)
      simp [linesAfter, hc, ih fun d hd => h d (List.mem_cons_of_mem _ hd)]

/-- Lines that hold no boundary but a carriage return at their end are read back without it. -/
theorem lines_flatMap_returns {ls : List (List Char)} (h : ∀ l ∈ ls, Whole (withoutReturn l)) :
    lines (ls.flatMap (· ++ ['\n'])) = ls.map withoutReturn := by
  induction ls with
  | nil => rfl
  | cons l ls ih =>
      have hHead : Whole (withoutReturn l) := h l (List.mem_cons_self ..)
      have hTail := ih fun m hm => h m (List.mem_cons_of_mem _ hm)
      rw [List.flatMap_cons, List.append_assoc, List.singleton_append, List.map_cons, ← hTail]
      by_cases hLast : l.getLast? = some '\r'
      · obtain ⟨front, rfl⟩ := List.getLast?_eq_some_iff.1 hLast
        have hFront : withoutReturn (front ++ ['\r']) = front := by simp [withoutReturn]
        rw [hFront] at hHead ⊢
        rw [List.append_assoc, List.singleton_append, lines_append_return hHead]
      · rw [withoutReturn, if_neg hLast] at hHead ⊢
        exact lines_append hHead

theorem whole_of_mem_linesAfter {afterReturn : Bool} {cs line : List Char}
    (h : line ∈ linesAfter afterReturn cs) : Whole line := by
  induction cs generalizing afterReturn line with
  | nil => cases h
  | cons c cs ih =>
      unfold linesAfter at h
      split at h
      · exact ih h
      · split at h
        · rcases List.mem_cons.1 h with rfl | h
          · exact List.forall_mem_nil _
          · exact ih h
        · rename_i hc
          have hWhole : isLineBoundary c = false := by simpa using hc
          split at h
          case h_1 first more hLines =>
            rcases List.mem_cons.1 h with rfl | h
            · exact (ih (hLines ▸ List.mem_cons_self ..)).cons hWhole
            · exact ih (hLines ▸ List.mem_cons_of_mem _ h)
          case h_2 =>
            rw [List.mem_singleton.1 h]
            exact Whole.cons hWhole (List.forall_mem_nil _)

/-- No line of a text holds a boundary. -/
theorem whole_of_mem_lines {cs line : List Char} (h : line ∈ lines cs) : Whole line :=
  whole_of_mem_linesAfter h

theorem lines_ne_nil {cs : List Char} (h : cs ≠ []) : lines cs ≠ [] := by
  obtain ⟨c, rest, rfl⟩ := List.exists_cons_of_ne_nil h
  unfold lines linesAfter
  split
  · simp at *
  · split
    · simp
    · split <;> simp

/-- What stands behind a line feed is cut into lines by itself. -/
theorem linesAfter_append {cs : List Char} (hLast : cs.getLast? = some '\n') (rest : List Char)
    (afterReturn : Bool) :
    linesAfter afterReturn (cs ++ rest) = linesAfter afterReturn cs ++ lines rest := by
  induction cs generalizing afterReturn with
  | nil => simp at hLast
  | cons c cs ih =>
      by_cases hNil : cs = []
      · subst hNil
        obtain rfl : c = '\n' := by simpa using hLast
        have hBoundary : isLineBoundary '\n' = true := by decide
        cases afterReturn <;> simp [linesAfter, hBoundary, lines]
      · rw [List.getLast?_cons_of_ne_nil hNil] at hLast
        have hRest := ih hLast
        rw [List.cons_append, linesAfter, linesAfter]
        split
        · exact hRest false
        · split
          · rw [hRest, List.cons_append]
          · -- A character that ends no line goes to the first line behind it, and there is one.
            obtain ⟨line, more, hLines⟩ := List.exists_cons_of_ne_nil (lines_ne_nil hNil)
            unfold lines at hLines
            simp [hRest, hLines]

theorem lines_append_of_getLast? {cs : List Char} (hLast : cs.getLast? = some '\n')
    (rest : List Char) : lines (cs ++ rest) = lines cs ++ lines rest :=
  linesAfter_append hLast rest false

theorem exists_lines_cons {c : Char} (hc : isLineBoundary c = false) (rest : List Char) :
    ∃ line more, lines (c :: rest) = (c :: line) :: more ∧
      (rest ≠ [] → lines rest = line :: more) := by
  unfold lines
  rw [linesAfter]
  simp only [Bool.false_and, Bool.false_eq_true, if_false, hc]
  split
  case h_1 line more hLines => exact ⟨line, more, rfl, fun _ => hLines⟩
  case h_2 hLines => exact ⟨[], [], rfl, fun hNil => absurd hLines (lines_ne_nil hNil)⟩

/-- A text that begins with a word has a first line that does. -/
theorem exists_lines_append {word : List Char} (hWord : Whole word) (hNil : word ≠ [])
    (rest : List Char) : ∃ line more, lines (word ++ rest) = (word ++ line) :: more := by
  induction word with
  | nil => exact absurd rfl hNil
  | cons c word ih =>
      obtain ⟨line, more, hLines, hRest⟩ :=
        exists_lines_cons (hWord c (List.mem_cons_self ..)) (word ++ rest)
      cases word with
      | nil => exact ⟨line, more, hLines⟩
      | cons d word =>
          obtain ⟨line', more', hWordLines⟩ :=
            ih (fun e he => hWord e (List.mem_cons_of_mem _ he)) (by simp)
          obtain ⟨rfl, rfl⟩ := List.cons.inj (hWordLines.symm.trans (hRest (by simp)))
          exact ⟨line', more', hLines⟩

/-- A text with no blank at either end. -/
structure Trimmed (cs : List Char) : Prop where
  head : ∀ c, cs.head? = some c → isBlank c = false
  last : ∀ c, cs.getLast? = some c → isBlank c = false

instance (cs : List Char) : Decidable (Trimmed cs) :=
  decidable_of_iff (cs.head?.all (!isBlank ·) ∧ cs.getLast?.all (!isBlank ·)) (by
    simp only [Option.all_eq_true, Bool.not_eq_true']
    exact ⟨fun h => ⟨h.1, h.2⟩, fun h => ⟨h.head, h.last⟩⟩)

theorem trimStart_append {cs rest : List Char} (hNil : cs ≠ [])
    (h : ∀ c, cs.head? = some c → isBlank c = false) : trimStart (cs ++ rest) = cs ++ rest := by
  cases cs with
  | nil => exact absurd rfl hNil
  | cons c cs => simp [trimStart, h c rfl]

theorem trim_append {cs blanks : List Char} (hNil : cs ≠ []) (h : Trimmed cs)
    (hBlanks : ∀ c ∈ blanks, isBlank c = true) : trim (cs ++ blanks) = cs := by
  have hReverse : trimStart (cs.reverse ++ []) = cs.reverse ++ [] :=
    trimStart_append (by simpa using hNil) (by simpa using h.last)
  rw [trim, trimStart_append hNil h.head, trimEnd, List.reverse_append,
    List.dropWhile_append_of_pos (by simpa using hBlanks)]
  simp only [List.append_nil, trimStart] at hReverse
  rw [hReverse, List.reverse_reverse]

theorem pieces_ne_nil (separator : Char → Bool) (cs : List Char) : pieces separator cs ≠ [] := by
  cases cs with
  | nil => simp [pieces]
  | cons c rest =>
      rw [pieces]
      split
      · simp
      · split <;> simp

theorem pieces_append_cons {separator : Char → Bool} {c : Char} (hc : separator c = true)
    (cs rest : List Char) :
    pieces separator (cs ++ c :: rest) = pieces separator cs ++ pieces separator rest := by
  induction cs with
  | nil => simp [pieces, hc]
  | cons d cs ih =>
      obtain ⟨piece, more, hPieces⟩ := List.exists_cons_of_ne_nil (pieces_ne_nil separator cs)
      by_cases hd : separator d = true
      · simp [pieces, hd, ih]
      · simp [pieces, hd, ih, hPieces]

theorem words_append_cons {c : Char} (hc : isBlank c = true) (cs rest : List Char) :
    words (cs ++ c :: rest) = words cs ++ words rest := by
  simp [words, pieces_append_cons hc]

/-- Only blanks have no words in them. -/
theorem words_ne_nil {cs : List Char} (h : ∃ c ∈ cs, isBlank c = false) : words cs ≠ [] := by
  induction cs with
  | nil => simp at h
  | cons d cs ih =>
      obtain ⟨piece, more, hPieces⟩ := List.exists_cons_of_ne_nil (pieces_ne_nil isBlank cs)
      cases hd : isBlank d with
      | true =>
          have hRest : words (d :: cs) = words cs := by simp [words, pieces, hd]
          rw [hRest]
          exact ih (by simpa [hd] using h)
      | false => simp [words, pieces, hd, hPieces]

theorem of_mem_pieces {separator : Char → Bool} {cs piece : List Char}
    (h : piece ∈ pieces separator cs) : ∀ c ∈ piece, c ∈ cs ∧ separator c = false := by
  induction cs generalizing piece with
  | nil =>
      rw [List.mem_singleton.1 h]
      exact List.forall_mem_nil _
  | cons d cs ih =>
      have hLater {piece : List Char} (hPiece : piece ∈ pieces separator cs) :
          ∀ c ∈ piece, c ∈ d :: cs ∧ separator c = false := fun c hc =>
        ⟨List.mem_cons_of_mem _ (ih hPiece c hc).1, (ih hPiece c hc).2⟩
      rw [pieces] at h
      split at h
      · rcases List.mem_cons.1 h with rfl | h
        · exact List.forall_mem_nil _
        · exact hLater h
      · rename_i hd
        have hHere : d ∈ d :: cs ∧ separator d = false := ⟨List.mem_cons_self, by simpa using hd⟩
        split at h
        case h_1 =>
          rw [List.mem_singleton.1 h]
          exact List.forall_mem_singleton.2 hHere
        case h_2 first more hPieces =>
          rcases List.mem_cons.1 h with rfl | h
          · refine List.forall_mem_cons.2 ⟨hHere, hLater ?_⟩
            rw [hPieces]
            exact List.mem_cons_self
          · refine hLater ?_
            rw [hPieces]
            exact List.mem_cons_of_mem _ h

/-- A text without a blank. -/
def Unbroken (cs : List Char) : Prop := ∀ c ∈ cs, isBlank c = false

instance (cs : List Char) : Decidable (Unbroken cs) := List.decidableBAll (isBlank · = false) cs

theorem unbroken_of_mem_words {cs word : List Char} (h : word ∈ words cs) : Unbroken word :=
  fun c hc => (of_mem_pieces ((List.mem_filter.1 h).1) c hc).2

theorem subset_of_mem_words {cs word : List Char} (h : word ∈ words cs) : word ⊆ cs :=
  fun c hc => (of_mem_pieces ((List.mem_filter.1 h).1) c hc).1

theorem words_eq_singleton {cs : List Char} (hNil : cs ≠ []) (h : Unbroken cs) :
    words cs = [cs] := by
  have hPieces : ∀ cs : List Char, Unbroken cs → pieces isBlank cs = [cs] := by
    intro cs h
    induction cs with
    | nil => rfl
    | cons c cs ih => simp [pieces, h c List.mem_cons_self, ih (List.forall_mem_cons.1 h).2]
  simp [words, hPieces cs h, hNil]

/-- Whatever ends a line is a blank. -/
theorem Unbroken.whole {cs : List Char} (h : Unbroken cs) : Whole cs := by
  intro c hc
  have hBlank := h c hc
  simp only [isBlank, isLineBoundary, Bool.or_eq_false_iff, Bool.and_eq_false_iff,
    decide_eq_false_iff_not] at hBlank ⊢
  omega

theorem Unbroken.mono {cs ds : List Char} (h : Unbroken ds) (hSub : cs ⊆ ds) : Unbroken cs :=
  fun c hc => h c (hSub hc)

theorem Whole.mono {cs ds : List Char} (h : Whole ds) (hSub : cs ⊆ ds) : Whole cs :=
  fun c hc => h c (hSub hc)

theorem trimEnd_prefix_self (cs : List Char) : trimEnd cs <+: cs := by
  rw [← List.reverse_suffix, trimEnd, List.reverse_reverse]
  exact List.dropWhile_suffix _

theorem trim_subset (cs : List Char) : trim cs ⊆ cs :=
  List.Subset.trans (trimEnd_prefix_self _).subset (List.dropWhile_suffix _).subset

theorem trimmed_trim (cs : List Char) : Trimmed (trim cs) where
  head c hc := by
    have hHead := List.head?_dropWhile_not isBlank cs
    have hFirst : (trimStart cs).head? = some c := by
      obtain ⟨rest, hRest⟩ := trimEnd_prefix_self (trimStart cs)
      rw [← hRest, List.head?_append]
      exact congrArg (·.or rest.head?) hc
    rw [show List.dropWhile isBlank cs = trimStart cs from rfl, hFirst] at hHead
    simpa using hHead
  last c hc := by
    have hHead := List.head?_dropWhile_not isBlank (trimStart cs).reverse
    rw [trim, trimEnd, List.getLast?_reverse] at hc
    rw [hc] at hHead
    simpa using hHead

theorem trim_eq_iff {cs : List Char} : trim cs = cs ↔ Trimmed cs := by
  refine ⟨fun h => h ▸ trimmed_trim cs, fun h => ?_⟩
  by_cases hNil : cs = []
  · rw [hNil]
    rfl
  · have hTrim := trim_append hNil h (List.forall_mem_nil _)
    rwa [List.append_nil] at hTrim

theorem exists_eq_trimEnd (cs : List Char) :
    ∃ blanks, cs = trimEnd cs ++ blanks ∧ ∀ c ∈ blanks, isBlank c = true := by
  refine ⟨(cs.reverse.takeWhile isBlank).reverse, ?_, fun c hc => ?_⟩
  · rw [trimEnd, ← List.reverse_append, List.takeWhile_append_dropWhile, List.reverse_reverse]
  · exact List.mem_takeWhile_imp (List.mem_reverse.1 hc)

/-- What is left of a text without blanks stands between blanks. -/
theorem exists_eq_trim (cs : List Char) :
    ∃ back, cs = cs.takeWhile isBlank ++ (trim cs ++ back) ∧ (∀ c ∈ back, isBlank c = true) ∧
      ∀ c ∈ (trim cs).head?, isBlank c = false := by
  obtain ⟨back, hSplit, hBack⟩ := exists_eq_trimEnd (trimStart cs)
  refine ⟨back, ?_, hBack, (trimmed_trim cs).head⟩
  rw [trim, ← hSplit, trimStart, List.takeWhile_append_dropWhile]

theorem isBlank_of_trim_eq_nil {cs : List Char} (h : trim cs = []) :
    ∀ c ∈ cs, isBlank c = true := by
  obtain ⟨back, hEq, hBack, _⟩ := exists_eq_trim cs
  rw [h, List.nil_append] at hEq
  intro c hc
  rw [hEq] at hc
  exact (List.mem_append.1 hc).elim List.mem_takeWhile_imp (hBack c)

theorem trimEnd_append_blank {c : Char} (hc : isBlank c = true) (cs : List Char) :
    trimEnd (cs ++ [c]) = trimEnd cs := by
  rw [trimEnd, List.reverse_append, List.reverse_singleton, List.singleton_append,
    List.dropWhile_cons_of_pos hc, trimEnd]

theorem trim_append_blank {c : Char} (hc : isBlank c = true) (cs : List Char) :
    trim (cs ++ [c]) = trim cs := by
  rw [trim, trimStart, List.dropWhile_append, trim, trimStart]
  split
  case isTrue hNil =>
    rw [List.isEmpty_iff.1 hNil, List.dropWhile_cons_of_pos hc]
    rfl
  case isFalse => exact trimEnd_append_blank hc _

theorem trim_append_blanks {blanks : List Char} (h : ∀ c ∈ blanks, isBlank c = true)
    (cs : List Char) : trim (cs ++ blanks) = trim cs := by
  induction blanks generalizing cs with
  | nil => rw [List.append_nil]
  | cons c blanks ih =>
      obtain ⟨hc, hBlanks⟩ := List.forall_mem_cons.1 h
      rw [List.append_cons, ih hBlanks, trim_append_blank hc]

theorem trimEnd_cons {c : Char} (hc : isBlank c = false) (cs : List Char) :
    trimEnd (c :: cs) = c :: trimEnd cs := by
  rw [trimEnd, List.reverse_cons, List.dropWhile_append, trimEnd]
  split
  case isTrue hNil =>
    rw [List.isEmpty_iff.1 hNil, List.dropWhile_cons_of_neg (by simp [hc])]
    rfl
  case isFalse => rw [List.reverse_append]; rfl

theorem trim_cons {c : Char} (hc : isBlank c = false) (cs : List Char) :
    trim (c :: cs) = c :: trimEnd cs := by
  rw [trim, trimStart, List.dropWhile_cons_of_neg (by simp [hc]), trimEnd_cons hc]

end ChangeSplit.Text
