import ChangeSplit.Diff.Content
import ChangeSplit.Proofs.Text.Lines

/-! Lines that are comments throughout. A line is cut at the end of each comment in it, and blanks
behind a comment and at the end of the line make no difference. -/

namespace ChangeSplit.Content

open Category (isBlank)

section Ends

variable {c : Char} {rest inside back : List Char}

theorem afterComment?_cons (h : ¬(c = '*' ∧ rest.head? = some '/')) :
    afterComment? (c :: rest) = afterComment? rest := by
  rw [afterComment?]
  rintro more rfl rfl
  exact h ⟨rfl, rfl⟩

/-- Blanks behind a text do not end a comment. -/
theorem afterComment?_append (hBack : ∀ c ∈ back, isBlank c = true) :
    afterComment? (inside ++ back) = (afterComment? inside).map (· ++ back) := by
  induction inside with
  | nil =>
      induction back with
      | nil => rfl
      | cons c back ih =>
          obtain ⟨hc, hBack⟩ := List.forall_mem_cons.1 hBack
          have hNot : ¬(c = '*' ∧ back.head? = some '/') := by
            rintro ⟨rfl, -⟩
            exact absurd hc (by decide)
          exact (afterComment?_cons hNot).trans (ih hBack)
  | cons c inside ih =>
      by_cases hEnd : c = '*' ∧ inside.head? = some '/'
      · obtain ⟨rfl, hHead⟩ := hEnd
        obtain ⟨more, rfl⟩ := List.head?_eq_some_iff.1 hHead
        rfl
      · have hNot : ¬(c = '*' ∧ (inside ++ back).head? = some '/') := by
          rintro ⟨rfl, hHead⟩
          cases inside with
          | nil =>
              have hBlank := hBack '/' (List.mem_of_head? hHead)
              exact absurd hBlank (by decide)
          | cons => exact hEnd ⟨rfl, hHead⟩
        rw [List.cons_append, afterComment?_cons hNot, afterComment?_cons hEnd, ih]

end Ends

/-- Whether what follows the end of a comment on a line is blank or a comment again. -/
def endsWithin (depth : Nat) (rest : List Char) : Bool :=
  match Text.trim rest with
  | [] => true
  | c :: more => c = '/' && isCommentWithin depth (c :: more)

/-- Whether a line that is inside a comment holds nothing but comments. -/
def goesOnWithin (depth : Nat) (inside : List Char) : Bool :=
  match afterComment? inside with
  | none => true
  | some rest => endsWithin depth rest

theorem isCommentWithin_block (depth : Nat) (inside : List Char) :
    isCommentWithin (depth + 1) ('/' :: '*' :: inside) = goesOnWithin depth inside := rfl

theorem isCommentWithin_star (depth : Nat) (rest : List Char) :
    isCommentWithin (depth + 1) ('*' :: rest) = goesOnWithin depth ('*' :: rest) := rfl

section Blanks

variable {c : Char} {rest inside blanks : List Char} {depth : Nat}

theorem endsWithin_cons_blank (hc : isBlank c = true) :
    endsWithin depth (c :: rest) = endsWithin depth rest := by
  have hTrim : Text.trim (c :: rest) = Text.trim rest := by
    rw [Text.trim, Text.trimStart, List.dropWhile_cons_of_pos hc]
    rfl
  rw [endsWithin, hTrim]
  rfl

theorem endsWithin_append (hBlanks : ∀ c ∈ blanks, isBlank c = true) :
    endsWithin depth (rest ++ blanks) = endsWithin depth rest := by
  rw [endsWithin, Text.trim_append_blanks hBlanks]
  rfl

theorem goesOnWithin_append (hBlanks : ∀ c ∈ blanks, isBlank c = true) :
    goesOnWithin depth (inside ++ blanks) = goesOnWithin depth inside := by
  rw [goesOnWithin, goesOnWithin, afterComment?_append hBlanks]
  cases afterComment? inside with
  | none => rfl
  | some rest => exact endsWithin_append hBlanks

theorem goesOnWithin_trimEnd :
    goesOnWithin depth (Text.trimEnd inside) = goesOnWithin depth inside := by
  obtain ⟨blanks, hInside, hBlanks⟩ := Text.exists_eq_trimEnd inside
  conv_rhs => rw [hInside, goesOnWithin_append hBlanks]

end Blanks

end ChangeSplit.Content
