import ChangeSplit.Proofs.Diff.Content
import Mathlib.Logic.Relation

/-! Comments on a line as a scanner reads them. The scanner looks at the line from left to right and
knows no more than whether it is inside a block comment. A line is decided by searching for the end
of each comment in turn, and comes out as the scanner has it. -/

namespace ChangeSplit.Content

open Category (isBlank)

/-- A scanner of a line, with what it has not read yet. It stands outside comments or inside a
block comment. -/
inductive Scanner where
  | outside (rest : List Char)
  | inside (rest : List Char)
deriving DecidableEq, Repr

namespace Scanner

/-- What is not read yet. -/
def rest : Scanner → List Char
  | outside rest => rest
  | inside rest => rest

/-- Read on: the marks of a comment, a blank outside comments, or a character of a comment. A
line comment is read to its end at once. There is no way on at the end of the line, nor at any
other character outside comments. -/
def next? : Scanner → Option Scanner
  | outside ('/' :: '/' :: _) => some (outside [])
  | outside ('/' :: '*' :: rest) => some (inside rest)
  | outside (c :: rest) => if isBlank c then some (outside rest) else none
  | inside ('*' :: '/' :: rest) => some (outside rest)
  | inside (_ :: rest) => some (inside rest)
  | outside [] => none
  | inside [] => none

/-- Where a scanner of a line begins, if the line begins with the mark of a comment or with a star.
A star goes on a block comment that was begun before. -/
def start? : List Char → Option Scanner
  | '/' :: '/' :: rest => some (outside ('/' :: '/' :: rest))
  | '/' :: '*' :: rest => some (outside ('/' :: '*' :: rest))
  | '*' :: rest => some (inside ('*' :: rest))
  | _ => none

/-- The scanner gets to the end of the line. -/
def Passes (s : Scanner) : Prop :=
  ∃ last : Scanner, Relation.ReflTransGen (fun s t => s.next? = some t) s last ∧ last.rest = []

/-- What is decided of the part that is not read yet. -/
def verdict (depth : Nat) : Scanner → Bool
  | outside rest => endsWithin depth rest
  | inside rest => goesOnWithin depth rest

/-- How many more comments the line has room for at least. -/
def need : Scanner → Nat
  | outside rest => rest.length + 1
  | inside rest => rest.length

theorem endsWithin_line {depth : Nat} (rest : List Char) :
    endsWithin (depth + 1) ('/' :: '/' :: rest) = true := by
  rw [endsWithin, Text.trim_cons (by decide), Text.trimEnd_cons (by decide)]
  rfl

theorem endsWithin_block {depth : Nat} (rest : List Char) :
    endsWithin (depth + 1) ('/' :: '*' :: rest) = goesOnWithin depth rest := by
  rw [← goesOnWithin_trimEnd, endsWithin, Text.trim_cons (by decide),
    Text.trimEnd_cons (by decide)]
  rfl

/-- A step leaves what is decided as it is. -/
theorem exists_verdict_eq {s t : Scanner} {depth : Nat} (h : s.next? = some t)
    (hDepth : s.need ≤ depth) : ∃ d, t.need ≤ d ∧ s.verdict depth = t.verdict d := by
  unfold next? at h
  split at h
  case h_1 rest =>
    cases h
    obtain ⟨depth, rfl⟩ := Nat.exists_eq_add_of_le' hDepth
    exact ⟨1, Nat.le_refl _, endsWithin_line rest⟩
  case h_2 rest =>
    cases h
    obtain ⟨depth, rfl⟩ : ∃ d, depth = d + 1 := Nat.exists_eq_succ_of_ne_zero (by
      simp only [need] at hDepth; omega)
    refine ⟨depth, ?_, endsWithin_block rest⟩
    simp only [need, List.length_cons] at hDepth ⊢
    omega
  case h_3 c rest _ _ =>
    obtain ⟨hc, hNext⟩ := Option.ite_none_right_eq_some.1 h
    cases hNext
    refine ⟨depth, ?_, endsWithin_cons_blank hc⟩
    simp only [need, List.length_cons] at hDepth ⊢
    omega
  case h_4 rest =>
    cases h
    refine ⟨depth, ?_, rfl⟩
    simp only [need, List.length_cons] at hDepth ⊢
    omega
  case h_5 c rest hNot =>
    cases h
    refine ⟨depth, Nat.le_of_succ_le hDepth, ?_⟩
    have hOpen : ¬(c = '*' ∧ rest.head? = some '/') := by
      rintro ⟨rfl, hHead⟩
      obtain ⟨more, rfl⟩ := List.head?_eq_some_iff.1 hHead
      exact hNot more rfl rfl
    rw [verdict, verdict, goesOnWithin, afterComment?_cons hOpen]
    rfl
  case h_6 => cases h
  case h_7 => cases h

/-- A slash alone begins no comment. -/
theorem head?_of_isCommentWithin {depth : Nat} {rest : List Char}
    (h : isCommentWithin depth ('/' :: rest) = true) :
    rest.head? = some '/' ∨ rest.head? = some '*' := by
  unfold isCommentWithin at h
  split at h
  case h_1 => cases h
  case h_2 =>
    split at h
    case h_1 hLine =>
      cases hLine
      exact .inl rfl
    case h_2 hBlock =>
      cases hBlock
      exact .inr rfl
    case h_3 hStar => cases hStar
    case h_4 => cases h

/-- A scanner that cannot go on passes only at the end of the line. -/
theorem verdict_of_stuck {s : Scanner} (h : s.next? = none) {depth : Nat} :
    s.verdict depth = true ↔ s.rest = [] := by
  unfold next? at h
  split at h
  case h_3 c rest hLine hBlock =>
    have hc : isBlank c = false := by simpa using h
    refine iff_of_false (fun hVerdict => ?_) (List.cons_ne_nil c rest)
    rw [verdict, endsWithin, Text.trim_cons hc] at hVerdict
    obtain ⟨hSlash, hComment⟩ := Bool.and_eq_true_iff.1 hVerdict
    obtain rfl := of_decide_eq_true hSlash
    obtain ⟨blanks, hRest, -⟩ := Text.exists_eq_trimEnd rest
    rcases head?_of_isCommentWithin hComment with hHead | hHead
    · obtain ⟨more, hMore⟩ := List.head?_eq_some_iff.1 hHead
      rw [hMore] at hRest
      exact hLine _ rfl hRest
    · obtain ⟨more, hMore⟩ := List.head?_eq_some_iff.1 hHead
      rw [hMore] at hRest
      exact hBlock _ rfl hRest
  case h_6 => exact iff_of_true rfl rfl
  case h_7 => exact iff_of_true rfl rfl
  all_goals cases h

theorem length_lt_of_next? {s t : Scanner} (h : s.next? = some t) :
    t.rest.length < s.rest.length := by
  unfold next? at h
  split at h
  case h_3 =>
    obtain ⟨-, hNext⟩ := Option.ite_none_right_eq_some.1 h
    cases hNext
    exact Nat.lt_succ_self _
  case h_6 => cases h
  case h_7 => cases h
  all_goals
    cases h
    simp only [rest, List.length_cons, List.length_nil]
    omega

/-- There is one way on at most, so a step leaves open whether the scanner passes. -/
theorem passes_iff_of_next? {s t : Scanner} (h : s.next? = some t) : s.Passes ↔ t.Passes := by
  constructor
  · rintro ⟨last, hRun, hEnd⟩
    rcases Relation.ReflTransGen.cases_head hRun with rfl | ⟨u, hStep, hRun⟩
    · have hLess := length_lt_of_next? h
      rw [hEnd] at hLess
      exact absurd hLess (Nat.not_lt_zero _)
    · cases h.symm.trans hStep
      exact ⟨last, hRun, hEnd⟩
  · rintro ⟨last, hRun, hEnd⟩
    exact ⟨last, .head h hRun, hEnd⟩

theorem passes_iff_of_stuck {s : Scanner} (h : s.next? = none) : s.Passes ↔ s.rest = [] := by
  constructor
  · rintro ⟨last, hRun, hEnd⟩
    rcases Relation.ReflTransGen.cases_head hRun with rfl | ⟨u, hStep, -⟩
    · exact hEnd
    · cases h.symm.trans hStep
  · exact fun hEnd => ⟨s, .refl, hEnd⟩

/-- What is decided is whether the scanner passes. By induction on what is not read yet, since
each step leaves both as they are. -/
theorem verdict_iff_passes {s : Scanner} {depth : Nat} (hDepth : s.need ≤ depth) :
    s.verdict depth = true ↔ s.Passes := by
  induction hLength : s.rest.length using Nat.strong_induction_on generalizing s depth with
  | _ length ih =>
      cases hNext : s.next? with
      | none => rw [verdict_of_stuck hNext, passes_iff_of_stuck hNext]
      | some t =>
          obtain ⟨d, hd, hVerdict⟩ := exists_verdict_eq hNext hDepth
          rw [hVerdict, passes_iff_of_next? hNext]
          exact ih _ (hLength ▸ length_lt_of_next? hNext) hd rfl

end Scanner

theorem isComment_eq_verdict {line : List Char} {s : Scanner} (h : Scanner.start? line = some s) :
    isComment line = s.verdict s.need := by
  unfold Scanner.start? at h
  split at h
  case h_1 rest =>
    cases h
    exact (Scanner.endsWithin_line rest).symm
  case h_2 rest =>
    cases h
    exact (Scanner.endsWithin_block rest).symm
  case h_3 rest =>
    cases h
    rfl
  case h_4 => cases h

theorem exists_start_of_isComment {line : List Char} (h : isComment line = true) :
    ∃ s, Scanner.start? line = some s := by
  unfold isComment isCommentWithin at h
  split at h
  case h_1 rest => exact ⟨_, rfl⟩
  case h_2 rest => exact ⟨_, rfl⟩
  case h_3 rest => exact ⟨_, rfl⟩
  case h_4 => cases h

/-- A line is taken for a comment just if a scanner that begins with its first mark gets to its
end: in a comment, or past blanks and comments only. -/
theorem isComment_iff_passes (line : List Char) :
    isComment line = true ↔ ∃ s, Scanner.start? line = some s ∧ s.Passes := by
  constructor
  · intro hComment
    obtain ⟨s, hStart⟩ := exists_start_of_isComment hComment
    rw [isComment_eq_verdict hStart, Scanner.verdict_iff_passes (Nat.le_refl _)] at hComment
    exact ⟨s, hStart, hComment⟩
  · rintro ⟨s, hStart, hPasses⟩
    rwa [isComment_eq_verdict hStart, Scanner.verdict_iff_passes (Nat.le_refl _)]

/-- The end mark of a comment takes a star that is not part of the mark that begins it. -/
example : isComment "/*/".toList = true ∧ isComment "/**/ /*/ */".toList = true ∧
    isComment "*//*/ x".toList = true ∧ isComment "*/*".toList = false := by decide

end ChangeSplit.Content
