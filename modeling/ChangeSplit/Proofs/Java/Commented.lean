import ChangeSplit.Diff.Hunk
import ChangeSplit.Proofs.Diff.Content
import ChangeSplit.Proofs.Java.Cut
import ChangeSplit.Proofs.Java.Line
import Mathlib.Data.List.DropRight

/-! Lines that look like comments. Whether a line is a comment is told from its looks, and whether
it stands in comments from the tokens of the source. The two agree on every line whose first mark
is read as what it looks like. -/

namespace ChangeSplit

open Category (isBlank)

namespace Java

open Token
open Content (afterComment? afterComment?_cons endsWithin goesOnWithin isCommentWithin
  isCommentWithin_block isCommentWithin_star ofLine)

section Marks

/-! The end of a comment is looked for by one function in a line and by another in a source. -/

variable {c : Char} {inside rest tail : List Char} {n : Nat}

theorem blockCommentTail_cons (h : ¬(c = '*' ∧ rest.head? = some '/')) :
    blockCommentTail (c :: rest) = (blockCommentTail rest).map (· + 1) := by
  rw [blockCommentTail]
  rintro more rfl rfl
  exact h ⟨rfl, rfl⟩

theorem not_closing_append (h : ¬(c = '*' ∧ rest.head? = some '/'))
    (hTail : tail.head? ≠ some '/') : ¬(c = '*' ∧ (rest ++ tail).head? = some '/') := by
  cases rest with
  | nil => exact fun hBoth => hTail hBoth.2
  | cons => exact h

/-- A comment that ends in a line ends where the line says. -/
theorem blockCommentTail_of_afterComment? (h : afterComment? inside = some rest) :
    ∃ front, inside = front ++ rest ∧
      ∀ tail, blockCommentTail (inside ++ tail) = some front.length := by
  induction inside with
  | nil => cases h
  | cons c inside ih =>
    by_cases hEnd : c = '*' ∧ inside.head? = some '/'
    · obtain ⟨rfl, hHead⟩ := hEnd
      obtain ⟨more, rfl⟩ := List.head?_eq_some_iff.1 hHead
      cases h
      exact ⟨['*', '/'], rfl, fun _ => rfl⟩
    · rw [afterComment?_cons hEnd] at h
      obtain ⟨front, rfl, hTail⟩ := ih h
      refine ⟨c :: front, rfl, fun tail => ?_⟩
      have hNot : ¬(c = '*' ∧ (front ++ rest ++ tail).head? = some '/') := by
        rintro ⟨rfl, hHead⟩
        cases hInside : front ++ rest with
        | nil =>
          rw [hInside] at h
          cases h
        | cons d more =>
          rw [hInside] at hEnd hHead
          exact hEnd ⟨rfl, hHead⟩
      rw [List.cons_append, blockCommentTail_cons hNot, hTail tail]
      rfl

/-- A comment that does not end in a line reaches to the end of the line at least. -/
theorem length_le_of_afterComment? (h : afterComment? inside = none)
    (hTail : tail.head? ≠ some '/') (hEnd : blockCommentTail (inside ++ tail) = some n) :
    inside.length ≤ n := by
  induction inside generalizing n with
  | nil => exact Nat.zero_le n
  | cons c inside ih =>
    have hNot : ¬(c = '*' ∧ inside.head? = some '/') := by
      rintro ⟨rfl, hHead⟩
      obtain ⟨more, rfl⟩ := List.head?_eq_some_iff.1 hHead
      cases h
    rw [afterComment?_cons hNot] at h
    rw [List.cons_append, blockCommentTail_cons (not_closing_append hNot hTail)] at hEnd
    obtain ⟨m, hm, rfl⟩ := Option.map_eq_some_iff.1 hEnd
    exact Nat.succ_le_succ (ih h hm)

/-- A comment that ends behind a place ends as if it had begun there, unless a star stands in front
of the place. -/
theorem blockCommentTail_of_append (hEnd : blockCommentTail (inside ++ rest) = some n)
    (hLength : inside.length < n) (hLast : inside.getLast? ≠ some '*') :
    blockCommentTail rest = some (n - inside.length) := by
  induction inside generalizing n with
  | nil => exact hEnd
  | cons c inside ih =>
    have hNot : ¬(c = '*' ∧ (inside ++ rest).head? = some '/') := by
      rintro ⟨rfl, hHead⟩
      cases inside with
      | nil => exact hLast rfl
      | cons d more =>
        obtain rfl : d = '/' := by simpa using hHead
        cases hEnd
        simp only [List.length_cons] at hLength
        omega
    rw [List.cons_append, blockCommentTail_cons hNot] at hEnd
    obtain ⟨m, hm, rfl⟩ := Option.map_eq_some_iff.1 hEnd
    rw [List.length_cons, Nat.add_sub_add_right]
    refine ih hm (Nat.lt_of_succ_lt_succ hLength) fun hSame => hLast ?_
    rw [List.getLast?_cons, hSame]
    rfl

end Marks

theorem byteLength_take_append {x y : List Char} {n : Nat} (h : x.length ≤ n) :
    byteLength ((x ++ y).take n) = byteLength x + byteLength (y.take (n - x.length)) := by
  rw [List.take_append, List.take_of_length_le h, byteLength_append]

/-- Every character of a text that is no blank stands in a comment, if the text begins at the byte
`start`. -/
def Commented (ts : List Token) (start : Nat) (cs : List Char) : Prop :=
  ∀ front c rest, cs = front ++ c :: rest → isBlank c = false →
    ∃ t ∈ ts, t.isComment = true ∧ t.start ≤ start + byteLength front ∧
      start + byteLength front < t.stop

namespace Commented

variable {ts us : List Token} {start : Nat} {x y : List Char}

theorem of_isBlank (h : ∀ c ∈ x, isBlank c = true) : Commented ts start x := by
  rintro front c rest rfl hc
  rw [h c (by simp)] at hc
  cases hc

theorem of_mem {t : Token} (ht : t ∈ ts) (hComment : t.isComment = true) (hStart : t.start ≤ start)
    (hStop : start + byteLength x ≤ t.stop) : Commented ts start x := by
  rintro front c rest rfl _
  have hPos : 0 < byteLength (c :: rest) := Cuts.byteLength_pos (List.cons_ne_nil c rest)
  rw [byteLength_append] at hStop
  exact ⟨t, ht, hComment, by omega, by omega⟩

theorem mono (h : Commented us start x) (hSub : us ⊆ ts) : Commented ts start x := by
  intro front c rest hEq hc
  obtain ⟨t, ht, hIn⟩ := h front c rest hEq hc
  exact ⟨t, hSub ht, hIn⟩

theorem append (hx : Commented ts start x) (hy : Commented ts (start + byteLength x) y) :
    Commented ts start (x ++ y) := by
  intro front c rest hEq hc
  rcases List.append_eq_append_iff.1 hEq with ⟨more, rfl, hRest⟩ | ⟨more, hFront, hRest⟩
  · have hIn := hy more c rest hRest hc
    rwa [Nat.add_assoc, ← byteLength_append] at hIn
  · cases more with
    | nil =>
      have hIn := hy [] c rest hRest.symm hc
      rw [List.append_nil] at hFront
      subst hFront
      exact hIn
    | cons d more =>
      obtain ⟨rfl, rfl⟩ := List.cons.inj hRest
      exact hx front c more hFront hc

end Commented

/-- A line of comments that begins where a token could begin stands in comments. -/
def Sound (depth : Nat) : Prop :=
  ∀ {start : Nat} {line tail : List Char} {ts : List Token}, Cuts start (line ++ tail) ts →
    '\n' ∉ line → tail.head? ≠ some '/' → line.head? = some '/' →
    isCommentWithin depth line = true → Commented ts start line

section Gate

variable {depth pos n : Nat} {inside tail : List Char} {ts later : List Token} {t : Token}

theorem commented_of_endsWithin (hSound : Sound depth) {rest : List Char}
    (hCuts : Cuts pos (rest ++ tail) ts) (hNewline : '\n' ∉ rest) (hTail : tail.head? ≠ some '/')
    (hGate : endsWithin depth rest = true) : Commented ts pos rest := by
  unfold endsWithin at hGate
  split at hGate
  case h_1 hNil => exact .of_isBlank (Text.isBlank_of_trim_eq_nil hNil)
  case h_2 c more hTrim =>
    obtain ⟨hSlash, hComment⟩ := Bool.and_eq_true_iff.1 hGate
    obtain ⟨back, hEq, hBack, _⟩ := Text.exists_eq_trim rest
    rw [hTrim] at hEq
    have hBlanks : ∀ d ∈ rest.takeWhile isBlank, isBlank d = true := fun d => List.mem_takeWhile_imp
    have hMore : (back ++ tail).head? ≠ some '/' := by
      cases back with
      | nil => exact hTail
      | cons d back =>
        intro hHead
        obtain rfl : d = '/' := by simpa using hHead
        have hBlank := hBack '/' (List.mem_cons_self ..)
        exact absurd hBlank (by decide)
    rw [hEq] at hCuts ⊢
    rw [hEq] at hNewline
    simp only [List.append_assoc] at hCuts
    refine .append (.of_isBlank hBlanks) (.append ?_ (.of_isBlank hBack))
    refine hSound (hCuts.of_blanks hBlanks) ?_ hMore ?_ hComment
    · exact fun hMem => hNewline (List.mem_append_right _ (List.mem_append_left _ hMem))
    · rw [List.head?_cons, of_decide_eq_true hSlash]

/-- What a comment goes on with stands in comments if the line says so. -/
theorem commented_of_goesOnWithin (hSound : Sound depth) (ht : t ∈ ts)
    (hComment : t.isComment = true) (hStart : t.start ≤ pos)
    (hEnd : blockCommentTail (inside ++ tail) = some n)
    (hStop : t.stop = pos + byteLength ((inside ++ tail).take n))
    (hCuts : Cuts t.stop ((inside ++ tail).drop n) later) (hLater : later ⊆ ts)
    (hNewline : '\n' ∉ inside) (hTail : tail.head? ≠ some '/')
    (hGate : goesOnWithin depth inside = true) : Commented ts pos inside := by
  unfold goesOnWithin at hGate
  split at hGate
  case h_1 hNone =>
    have hLength := length_le_of_afterComment? hNone hTail hEnd
    rw [byteLength_take_append hLength] at hStop
    exact .of_mem ht hComment hStart (by omega)
  case h_2 rest hRest =>
    obtain ⟨front, rfl, hAny⟩ := blockCommentTail_of_afterComment? hRest
    obtain rfl : n = front.length := Option.some.inj (hEnd.symm.trans (hAny tail))
    rw [List.append_assoc, List.take_left] at hStop
    rw [List.append_assoc, List.drop_left] at hCuts
    refine .append (.of_mem ht hComment hStart (Nat.le_of_eq hStop.symm)) ?_
    rw [← hStop]
    refine (commented_of_endsWithin hSound hCuts ?_ hTail hGate).mono hLater
    exact fun hMem => hNewline (List.mem_append_right _ hMem)

/-- The look of a line does not deceive where a token could begin. -/
theorem sound (depth : Nat) : Sound depth := by
  induction depth with
  | zero =>
    intro _ _ _ _ _ _ _ _ hGate
    cases hGate
  | succ depth ih =>
    intro start line tail ts hCuts hNewline hTail hHead hGate
    obtain ⟨more, rfl⟩ := List.head?_eq_some_iff.1 hHead
    obtain ⟨t, n, later, rfl, rfl, hScan, hStop, hLater⟩ := hCuts.of_token (by decide)
    unfold isCommentWithin at hGate
    split at hGate
    case h_1 rest hEq =>
      obtain rfl := (List.cons.inj hEq).2
      obtain ⟨hLexeme, hn, _⟩ : .comment .lineComment = t.lexeme ∧
        2 + runLength (· ≠ '\n') (rest ++ tail) = n ∧ [] = t.parts := by simpa [scan?] using hScan
      have hRun : rest.length ≤ runLength (· ≠ '\n') (rest ++ tail) := by
        have hAll : ∀ c ∈ rest, decide (c ≠ '\n') = true := by
          intro c hc
          rw [decide_eq_true_eq]
          rintro rfl
          exact hNewline (List.mem_cons_of_mem _ (List.mem_cons_of_mem _ hc))
        rw [runLength, List.takeWhile_append_of_pos hAll, List.length_append]
        exact Nat.le_add_right _ _
      have hTake := byteLength_take_append (x := '/' :: '/' :: rest) (y := tail) (n := n)
        (by simp only [List.length_cons]; omega)
      have hStop' : t.stop = t.start + byteLength (('/' :: '/' :: rest ++ tail).take n) := hStop
      refine .of_mem (List.mem_cons_self ..) ?_ (Nat.le_refl _) (by omega)
      rw [Token.isComment, ← hLexeme]
    case h_2 inside hEq =>
      obtain rfl := (List.cons.inj hEq).2
      obtain ⟨m, hEnd, hSame⟩ := Option.map_eq_some_iff.1 hScan
      obtain ⟨hLexeme, rfl, _⟩ : .comment .blockComment = t.lexeme ∧ 2 + m = n ∧ [] = t.parts := by
        simpa using hSame
      have hComment : t.isComment = true := by rw [Token.isComment, ← hLexeme]
      have hTake := byteLength_take_append (x := ['/', '*']) (y := inside ++ tail) (n := 2 + m)
        (Nat.le_add_right 2 m)
      rw [List.length_cons, List.length_singleton, Nat.add_sub_cancel_left] at hTake
      have hMarks : t.stop =
          t.start + byteLength ['/', '*'] + byteLength ((inside ++ tail).take m) :=
        (hStop.trans (congrArg (t.start + ·) hTake)).trans (Nat.add_assoc ..).symm
      have hDrop : ('/' :: '*' :: (inside ++ tail)).drop (2 + m) = (inside ++ tail).drop m := by
        rw [Nat.add_comm 2 m]
        rfl
      refine .append (x := ['/', '*'])
        (.of_mem (List.mem_cons_self ..) hComment (Nat.le_refl _) (by omega)) ?_
      refine commented_of_goesOnWithin ih (List.mem_cons_self ..) hComment
        (Nat.le_add_right _ _) hEnd hMarks (hDrop ▸ hLater) (List.subset_cons_self ..) ?_ hTail
        hGate
      exact fun hMem => hNewline (List.mem_cons_of_mem _ (List.mem_cons_of_mem _ hMem))
    case h_3 hEq => cases hEq
    case h_4 => cases hGate

end Gate

section Row

/-! The lines of a source among its tokens. -/

variable {source row : List Char} {k : Nat} {ts : List Token}

/-- Where the first character of a line stands that is no blank. -/
def indented (start : Nat) (row : List Char) : Nat := start + byteLength (row.takeWhile isBlank)

theorem eq_newline_of_getLast?_ended {rs : List (List Char)} {c : Char}
    (h : (ended rs).getLast? = some c) : c = '\n' := by
  rcases rs.eq_nil_or_concat with rfl | ⟨rs, row, rfl⟩
  · cases h
  · simpa [ended, eq_comm] using h

/-- The characters of a line are cut together with what stands in front of them and behind. -/
theorem exists_cuts_row (hTokens : tokens? source = some ts) (hRow : (rows source)[k]? = some row)
    (hFirst : ∃ c ∈ (Text.trim row).head?, c ≠ '\uFEFF') :
    ∃ base front tail, Cuts base (front ++ (Text.trim row ++ tail)) ts ∧
      base + byteLength front = indented (rowStart source k) row ∧
      (∀ c ∈ front.getLast?, isBlank c = true) ∧ tail.head? ≠ some '/' := by
  obtain ⟨rest, hSource, hRest⟩ := exists_of_getElem?_rows hRow
  obtain ⟨back, hTrim, hBack, hSolid⟩ := Text.exists_eq_trim row
  obtain ⟨mark, body, rfl, hMark, hCuts⟩ := exists_cuts_of_tokens? hTokens
  obtain ⟨first, hHead, hNotMark⟩ := hFirst
  have hTail : (back ++ rest).head? ≠ some '/' := by
    intro hSame
    cases back with
    | nil =>
      rw [List.nil_append] at hSame
      rcases hRest with rfl | hRest
      · cases hSame
      · exact absurd (hRest.symm.trans hSame) (by decide)
    | cons c back =>
      obtain rfl : c = '/' := by simpa using hSame
      exact absurd (hBack '/' (List.mem_cons_self ..)) (by decide)
  have hAll : mark ++ body = (ended ((rows (mark ++ body)).take k) ++ row.takeWhile isBlank) ++
      (Text.trim row ++ (back ++ rest)) := by
    calc mark ++ body = ended ((rows (mark ++ body)).take k) ++ (row ++ rest) := hSource
      _ = ended ((rows (mark ++ body)).take k) ++
            ((row.takeWhile isBlank ++ (Text.trim row ++ back)) ++ rest) := by rw [← hTrim]
      _ = _ := by simp only [List.append_assoc]
  -- What stands in front of the line begins with the byte order mark, if there is one.
  obtain ⟨front, hFront, hBody⟩ : ∃ front,
      ended ((rows (mark ++ body)).take k) ++ row.takeWhile isBlank = mark ++ front ∧
        body = front ++ (Text.trim row ++ (back ++ rest)) := by
    rcases List.append_eq_append_iff.1 hAll with ⟨front, hFront, hBody⟩ | ⟨lost, hLost, hLine⟩
    · exact ⟨front, hFront, hBody⟩
    · cases lost with
      | nil => exact ⟨[], by simpa using hLost.symm, hLine.symm⟩
      | cons c lost =>
        obtain ⟨more, hMore⟩ := List.head?_eq_some_iff.1 hHead
        rw [hMore, List.cons_append, List.cons_append] at hLine
        obtain ⟨rfl, -⟩ := List.cons.inj hLine
        have hMem : first ∈ mark := hLost ▸ List.mem_append_right _ (List.mem_cons_self ..)
        rcases hMark with rfl | rfl
        · cases hMem
        · exact absurd (List.mem_singleton.1 hMem) hNotMark
  rw [hBody] at hCuts
  refine ⟨_, front, back ++ rest, hCuts, ?_, fun c hc => ?_, hTail⟩
  · rw [← byteLength_append, ← hFront, byteLength_append]
    rfl
  · have hLast : (ended ((rows (mark ++ body)).take k) ++ row.takeWhile isBlank).getLast? =
        some c := by
      rw [hFront, List.getLast?_append, hc, Option.some_or]
    rw [List.getLast?_append] at hLast
    cases hBlanks : (row.takeWhile isBlank).getLast? with
    | none =>
      rw [hBlanks, Option.none_or] at hLast
      rw [eq_newline_of_getLast?_ended hLast]
      decide
    | some d =>
      rw [hBlanks, Option.some_or] at hLast
      cases hLast
      exact List.mem_takeWhile_imp (List.mem_of_getLast? hBlanks)

/-- What the first mark of a line is taken for: a star goes on a comment that was begun before,
and a slash begins a comment. Of a line that is not so nothing is asked if it stands inside one
token, in a comment or in a string where the string has no pieces. -/
inductive Sincere (ts : List Token) (start : Nat) (row : List Char) : Prop
  | begins (hFirst : (Text.trim row).head? ≠ some '*')
      (hOutside : ∀ t ∈ ts, ¬t.Encloses (indented start row))
  | goesOn (hFirst : (Text.trim row).head? = some '*' ∨
        (Text.trim row).take 2 = ['/', '*'] ∧ ((Text.trim row).drop 2).head? ≠ some '/')
      (hInside : ∃ t ∈ ts, t.lexeme = .comment .blockComment ∧ t.Encloses (indented start row))
  | within (hInside : ∃ t ∈ ts, t.start < indented start row ∧
      start + byteLength row ≤ t.stop ∧ (t.isComment = true ∨ '"' ∉ row ∧ '\\' ∉ row))

instance (t : Token) (place : Nat) : Decidable (t.Encloses place) :=
  inferInstanceAs (Decidable (t.start < place ∧ place < t.stop))

theorem sincere_iff {start : Nat} : Sincere ts start row ↔
    ((Text.trim row).head? ≠ some '*' ∧ ∀ t ∈ ts, ¬t.Encloses (indented start row)) ∨
      (((Text.trim row).head? = some '*' ∨
          (Text.trim row).take 2 = ['/', '*'] ∧ ((Text.trim row).drop 2).head? ≠ some '/') ∧
        ∃ t ∈ ts, t.lexeme = .comment .blockComment ∧ t.Encloses (indented start row)) ∨
      ∃ t ∈ ts, t.start < indented start row ∧ start + byteLength row ≤ t.stop ∧
        (t.isComment = true ∨ '"' ∉ row ∧ '\\' ∉ row) := by
  constructor
  · rintro (⟨hFirst, hOutside⟩ | ⟨hFirst, hInside⟩ | hInside)
    · exact .inl ⟨hFirst, hOutside⟩
    · exact .inr (.inl ⟨hFirst, hInside⟩)
    · exact .inr (.inr hInside)
  · rintro (⟨hFirst, hOutside⟩ | ⟨hFirst, hInside⟩ | hInside)
    · exact .begins hFirst hOutside
    · exact .goesOn hFirst hInside
    · exact .within hInside

instance (start : Nat) : Decidable (Sincere ts start row) := decidable_of_iff _ sincere_iff.symm

/-- A line with nothing in it that a node of the tree could be made of: what is not blank stands in
a comment, or inside some token where no piece of it begins or ends. -/
def Idle (ts : List Token) (start : Nat) (row : List Char) : Prop :=
  ∀ front c rest, row = front ++ c :: rest → isBlank c = false →
    ∃ t ∈ ts, t.start ≤ start + byteLength front ∧ start + byteLength front < t.stop ∧
      (t.isComment = true ∨ t.start < start + byteLength front ∧ c ≠ '"' ∧ c ≠ '\\')

theorem Commented.idle {start : Nat} (h : Commented ts start row) : Idle ts start row := by
  intro front c rest hEq hc
  obtain ⟨t, ht, hComment, hStart, hStop⟩ := h front c rest hEq hc
  exact ⟨t, ht, hStart, hStop, .inl hComment⟩

theorem idle_of_within {start : Nat} {t : Token} (ht : t ∈ ts)
    (hStart : t.start < indented start row) (hStop : start + byteLength row ≤ t.stop)
    (hPlain : t.isComment = true ∨ '"' ∉ row ∧ '\\' ∉ row) : Idle ts start row := by
  intro front c rest hEq hc
  have hIndent : byteLength (row.takeWhile isBlank) ≤ byteLength front := by
    have hSplit : row.takeWhile isBlank ++ row.dropWhile isBlank = front ++ c :: rest := by
      rw [List.takeWhile_append_dropWhile, hEq]
    rcases List.append_eq_append_iff.1 hSplit with ⟨more, hFront, _⟩ | ⟨more, hBlanks, hRest⟩
    · rw [hFront, byteLength_append]
      exact Nat.le_add_right _ _
    · cases more with
      | nil => rw [hBlanks, List.append_nil]
      | cons d more =>
        obtain ⟨rfl, -⟩ := List.cons.inj hRest
        have hMem : c ∈ row.takeWhile isBlank := by simp [hBlanks]
        rw [List.mem_takeWhile_imp hMem] at hc
        cases hc
  have hPos : 0 < byteLength (c :: rest) := Cuts.byteLength_pos (List.cons_ne_nil c rest)
  have hc : c ∈ row := by simp [hEq]
  rw [hEq, byteLength_append] at hStop
  rw [indented] at hStart
  refine ⟨t, ht, by omega, by omega, hPlain.imp_right fun hMarks => ⟨by omega, ?_, ?_⟩⟩
  · rintro rfl
    exact hMarks.1 hc
  · rintro rfl
    exact hMarks.2 hc

theorem isComment_of_not_isCode {line : String} (h : (ofLine line).isCode = false)
    (hNe : Text.trim line.toList ≠ []) : Content.isComment (Text.trim line.toList) = true := by
  unfold ofLine at h
  split at h
  case h_1 hNil => exact absurd hNil hNe
  case h_2 =>
    split at h
    case isTrue => cases h
    case isFalse =>
      split at h
      case isTrue hComment => exact hComment
      case isFalse => cases h

theorem head?_of_isComment {line : List Char} (h : Content.isComment line = true) :
    line.head? = some '/' ∨ line.head? = some '*' := by
  unfold Content.isComment isCommentWithin at h
  split at h
  case h_1 => exact .inl rfl
  case h_2 => exact .inl rfl
  case h_3 => exact .inr rfl
  case h_4 => cases h

/-- What a line goes on with that is inside a comment is told by its look. -/
theorem goesOnWithin_of_isComment {line : List Char} (h : Content.isComment line = true)
    (hFirst : line.head? = some '*' ∨ line.take 2 = ['/', '*'] ∧ (line.drop 2).head? ≠ some '/') :
    goesOnWithin line.length line = true := by
  rcases hFirst with hStar | ⟨hMarks, hMore⟩
  · obtain ⟨rest, rfl⟩ := List.head?_eq_some_iff.1 hStar
    rwa [Content.isComment, isCommentWithin_star] at h
  · obtain ⟨more, rfl⟩ : ∃ more, line = '/' :: '*' :: more := by
      rw [← List.take_append_drop 2 line, hMarks]
      exact ⟨_, rfl⟩
    rw [Content.isComment, isCommentWithin_block] at h
    have hNot : ¬('*' = '*' ∧ more.head? = some '/') := fun hEnd => hMore hEnd.2
    rwa [goesOnWithin, afterComment?_cons (by simp), afterComment?_cons hNot]

theorem Token.scan?_eq_blockComment {start n : Nat} {cs : List Char} {parts : List Part}
    (h : scan? start cs = some (.comment .blockComment, n, parts)) :
    ∃ rest m, cs = '/' :: '*' :: rest ∧ Token.blockCommentTail rest = some m ∧ n = 2 + m := by
  cases scans_of_scan? h with
  | blockComment hTail => exact ⟨_, _, rfl, hTail, rfl⟩

/-- A block comment that goes on across a place. Behind the place it ends as if it had begun there,
if a blank stands in front of the place. -/
theorem Token.Cuts.Inside.blockCommentTail {base : Nat} {front rest : List Char}
    (p : Cuts.Inside base front rest ts) (hLexeme : p.token.lexeme = .comment .blockComment)
    (hBlank : ∀ c ∈ front.getLast?, isBlank c = true) :
    Token.blockCommentTail rest = some (p.length - p.inner.length) ∧
      p.token.stop = base + byteLength front +
        byteLength (rest.take (p.length - p.inner.length)) := by
  have hScan := p.scan
  rw [hLexeme] at hScan
  obtain ⟨y, m, hMarks, hEnd, hLength⟩ := scan?_eq_blockComment hScan
  have hLast : ∀ c ∈ p.inner.getLast?, isBlank c = true := by
    intro c hc
    refine hBlank c ?_
    rw [p.front_eq, List.getLast?_append, hc]
    rfl
  constructor
  · -- The opening marks are in front of the place, since a blank stands there.
    obtain ⟨x, hInner, rfl⟩ : ∃ x, p.inner = '/' :: '*' :: x ∧ y = x ++ rest := by
      rcases hCons : p.inner with _ | ⟨c, _ | ⟨d, x⟩⟩
      · exact absurd hCons p.inner_ne
      · rw [hCons] at hMarks hLast
        obtain rfl := (List.cons.inj hMarks).1
        exact absurd (hLast '/' rfl) (by decide)
      · rw [hCons] at hMarks
        obtain ⟨rfl, hMore⟩ := List.cons.inj hMarks
        obtain ⟨rfl, rfl⟩ := List.cons.inj hMore
        exact ⟨x, rfl, rfl⟩
    have hLt := p.lt_length
    have hStar : x.getLast? ≠ some '*' := by
      intro hStar
      refine absurd (hLast '*' ?_) (by decide)
      rw [hInner, List.getLast?_cons, List.getLast?_cons, hStar]
      rfl
    rw [hInner, List.length_cons, List.length_cons] at hLt ⊢
    rw [blockCommentTail_of_append hEnd (by omega) hStar]
    congr 1
    omega
  · rw [p.stop_eq, p.start_eq, byteLength_append, congrArg byteLength p.front_eq, byteLength_append]
    omega

/-- A line that the gate takes for blank or a comment holds no code if its first mark is read as
what it is taken for. -/
theorem Sincere.idle (hTokens : tokens? source = some ts) (hRow : (rows source)[k]? = some row)
    (hContent : (ofLine (String.ofList row)).isCode = false)
    (hSincere : Sincere ts (rowStart source k) row) : Idle ts (rowStart source k) row := by
  by_cases hNil : Text.trim row = []
  · exact (Commented.of_isBlank (Text.isBlank_of_trim_eq_nil hNil)).idle
  have hComment : Content.isComment (Text.trim row) = true := by
    have hLine := isComment_of_not_isCode hContent
    rw [String.toList_ofList] at hLine
    exact hLine hNil
  have hHead := head?_of_isComment hComment
  have hMark : ∃ c ∈ (Text.trim row).head?, c ≠ '\uFEFF' := by
    rcases hHead with hHead | hHead
    · exact ⟨'/', hHead, by decide⟩
    · exact ⟨'*', hHead, by decide⟩
  obtain ⟨base, front, tail, hCuts, hPlace, hBlank, hTail⟩ := exists_cuts_row hTokens hRow hMark
  obtain ⟨back, hTrim, hBack, _⟩ := Text.exists_eq_trim row
  have hNewline : '\n' ∉ Text.trim row := by
    intro hMem
    refine newline_not_mem_of_mem_rows (List.mem_of_getElem? hRow) ?_
    rw [hTrim]
    exact List.mem_append_right _ (List.mem_append_left _ hMem)
  -- It is enough to look at what is left of the line without blanks.
  have hRest (h : Commented ts (indented (rowStart source k) row) (Text.trim row)) :
      Idle ts (rowStart source k) row := by
    refine Commented.idle ?_
    rw [hTrim]
    exact .append (.of_isBlank fun c => List.mem_takeWhile_imp) (.append h (.of_isBlank hBack))
  cases hSincere with
  | within hInside =>
    obtain ⟨t, ht, hStart, hStop, hPlain⟩ := hInside
    exact idle_of_within ht hStart hStop hPlain
  | begins hFirst hOutside =>
    refine hRest ?_
    rw [← hPlace] at hOutside ⊢
    rcases hCuts.locate with ⟨before, after, rfl, _, hAfter⟩ | ⟨⟨p⟩⟩
    · refine (sound _ hAfter hNewline hTail (hHead.resolve_right hFirst) hComment).mono ?_
      exact List.subset_append_right before after
    · exact absurd p.encloses (hOutside _ p.mem)
  | goesOn hFirst hInside =>
    refine hRest ?_
    obtain ⟨t, ht, hLexeme, hEncloses⟩ := hInside
    rw [← hPlace] at hEncloses ⊢
    rcases hCuts.locate with ⟨before, after, hEq, hBefore, hAfter⟩ | ⟨⟨p⟩⟩
    · rw [hEq] at ht
      rcases List.mem_append.1 ht with ht | ht
      · exact absurd (hBefore t ht) (Nat.not_le.2 hEncloses.2)
      · exact absurd (hAfter.ordered.1 t ht).1 (Nat.not_le.2 hEncloses.1)
    · have hSame : p.token = t := hCuts.eq_of_encloses p.mem ht p.encloses hEncloses
      have hEnd := p.blockCommentTail (hSame ▸ hLexeme) hBlank
      have hToken : p.token.isComment = true := by rw [hSame, Token.isComment, hLexeme]
      exact commented_of_goesOnWithin (sound _) p.mem hToken (Nat.le_of_lt p.encloses.1) hEnd.1
        hEnd.2 p.cuts p.after_subset hNewline hTail (goesOnWithin_of_isComment hComment hFirst)

end Row

end Java

end ChangeSplit
