import ChangeSplit.Proofs.Text.Quoted
import ChangeSplit.Report
import Mathlib.Data.List.Forall2

/-! Reading data undoes writing it. A written text is read up to its own quotation mark and no
further, so written texts, lists and records can be put next to each other, on lines of their own
and in each other. -/

namespace ChangeSplit.Data

open Report (escaped escapedUnit)

/-- A written unit is read as it was. -/
theorem units?_escapedUnit {n : Nat} (h : n < 0x10000) (rest : List Char) :
    units? (escapedUnit n ++ rest) = (units? rest).map fun p => (n :: p.1, p.2) := by
  have hLength := Text.length_hexadecimal 3 h
  have hValue := Text.hexadecimal?_hexadecimal 3 h
  obtain ⟨a, b, c, d, hDigits⟩ := List.length_eq_four.1 hLength
  rw [hDigits] at hValue
  simp only [escapedUnit, hDigits, List.cons_append, List.nil_append]
  rw [units?, hValue]
  cases units? rest <;> rfl

/-- The units that make up a character. -/
def unitsOf (c : Char) : List Nat :=
  if c.toNat < 0x10000 then [c.toNat]
  else [0xD800 + (c.toNat - 0x10000) / 0x400, 0xDC00 + (c.toNat - 0x10000) % 0x400]

theorem characters?_cons {n : Nat} (hUpper : isUpperHalf n = false)
    (hLower : isLowerHalf n = false) (units : List Nat) :
    characters? (n :: units) = (characters? units).map (Char.ofNat n :: ·) := by
  cases units <;> simp [characters?, hUpper, hLower]

theorem characters?_unitsOf (c : Char) (units : List Nat) :
    characters? (unitsOf c ++ units) = (characters? units).map (c :: ·) := by
  have hChar := Text.toNat_cases c
  unfold unitsOf
  split
  case isTrue h =>
    have hUpper : isUpperHalf c.toNat = false := by
      simp only [isUpperHalf, Bool.and_eq_false_iff, decide_eq_false_iff_not]
      omega
    have hLower : isLowerHalf c.toNat = false := by
      simp only [isLowerHalf, Bool.and_eq_false_iff, decide_eq_false_iff_not]
      omega
    rw [List.cons_append, List.nil_append, characters?_cons hUpper hLower, Char.ofNat_toNat]
  case isFalse h =>
    generalize hMore : c.toNat - 0x10000 = n
    have hUpper : isUpperHalf (0xD800 + n / 0x400) = true := by
      simp only [isUpperHalf, Bool.and_eq_true, decide_eq_true_eq]
      omega
    have hLower : isLowerHalf (0xDC00 + n % 0x400) = true := by
      simp only [isLowerHalf, Bool.and_eq_true, decide_eq_true_eq]
      omega
    have hSum : 0x10000 + (0xD800 + n / 0x400 - 0xD800) * 0x400 + (0xDC00 + n % 0x400 - 0xDC00) =
        c.toNat := by omega
    rw [List.cons_append, List.cons_append, List.nil_append, characters?, if_pos hUpper,
      if_pos hLower, hSum, Char.ofNat_toNat]

theorem units?_shorthand {letter d : Char} (h : shorthand? letter = some d) (rest : List Char) :
    units? ('\\' :: letter :: rest) = (units? rest).map fun p => (d.toNat :: p.1, p.2) := by
  have hLetter : letter ≠ 'u' := by
    rintro rfl
    cases h
  rw [units?]
  · rw [h]
    cases units? rest <;> rfl
  · rintro _ _ _ _ _ rfl
    exact absurd rfl hLetter

theorem units?_plain {c : Char} (hQuote : c ≠ '"') (hBackslash : c ≠ '\\') (h : ¬ c < ' ')
    (rest : List Char) : units? (c :: rest) = (units? rest).map fun p => (c.toNat :: p.1, p.2) := by
  rw [units?, if_neg h]
  all_goals simp [hQuote, hBackslash]

/-- A written character is read as its units, whatever way it is written. -/
theorem units?_escaped (c : Char) (rest : List Char) :
    units? (escaped c ++ rest) = (units? rest).map fun p => (unitsOf c ++ p.1, p.2) := by
  have hChar := Text.toNat_cases c
  unfold escaped
  split_ifs with hMark hLine hReturn hTab hPage hBack hVisible hUnit
  · rcases Bool.or_eq_true_iff.1 hMark with h | h
    · obtain rfl := of_decide_eq_true h
      exact units?_shorthand rfl rest
    · obtain rfl := of_decide_eq_true h
      exact units?_shorthand rfl rest
  · subst hLine
    exact units?_shorthand rfl rest
  · subst hReturn
    exact units?_shorthand rfl rest
  · subst hTab
    exact units?_shorthand rfl rest
  · subst hPage
    exact units?_shorthand rfl rest
  · subst hBack
    exact units?_shorthand rfl rest
  · -- What shows as itself is neither a mark nor a control character, and has a single unit.
    obtain ⟨hLow, hHigh⟩ := Bool.and_eq_true_iff.1 hVisible
    have hHigh : c.toNat ≤ '~'.toNat := of_decide_eq_true hHigh
    have hUnits : unitsOf c = [c.toNat] := if_pos (Nat.lt_of_le_of_lt hHigh (by decide))
    obtain ⟨hQuote, hBackslash⟩ : c ≠ '"' ∧ c ≠ '\\' := by simpa using hMark
    rw [hUnits]
    exact units?_plain hQuote hBackslash (Char.not_lt.2 (of_decide_eq_true hLow)) rest
  · rw [units?_escapedUnit hUnit, unitsOf, if_pos hUnit]
    rfl
  · rw [unitsOf, if_neg hUnit, List.append_assoc, units?_escapedUnit (by omega),
      units?_escapedUnit (by omega), Option.map_map]
    rfl

theorem units?_flatMap_escaped (s rest : List Char) :
    units? (s.flatMap escaped ++ '"' :: rest) = some (s.flatMap unitsOf, rest) := by
  induction s with
  | nil => rfl
  | cons c s ih =>
      rw [List.flatMap_cons, List.append_assoc, units?_escaped, ih]
      rfl

theorem characters?_flatMap_unitsOf (s : List Char) :
    characters? (s.flatMap unitsOf) = some s := by
  induction s with
  | nil => rfl
  | cons c s ih =>
      rw [List.flatMap_cons, characters?_unitsOf, ih]
      rfl

section Layout

variable {α : Type} {item? : List Char → Option (α × List Char)} {last : Char}

/-- The marks with which texts, lists and records begin. -/
def openings : List Char := ['"', '[', '\x7b']

/-- The marks with which lists and records end. -/
def closings : List Char := [']', '\x7d']

theorem isGap_opening : ∀ c ∈ openings, isGap c = false := by simp [openings, isGap]

theorem isGap_closing : ∀ c ∈ closings, isGap c = false := by simp [closings, isGap]

theorem opening_ne_closing : ∀ c ∈ openings, ∀ d ∈ closings, c ≠ d := by
  simp [openings, closings]

theorem comma_ne_closing : ∀ c ∈ closings, ',' ≠ c := by simp [closings]

/-- A text is read as a piece, whatever follows it. A mark that opens a piece stands in front. -/
structure Spells (item? : List Char → Option (α × List Char)) (cs : List Char) (a : α) :
    Prop where
  opens : ∃ c ∈ openings, cs.head? = some c
  reads : ∀ rest, item? (cs ++ rest) = some (a, rest)

theorem skip_cons {gap : List Char} (hGap : ∀ c ∈ gap, isGap c = true) {c : Char}
    (hc : isGap c = false) (rest : List Char) : skip (gap ++ c :: rest) = c :: rest := by
  rw [skip, List.dropWhile_append_of_pos hGap, List.dropWhile_cons_of_neg]
  simp [hc]

/-- Only a gap is skipped, and no piece begins with one. -/
theorem Spells.skip_eq {cs gap : List Char} {a : α} (h : Spells item? cs a)
    (hGap : ∀ c ∈ gap, isGap c = true) (rest : List Char) :
    skip (gap ++ (cs ++ rest)) = cs ++ rest := by
  obtain ⟨c, hc, hHead⟩ := h.opens
  obtain ⟨more, rfl⟩ := List.head?_eq_some_iff.1 hHead
  exact skip_cons hGap (isGap_opening c hc) _

/-- The first of some pieces comes first, whatever stands between them. -/
theorem skip_pieces {parts : List (List Char)} {values : List α}
    (h : List.Forall₂ (Spells item?) parts values) (hSome : parts ≠ []) {gap : List Char}
    (hGap : ∀ c ∈ gap, isGap c = true) (between rest : List Char) :
    ∃ c ∈ openings, ∃ more, skip (gap ++ (between.intercalate parts ++ rest)) = c :: more := by
  cases h with
  | nil => exact absurd rfl hSome
  | @cons part a parts values hPart _ =>
      have hFirst : ∃ more, between.intercalate (part :: parts) = part ++ more := by
        cases parts with
        | nil => exact ⟨[], by rw [List.intercalate_singleton, List.append_nil]⟩
        | cons => exact ⟨_, by rw [List.intercalate_cons_cons, List.append_assoc]⟩
      obtain ⟨more, hFirst⟩ := hFirst
      obtain ⟨c, hc, hHead⟩ := hPart.opens
      obtain ⟨inner, rfl⟩ := List.head?_eq_some_iff.1 hHead
      rw [hFirst, List.append_assoc, hPart.skip_eq hGap]
      exact ⟨c, hc, _, rfl⟩

/-- Pieces on lines of their own are read one after the other, by induction on the pieces. Each of
them takes a line off the text, which is what bounds the number of pieces. -/
theorem separated?_lines {parts : List (List Char)} {values : List α}
    (h : List.Forall₂ (Spells item?) parts values) (hSome : parts ≠ [])
    (hLast : last ∈ closings) {gap closing : List Char} (hGap : ∀ c ∈ gap, isGap c = true)
    (hClosing : ∀ c ∈ closing, isGap c = true) (rest : List Char) {count : Nat}
    (hCount : (gap ++ ((',' :: gap).intercalate parts ++ (closing ++ last :: rest))).length ≤
      count) :
    separated? item? last count
        (gap ++ ((',' :: gap).intercalate parts ++ (closing ++ last :: rest))) =
      some (values, rest) := by
  induction h generalizing count with
  | nil => exact absurd rfl hSome
  | @cons part a parts values hPart hParts ih =>
      obtain ⟨count, rfl⟩ : ∃ k, count = k + 1 := by
        refine ⟨count - 1, ?_⟩
        simp only [List.length_append, List.length_cons] at hCount
        omega
      cases hParts with
      | nil =>
          rw [List.intercalate_singleton, separated?, hPart.skip_eq hGap, hPart.reads]
          simp only [skip_cons hClosing (isGap_closing last hLast), if_true]
      | @cons next b parts values hNext hRest =>
          rw [List.intercalate_cons_cons, List.append_assoc, List.append_assoc] at hCount ⊢
          have hComma (more : List Char) : skip (',' :: more) = ',' :: more :=
            skip_cons (List.forall_mem_nil _) (by decide) more
          have hShorter := @ih (List.cons_ne_nil _ _) count (by
            simp only [List.length_append, List.length_cons] at hCount ⊢
            omega)
          rw [separated?, hPart.skip_eq hGap, hPart.reads]
          simp only [List.cons_append, hComma, if_neg (comma_ne_closing last hLast), if_true,
            hShorter, Option.map_some]

/-- The line end and the blanks in front of a piece on a line of its own. -/
def lineGap (columns : Nat) : List Char := '\n' :: List.replicate columns ' '

theorem isGap_of_mem_lineGap (columns : Nat) : ∀ c ∈ lineGap columns, isGap c = true := by
  refine List.forall_mem_cons.2 ⟨by decide, fun c hc => ?_⟩
  rw [List.eq_of_mem_replicate hc]
  decide

theorem toList_block {first last : String} {indent : Nat} {parts : List String}
    (hSome : parts ≠ []) :
    (Report.block first last indent parts).toList =
      first.toList ++ (lineGap (indent + 2) ++
        ((',' :: lineGap (indent + 2)).intercalate (parts.map String.toList) ++
          (lineGap indent ++ last.toList))) := by
  have hParts : parts.isEmpty = false := by simpa using hSome
  simp [Report.block, hParts, lineGap, String.toList_intercalate]

/-- The pieces of a block are read up to the mark that ends it. -/
theorem enclosed?_block {parts : List String} {values : List α}
    (h : List.Forall₂ (Spells item?) (parts.map String.toList) values) (hLast : last ∈ closings)
    {mark other : String} {first : Char} (hMark : mark.toList = [first])
    (hOther : other.toList = [last]) (indent : Nat) :
    ∃ inner, (Report.block mark other indent parts).toList = first :: inner ∧
      ∀ rest, enclosed? item? last (inner ++ rest) = some (values, rest) := by
  by_cases hSome : parts = []
  · subst hSome
    cases h
    refine ⟨[last], by simp [Report.block, hMark, hOther], fun rest => ?_⟩
    have hSkip := skip_cons (List.forall_mem_nil _) (isGap_closing last hLast) rest
    rw [List.nil_append] at hSkip
    rw [enclosed?, List.singleton_append, hSkip]
    simp
  · have hParts : parts.map String.toList ≠ [] := by simpa using hSome
    rw [toList_block hSome, hMark, hOther]
    refine ⟨_, List.singleton_append, fun rest => ?_⟩
    simp only [List.append_assoc, List.singleton_append]
    obtain ⟨c, hc, more, hSkip⟩ := skip_pieces h hParts
      (isGap_of_mem_lineGap (indent + 2)) (',' :: lineGap (indent + 2))
      (lineGap indent ++ last :: rest)
    rw [enclosed?, hSkip]
    simp only [if_neg (opening_ne_closing c hc last hLast)]
    exact separated?_lines h hParts hLast (isGap_of_mem_lineGap _) (isGap_of_mem_lineGap _) rest
      (Nat.le_refl _)

end Layout

section Pieces

variable {depth indent : Nat}

/-- A written text is read as it was. -/
theorem text?_dataString (s : String) :
    ∃ inner, (Report.dataString s).toList = '"' :: inner ∧
      ∀ rest, text? (inner ++ rest) = some (s, rest) := by
  refine ⟨s.toList.flatMap escaped ++ ['"'], by simp [Report.dataString], fun rest => ?_⟩
  rw [List.append_assoc, List.singleton_append, text?, units?_flatMap_escaped]
  simp only [characters?_flatMap_unitsOf, Option.map_some, String.ofList_toList]

/-- A character past sixteen bits is read from two units. -/
example : text? "\\n\\ud834\\udd1e\": []".toList = some ("\n𝄞", ": []".toList) := by
  decide +kernel

theorem spells_dataString (s : String) :
    Spells (value? (depth + 1)) (Report.dataString s).toList (.text s) := by
  obtain ⟨inner, hText, hRead⟩ := text?_dataString s
  rw [hText]
  refine ⟨⟨'"', by decide, rfl⟩, fun rest => ?_⟩
  rw [List.cons_append, value?, hRead]
  rfl

theorem spells_list {parts : List String} {items : List Value}
    (h : List.Forall₂ (Spells (value? depth)) (parts.map String.toList) items) :
    Spells (value? (depth + 1)) (Report.block "[" "]" indent parts).toList (.list items) := by
  have hFirst : "[".toList = ['['] := rfl
  have hLast : "]".toList = [']'] := rfl
  obtain ⟨inner, hBlock, hRead⟩ := enclosed?_block h (by decide) hFirst hLast indent
  rw [hBlock]
  refine ⟨⟨'[', by decide, rfl⟩, fun rest => ?_⟩
  rw [List.cons_append, value?, hRead]
  rfl

theorem spells_member {text : String} {v : Value} (h : Spells (value? depth) text.toList v)
    (name : String) :
    Spells (member? (value? depth)) (Report.dataString name ++ ": " ++ text).toList (name, v) := by
  obtain ⟨inner, hName, hRead⟩ := text?_dataString name
  rw [String.toList_append, String.toList_append, hName]
  refine ⟨⟨'"', by decide, rfl⟩, fun rest => ?_⟩
  have hColon (more : List Char) : skip (':' :: more) = ':' :: more :=
    skip_cons (List.forall_mem_nil _) (by decide) more
  have hSkip : skip ([' '] ++ (text.toList ++ rest)) = text.toList ++ rest :=
    h.skip_eq (List.forall_mem_singleton.2 rfl) rest
  rw [List.singleton_append] at hSkip
  have hBetween : ": ".toList = [':', ' '] := rfl
  simp only [hBetween, List.cons_append, List.append_assoc, List.nil_append, member?, hRead,
    hColon, hSkip, h.reads, Option.map_some]

theorem spells_record {parts : List String} {members : List (String × Value)}
    (h : List.Forall₂ (Spells (member? (value? depth))) (parts.map String.toList) members) :
    Spells (value? (depth + 1)) (Report.block "\x7b" "\x7d" indent parts).toList
      (.record members) := by
  have hFirst : "\x7b".toList = ['\x7b'] := rfl
  have hLast : "\x7d".toList = ['\x7d'] := rfl
  obtain ⟨inner, hBlock, hRead⟩ := enclosed?_block h (by decide) hFirst hLast indent
  rw [hBlock]
  refine ⟨⟨'\x7b', by decide, rfl⟩, fun rest => ?_⟩
  rw [List.cons_append, value?, hRead]
  rfl

end Pieces

end ChangeSplit.Data
