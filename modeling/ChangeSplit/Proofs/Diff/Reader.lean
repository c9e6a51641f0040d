import ChangeSplit.Diff.Reader
import ChangeSplit.Proofs.Diff.HunkName
import Mathlib.Data.List.Nodup

/-! What each part of the reader makes of text that begins the way it should, whatever follows. A
stretch of lines is read apart from the stretches after it. -/

namespace ChangeSplit.Content

theorem after?_append (word rest : List Char) : after? word (word ++ rest) = some rest := by
  simp [after?]

end ChangeSplit.Content

namespace ChangeSplit.Diff

open Category Content Numeral

theorem cutBefore_append {test : List Char → Bool} {front : List (List Char)}
    (h : ∀ l ∈ front, test l = false) (rest : List (List Char)) :
    cutBefore test (front ++ rest) =
      (front ++ (cutBefore test rest).1, (cutBefore test rest).2) := by
  induction front with
  | nil => rfl
  | cons l front ih =>
      have hl : test l = false := h l (List.mem_cons_self ..)
      simp [cutBefore, hl, ih fun m hm => h m (List.mem_cons_of_mem _ hm)]

/-- Pieces put one after another are cut apart again, if just their first lines pass the test. -/
theorem cutBefore_flatMap {test : List Char → Bool} {pieces : List (List Char × List (List Char))}
    (h : ∀ p ∈ pieces, test p.1 = true ∧ ∀ l ∈ p.2, test l = false) :
    cutBefore test (pieces.flatMap fun p => p.1 :: p.2) = ([], pieces) := by
  induction pieces with
  | nil => rfl
  | cons p pieces ih =>
      obtain ⟨hFirst, hOthers⟩ := h p (List.mem_cons_self ..)
      have hRest := ih fun q hq => h q (List.mem_cons_of_mem _ hq)
      rw [List.flatMap_cons, List.cons_append, cutBefore, cutBefore_append hOthers, hRest]
      simp [hFirst]

theorem begins_append (word : String) (rest : List Char) :
    begins word (word.toList ++ rest) = true := by
  simp [begins]

section Header

theorem isDigit_of_mem_toDigits {n : Nat} {c : Char} (h : c ∈ Nat.toDigits 10 n) :
    isDigit c = true := by
  have hc := Nat.isDigit_of_mem_toDigits (by decide) (by decide) h
  rw [isDigit, digitValue?_of_isDigit hc]
  rfl

theorem ofDigits_filterMap_toDigits (n : Nat) :
    ofDigits ((Nat.toDigits 10 n).filterMap digitValue?) = n := by
  have hValues : (Nat.toDigits 10 n).filterMap digitValue? =
      (Nat.toDigits 10 n).map (·.toNat - 48) := by
    rw [← List.filterMap_eq_map]
    apply List.filterMap_congr
    intro c hc
    exact digitValue?_of_isDigit (Nat.isDigit_of_mem_toDigits (by decide) (by decide) hc)
  rw [hValues, ofDigits_map]
  simp

variable {rest : List Char} (hRest : ∀ c, rest.head? = some c → isDigit c = false)
include hRest

theorem takeWhile_toDigits_append (n : Nat) :
    (Nat.toDigits 10 n ++ rest).takeWhile isDigit = Nat.toDigits 10 n := by
  rw [List.takeWhile_append_of_pos fun c hc => isDigit_of_mem_toDigits hc]
  cases rest with
  | nil => simp
  | cons c rest => simp [hRest c rfl]

theorem dropWhile_toDigits_append (n : Nat) :
    (Nat.toDigits 10 n ++ rest).dropWhile isDigit = rest := by
  rw [List.dropWhile_append_of_pos fun c hc => isDigit_of_mem_toDigits hc]
  cases rest with
  | nil => simp
  | cons c rest => simp [hRest c rfl]

theorem readRange?_toDigits_comma (n m : Nat) :
    readRange? (Nat.toDigits 10 n ++ ',' :: (Nat.toDigits 10 m ++ rest)) = some (n, rest) := by
  have hComma : ∀ c, (',' :: (Nat.toDigits 10 m ++ rest)).head? = some c → isDigit c = false := by
    intro c hc
    cases hc
    decide
  rw [readRange?, takeWhile_toDigits_append hComma, dropWhile_toDigits_append hComma]
  simp [takeWhile_toDigits_append hRest, dropWhile_toDigits_append hRest,
    ofDigits_filterMap_toDigits]

theorem readRange?_toDigits (hComma : rest.head? ≠ some ',') (n : Nat) :
    readRange? (Nat.toDigits 10 n ++ rest) = some (n, rest) := by
  rw [readRange?, takeWhile_toDigits_append hRest, dropWhile_toDigits_append hRest]
  cases rest with
  | nil => simp [ofDigits_filterMap_toDigits]
  | cons c rest =>
      have hc : c ≠ ',' := by simpa using hComma
      simp [ofDigits_filterMap_toDigits, hc]

end Header

section Body

variable {own other : Char}

/-- Lines with the own mark are numbered on, and what follows is read from the next number on. -/
theorem gather_own (hOwn : own ≠ '\\') (number : Nat) (ls rest : List (List Char)) :
    gather own other number (ls.map (own :: ·) ++ rest) =
      (List.range' number ls.length).zip (ls.map String.ofList) ++
        gather own other (number + ls.length) rest := by
  induction ls generalizing number with
  | nil => simp
  | cons l ls ih =>
      have hRemark : isRemark (own :: l) = false := by
        simp [isRemark, begins, List.isPrefixOf, hOwn.symm]
      have hNumber : number + 1 + ls.length = number + (ls.length + 1) := by omega
      simp [gather, hRemark, ih (number + 1), List.range'_succ, hNumber]

theorem gather_other (hOther : other ≠ '\\') (hNe : own ≠ other) (number : Nat)
    (ls rest : List (List Char)) :
    gather own other number (ls.map (other :: ·) ++ rest) = gather own other number rest := by
  induction ls with
  | nil => rfl
  | cons l ls ih =>
      have hRemark : isRemark (other :: l) = false := by
        simp [isRemark, begins, List.isPrefixOf, hOther.symm]
      simpa [gather, hRemark, hNe.symm] using ih

theorem gather_remark {line : List Char} (h : isRemark line = true) (number : Nat)
    (rest : List (List Char)) :
    gather own other number (line :: rest) = gather own other number rest := by
  simp [gather, h]

theorem sideOf_zip {number : Nat} {ls : List String} (hNil : ls ≠ []) :
    sideOf ((List.range' number ls.length).zip ls) =
      ⟨number, number + ls.length - 1, ls⟩ := by
  have hNumbers : ((List.range' number ls.length).zip ls).map (fun x => (x.1 : Int)) =
      (List.range' number ls.length).map (↑) := by
    show ((List.range' number ls.length).zip ls).map (Nat.cast ∘ Prod.fst) = _
    rw [← List.map_map, List.map_fst_zip (by simp)]
  have hLength : 0 < ls.length := List.length_pos_iff.2 hNil
  have hLast : ((number + ls.length - 1 : Nat) : Int) = number + ls.length - 1 := by omega
  rw [sideOf, ← List.head?_map, ← List.getLast?_map, hNumbers]
  simp [List.head?_range', List.getLast?_range', List.map_snd_zip, hNil, hLast]

end Body

end ChangeSplit.Diff
