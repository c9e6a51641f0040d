import ChangeSplit.Data.Reader
import ChangeSplit.Text.Quoted
import Mathlib.Algebra.Ring.Nat
import Mathlib.Tactic.SplitIfs

/-! Reading texts as messages show them. A number in base sixteen is read from its digits, a
character from its escape, and a text up to the quote that ends it, so messages that show texts
tell which they are. -/

namespace ChangeSplit.Text

open Data (digitValue? hexadecimal?)

section Hexadecimal

variable {n : Nat}

theorem digitValue?_digitChar : ∀ d < 16, digitValue? (Nat.digitChar d) = some d := by decide

theorem hexadecimal_one (h : n < 16) : hexadecimal 1 n = [Nat.digitChar n] := by
  simp [hexadecimal, Nat.toDigits_of_lt_base h]

/-- A number of two digits or more ends in its last digit. One with fewer has a zero in front. -/
theorem hexadecimal_succ (width n : Nat) :
    hexadecimal (width + 2) n = hexadecimal (width + 1) (n / 16) ++ [Nat.digitChar (n % 16)] := by
  unfold hexadecimal
  rw [Nat.toDigits_eq_if (n := n) (by decide)]
  split
  case isTrue h =>
    have hZero : n / 16 = 0 := by omega
    simp [hZero, Nat.mod_eq_of_lt h, Nat.toDigits_zero, List.replicate_succ']
  case isFalse h => simp

/-- A number is written with so many digits if it has no more. -/
theorem length_hexadecimal (width : Nat) (h : n < 16 ^ (width + 1)) :
    (hexadecimal (width + 1) n).length = width + 1 := by
  induction width generalizing n with
  | zero => rw [hexadecimal_one h, List.length_singleton]
  | succ width ih =>
      rw [hexadecimal_succ, List.length_append, ih (Nat.div_lt_of_lt_mul (Nat.pow_succ' ▸ h)),
        List.length_singleton]

theorem hexadecimal?_hexadecimal (width : Nat) (h : n < 16 ^ (width + 1)) :
    hexadecimal? (hexadecimal (width + 1) n) = some n := by
  induction width generalizing n with
  | zero =>
      rw [hexadecimal_one h, hexadecimal?]
      simp [digitValue?_digitChar n h]
  | succ width ih =>
      have hFront := ih (Nat.div_lt_of_lt_mul (Nat.pow_succ' ▸ h))
      have hLast := digitValue?_digitChar (n % 16) (Nat.mod_lt _ (by decide))
      rw [hexadecimal?] at hFront ⊢
      rw [hexadecimal_succ, List.foldlM_append, hFront]
      simp [hLast, Nat.div_add_mod]

theorem exists_digit_of_mem_hexadecimal (width : Nat) (h : n < 16 ^ (width + 1)) {c : Char}
    (hc : c ∈ hexadecimal (width + 1) n) : ∃ d < 16, c = Nat.digitChar d := by
  induction width generalizing n with
  | zero =>
      rw [hexadecimal_one h, List.mem_singleton] at hc
      exact ⟨n, h, hc⟩
  | succ width ih =>
      rw [hexadecimal_succ, List.mem_append, List.mem_singleton] at hc
      rcases hc with hFront | hLast
      · exact ih (Nat.div_lt_of_lt_mul (Nat.pow_succ' ▸ h)) hFront
      · exact ⟨n % 16, Nat.mod_lt _ (by decide), hLast⟩

end Hexadecimal

/-- No character is half of another, and none lies past the last one. -/
theorem toNat_cases (c : Char) :
    c.toNat < 0xD800 ∨ 0xE000 ≤ c.toNat ∧ c.toNat < 0x110000 := by
  rcases c.valid with h | ⟨hLow, hHigh⟩
  · exact .inl h
  · exact .inr ⟨hLow, hHigh⟩

section Quotes

/-- The number of digits behind a letter behind a backslash. -/
def digitCount? : Char → Option Nat
  | 'x' => some 2
  | 'u' => some 4
  | 'U' => some 8
  | _ => none

/-- The character that any other letter stands for behind a backslash. -/
def unescaped : Char → Char
  | 't' => '\t'
  | 'n' => '\n'
  | 'r' => '\r'
  | c => c

/-- The character that comes first between quotes, and what follows. -/
def shown? : List Char → Option (Char × List Char)
  | [] => none
  | '\\' :: letter :: rest =>
    match digitCount? letter with
    | some count => (hexadecimal? (rest.take count)).map fun n => (Char.ofNat n, rest.drop count)
    | none => some (unescaped letter, rest)
  | c :: rest => some (c, rest)

theorem shown?_escapeNumber (c : Char) (rest : List Char) :
    shown? (escapeNumber c.toNat ++ rest) = some (c, rest) := by
  have hRead {letter : Char} {width : Nat} (hCount : digitCount? letter = some (width + 1))
      (h : c.toNat < 16 ^ (width + 1)) :
      shown? ('\\' :: letter :: hexadecimal (width + 1) c.toNat ++ rest) = some (c, rest) := by
    have hLength := length_hexadecimal width h
    simp only [List.cons_append, shown?, hCount, List.take_left' hLength, List.drop_left' hLength,
      hexadecimal?_hexadecimal width h, Option.map_some, Char.ofNat_toNat]
  unfold escapeNumber
  split_ifs with hTwo hFour
  · exact hRead rfl hTwo
  · exact hRead rfl hFour
  · have hChar := toNat_cases c
    exact hRead rfl (by omega)

/-- The marks that stand around a text. -/
def quotes : List Char := ['\'', '"']

theorem shown?_quotedChar {quote : Char} (hQuote : quote ∈ quotes) (c : Char) (rest : List Char) :
    shown? (quotedChar quote c ++ rest) = some (c, rest) := by
  have hMarks : ∀ d ∈ '\\' :: quotes, digitCount? d = none ∧ unescaped d = d := by
    simp [quotes, digitCount?, unescaped]
  unfold quotedChar
  split_ifs with hMark hTab hLine hReturn hVisible
  · have hc : c ∈ '\\' :: quotes := by
      rcases Bool.or_eq_true_iff.1 hMark with h | h
      · rw [of_decide_eq_true h]
        exact List.mem_cons_of_mem _ hQuote
      · rw [of_decide_eq_true h]
        exact List.mem_cons_self
    obtain ⟨hCount, hSame⟩ := hMarks c hc
    simp only [List.cons_append, List.nil_append, shown?, hCount, hSame]
  · subst hTab
    rfl
  · subst hLine
    rfl
  · subst hReturn
    rfl
  · have hBackslash : c ≠ '\\' := fun h => hMark (by simp [h])
    rw [List.singleton_append, shown?]
    rintro letter rest rfl rfl
    exact absurd rfl hBackslash
  · exact shown?_escapeNumber c rest

/-- No character is written with a quote in front, so a quote ends the text. -/
theorem quotedChar_append_ne {quote : Char} (hQuote : quote ∈ quotes) (c : Char)
    (more rest : List Char) : quotedChar quote c ++ more ≠ quote :: rest := by
  intro h
  have hPlain : ∀ d ∈ quotes, d ≠ '\\' := by simp [quotes]
  have hShown : shown? (quote :: rest) = some (quote, rest) := by
    rw [shown?]
    rintro letter rest rfl rfl
    exact absurd rfl (hPlain _ hQuote)
  rw [← h, shown?_quotedChar hQuote] at hShown
  cases hShown
  rw [quotedChar, decide_eq_true rfl, Bool.true_or, if_pos rfl] at h
  exact hPlain _ hQuote (List.cons.inj h).1.symm

/-- The characters between quotes are told from what is written, whatever follows. -/
theorem flatMap_quotedChar_inj {quote : Char} (hQuote : quote ∈ quotes)
    {cs ds rest others : List Char}
    (h : cs.flatMap (quotedChar quote) ++ quote :: rest =
      ds.flatMap (quotedChar quote) ++ quote :: others) : cs = ds ∧ rest = others := by
  induction cs generalizing ds with
  | nil =>
      cases ds with
      | nil => exact ⟨rfl, (List.cons.inj h).2⟩
      | cons d ds =>
          rw [List.flatMap_cons, List.append_assoc] at h
          exact absurd h.symm (quotedChar_append_ne hQuote d _ _)
  | cons c cs ih =>
      cases ds with
      | nil =>
          rw [List.flatMap_cons, List.append_assoc] at h
          exact absurd h (quotedChar_append_ne hQuote c _ _)
      | cons d ds =>
          rw [List.flatMap_cons, List.flatMap_cons, List.append_assoc, List.append_assoc] at h
          have hShown := congrArg shown? h
          rw [shown?_quotedChar hQuote, shown?_quotedChar hQuote] at hShown
          obtain ⟨rfl, hRest⟩ := Prod.mk.inj (Option.some.inj hShown)
          obtain ⟨rfl, rfl⟩ := ih hRest
          exact ⟨rfl, rfl⟩

theorem toList_quoted (s : String) :
    ∃ quote ∈ quotes, (quoted s).toList =
      quote :: (s.toList.flatMap (quotedChar quote) ++ [quote]) := by
  unfold quoted
  extract_lets cs quote
  refine ⟨quote, ?_, String.toList_ofList⟩
  unfold quote
  split_ifs
  · decide
  · decide

/-- Two texts between quotes begin alike only if they are the same. -/
theorem quoted_append_inj {s t : String} {rest others : List Char}
    (h : (quoted s).toList ++ rest = (quoted t).toList ++ others) : s = t ∧ rest = others := by
  obtain ⟨quote, hQuote, hs⟩ := toList_quoted s
  obtain ⟨other, -, ht⟩ := toList_quoted t
  rw [hs, ht, List.cons_append, List.cons_append, List.append_assoc, List.append_assoc] at h
  obtain ⟨rfl, h⟩ := List.cons.inj h
  obtain ⟨hText, hRest⟩ := flatMap_quotedChar_inj hQuote h
  exact ⟨String.toList_injective hText, hRest⟩

/-- What stands behind the first text of a list. -/
def listTail (items : List String) : List Char :=
  items.flatMap (fun s => ',' :: ' ' :: (quoted s).toList) ++ [']']

theorem toList_quotedList_cons (s : String) (items : List String) :
    (quotedList (s :: items)).toList = '[' :: ((quoted s).toList ++ listTail items) := by
  have hParts (s : String) (items : List String) :
      [',', ' '].intercalate ((s :: items).map fun s => (quoted s).toList) =
        (quoted s).toList ++ items.flatMap fun s => ',' :: ' ' :: (quoted s).toList := by
    induction items generalizing s with
    | nil => simp
    | cons t items ih =>
        simp only [List.map_cons] at ih ⊢
        rw [List.intercalate_cons_cons, ih]
        simp
  have hMap : ((s :: items).map quoted).map String.toList =
      (s :: items).map fun s => (quoted s).toList := List.map_map
  have hComma : ", ".toList = [',', ' '] := rfl
  rw [quotedList, String.toList_append, String.toList_append, String.toList_intercalate, hMap,
    hComma, hParts, listTail]
  simp

theorem listTail_inj {items others : List String} (h : listTail items = listTail others) :
    items = others := by
  induction items generalizing others with
  | nil =>
      cases others with
      | nil => rfl
      | cons t others => cases h
  | cons s items ih =>
      cases others with
      | nil => cases h
      | cons t others =>
          simp only [listTail, List.flatMap_cons, List.cons_append, List.append_assoc] at h
          obtain ⟨rfl, hRest⟩ := quoted_append_inj (List.cons.inj (List.cons.inj h).2).2
          rw [ih hRest]

/-- A list of texts is told from how messages show it. -/
theorem quotedList_inj {items others : List String} (h : quotedList items = quotedList others) :
    items = others := by
  have hFirst (s : String) (items : List String) : quotedList [] ≠ quotedList (s :: items) := by
    intro h
    obtain ⟨quote, hQuote, hs⟩ := toList_quoted s
    have hMark : ∀ q ∈ quotes, q ≠ ']' := by simp [quotes]
    have hList := congrArg String.toList h
    rw [toList_quotedList_cons, hs] at hList
    exact hMark quote hQuote (List.cons.inj (List.cons.inj hList).2).1.symm
  cases items with
  | nil =>
      cases others with
      | nil => rfl
      | cons t others => exact absurd h (hFirst t others)
  | cons s items =>
      cases others with
      | nil => exact absurd h.symm (hFirst s items)
      | cons t others =>
          have hList := congrArg String.toList h
          rw [toList_quotedList_cons, toList_quotedList_cons] at hList
          obtain ⟨rfl, hTail⟩ := quoted_append_inj (List.cons.inj hList).2
          rw [listTail_inj hTail]

end Quotes

end ChangeSplit.Text
