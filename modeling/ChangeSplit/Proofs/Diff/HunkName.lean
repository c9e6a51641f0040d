import ChangeSplit.Diff.Hunk

/-! Reading the name of a hunk undoes writing it. Names are written in plain decimals and read by
the lenient rule for numerals, so written digits must be neither padding nor signs. Places go by
file and then by hunk, and names by the places that are read from them. -/

namespace ChangeSplit.Numeral

open Category

theorem isDigit_range {c : Char} (h : c.isDigit = true) : 48 ≤ c.toNat ∧ c.toNat ≤ 57 := by
  simp only [Char.isDigit, Bool.and_eq_true, decide_eq_true_eq] at h
  exact ⟨h.1, h.2⟩

/-- The plain digits come first among the digits of all scripts. -/
theorem digitValue?_of_isDigit {c : Char} (h : c.isDigit = true) :
    digitValue? c = some (c.toNat - 48) := by
  obtain ⟨hLow, hHigh⟩ := isDigit_range h
  have hZeros : digitZeros = 48 :: digitZeros.tail := rfl
  have hFound : digitZeros.find? (fun first => first ≤ c.toNat && c.toNat < first + 10) =
      some 48 := by
    rw [hZeros, List.find?_cons_of_pos]
    simp only [Bool.and_eq_true, decide_eq_true_eq]
    omega
  rw [digitValue?, hFound]
  rfl

theorem digitValues?_of_isDigit {cs : List Char} (hNil : cs ≠ [])
    (h : ∀ c ∈ cs, c.isDigit = true) : digitValues? cs = some (cs.map (·.toNat - 48)) := by
  induction cs with
  | nil => exact absurd rfl hNil
  | cons c rest ih =>
      have hc := digitValue?_of_isDigit (h c (List.mem_cons_self ..))
      cases rest with
      | nil => simp [digitValues?, hc]
      | cons d rest =>
          have hd : d ≠ '_' := by
            rintro rfl
            exact absurd (h '_' (by simp)) (by decide)
          have hRest := ih (by simp) fun e he => h e (List.mem_cons_of_mem _ he)
          simp [digitValues?, hc, hd, hRest]

theorem ofDigits_map (cs : List Char) :
    ofDigits (cs.map (·.toNat - 48)) = Nat.ofDigitChars 10 cs 0 := by
  rw [ofDigits, List.foldl_map, Nat.ofDigitChars_eq_foldl]
  rfl

theorem digitValues?_toDigits (n : Nat) :
    (digitValues? (Nat.toDigits 10 n)).map ofDigits = some n := by
  rw [digitValues?_of_isDigit Nat.toDigits_ne_nil
    fun c hc => Nat.isDigit_of_mem_toDigits (by decide) (by decide) hc]
  simp [ofDigits_map]

theorem not_isPadding_of_isDigit {c : Char} (h : c.isDigit = true) : isPadding c = false := by
  obtain ⟨hLow, hHigh⟩ := isDigit_range h
  have hBlank : isBlank c = false := by
    simp only [isBlank, Bool.or_eq_false_iff, Bool.and_eq_false_iff, decide_eq_false_iff_not]
    omega
  simp [isPadding, hBlank]

/-- Padding is taken off at the ends only, so the ends decide whether there is any. -/
theorem unpadded_of_ends {cs : List Char} (hFirst : ∀ c, cs.head? = some c → isPadding c = false)
    (hLast : ∀ c, cs.getLast? = some c → isPadding c = false) : unpadded cs = cs := by
  have hDrop {l : List Char} (h : ∀ c, l.head? = some c → isPadding c = false) :
      l.dropWhile isPadding = l := by
    cases l with
    | nil => rfl
    | cons c rest => exact List.dropWhile_cons_of_neg (by simp [h c rfl])
  rw [unpadded, hDrop hFirst, hDrop (by simpa using hLast), List.reverse_reverse]

theorem getLast?_toDigits {n : Nat} {c : Char} (h : (Nat.toDigits 10 n).getLast? = some c) :
    c.isDigit = true :=
  Nat.isDigit_of_mem_toDigits (by decide) (by decide) (List.mem_of_getLast? h)

theorem head?_toDigits {n : Nat} {c : Char} (h : (Nat.toDigits 10 n).head? = some c) :
    c.isDigit = true :=
  Nat.isDigit_of_mem_toDigits (by decide) (by decide) (List.mem_of_head? h)

theorem int?_toDigits (n : Nat) : int? (Nat.toDigits 10 n) = some (n : Int) := by
  have hPlain : unpadded (Nat.toDigits 10 n) = Nat.toDigits 10 n :=
    unpadded_of_ends (fun c hc => not_isPadding_of_isDigit (head?_toDigits hc))
      (fun c hc => not_isPadding_of_isDigit (getLast?_toDigits hc))
  have hSign : splitSign (Nat.toDigits 10 n) = (false, Nat.toDigits 10 n) := by
    cases hDigits : Nat.toDigits 10 n with
    | nil => rfl
    | cons c rest =>
        have hc : c.isDigit = true := head?_toDigits (n := n) (by rw [hDigits]; rfl)
        unfold splitSign
        split
        case h_1 hEq => cases hEq; exact absurd hc (by decide)
        case h_2 hEq => cases hEq; exact absurd hc (by decide)
        case h_3 => rfl
  have hValue := digitValues?_toDigits n
  rw [Option.map_eq_some_iff] at hValue
  obtain ⟨digits, hDigits, hOf⟩ := hValue
  simp [int?, hPlain, hSign, hDigits, hOf, withSign]

theorem int?_neg_toDigits (n : Nat) : int? ('-' :: Nat.toDigits 10 n) = some (-(n : Int)) := by
  have hPlain : unpadded ('-' :: Nat.toDigits 10 n) = '-' :: Nat.toDigits 10 n := by
    refine unpadded_of_ends ?_ ?_
    · intro c hc
      cases hc
      decide
    · intro c hc
      rw [List.getLast?_cons_of_ne_nil Nat.toDigits_ne_nil] at hc
      exact not_isPadding_of_isDigit (getLast?_toDigits hc)
  have hValue := digitValues?_toDigits n
  rw [Option.map_eq_some_iff] at hValue
  obtain ⟨digits, hDigits, hOf⟩ := hValue
  simp [int?, hPlain, splitSign, hDigits, hOf, withSign]

theorem toList_toString (n : Int) :
    (toString n).toList =
      if 0 ≤ n then Nat.toDigits 10 n.natAbs else '-' :: Nat.toDigits 10 n.natAbs := by
  cases n with
  | ofNat m => simp [Int.toString_eq_repr, Int.repr_eq_if]
  | negSucc m => simp [Int.toString_eq_repr, Int.repr_eq_if, Int.negSucc_not_nonneg]

/-- Every integer is read back from the text that shows it. -/
theorem int?_toString (n : Int) : int? (toString n).toList = some n := by
  rw [toList_toString]
  split
  case isTrue h =>
    rw [int?_toDigits]
    congr 1
    omega
  case isFalse h =>
    rw [int?_neg_toDigits]
    congr 1
    omega

/-- The text of an integer has no colon in it, so a colon can end it. -/
theorem colon_not_mem_toString (n : Int) : ':' ∉ (toString n).toList := by
  have hDigits (m : Nat) : ':' ∉ Nat.toDigits 10 m := by
    intro h
    exact absurd (Nat.isDigit_of_mem_toDigits (by decide) (by decide) h) (by decide)
  rw [toList_toString]
  split
  · exact hDigits _
  · simp [hDigits]

theorem toString_ne_nil (n : Int) : (toString n).toList ≠ [] := by
  rw [toList_toString]
  split
  · exact Nat.toDigits_ne_nil
  · simp

end ChangeSplit.Numeral

namespace ChangeSplit.HunkName

theorem part_toString (n : Int) : part (toString n).toList = .ok n := by
  rw [part, Numeral.int?_toString]

/-- The indexes of a hunk are read back from its name. -/
theorem indexes_ofIndexes (file hunk : Int) : indexes (ofIndexes file hunk) = .ok (file, hunk) := by
  have hName : (ofIndexes file hunk).toList =
      (toString file).toList ++ ':' :: (toString hunk).toList := by
    simp [ofIndexes]
  have hPlain : ∀ c ∈ (toString file).toList, decide (c ≠ ':') = true := by
    intro c hc
    have hNe : c ≠ ':' := fun h => Numeral.colon_not_mem_toString file (h ▸ hc)
    simp [hNe]
  have hBefore : (ofIndexes file hunk).toList.takeWhile (· ≠ ':') = (toString file).toList := by
    rw [hName, List.takeWhile_append_of_pos hPlain]
    simp
  have hAfter : ((ofIndexes file hunk).toList.dropWhile (· ≠ ':')).drop 1 =
      (toString hunk).toList := by
    rw [hName, List.dropWhile_append_of_pos hPlain]
    simp
  have hSecond : (toString hunk).toList.isEmpty = false := by
    simpa using Numeral.toString_ne_nil hunk
  simp only [indexes, hBefore, hAfter, part_toString, hSecond]
  rfl

theorem ofIndexes_inj {file hunk file' hunk' : Int}
    (h : ofIndexes file hunk = ofIndexes file' hunk') : file = file' ∧ hunk = hunk' := by
  have hIndexes := congrArg indexes h
  simpa [indexes_ofIndexes] using hIndexes

theorem le_iff {a b : Int × Int} : le a b = true ↔ a.1 < b.1 ∨ a.1 = b.1 ∧ a.2 ≤ b.2 := by
  simp only [le, Bool.or_eq_true, Bool.and_eq_true, decide_eq_true_eq]

theorem le_total (a b : Int × Int) : le a b = true ∨ le b a = true := by
  rw [le_iff, le_iff]
  omega

theorem le_refl (a : Int × Int) : le a a = true := (le_total a a).elim id id

theorem le_trans (a b c : Int × Int) (hab : le a b = true) (hbc : le b c = true) :
    le a c = true := by
  rw [le_iff] at *
  omega

theorem le_antisymm {a b : Int × Int} (hab : le a b = true) (hba : le b a = true) : a = b := by
  rw [le_iff] at *
  exact Prod.ext (by omega) (by omega)

theorem lt_of_le_of_ne {a b : Int × Int} (hle : le a b = true) (hne : a ≠ b) : lt a b = true := by
  have hNot : ¬ le b a = true := fun h => hne (le_antisymm hle h)
  simp [lt, hNot]

/-- Of two places exactly one comes first. -/
theorem lt_comm_of_ne {a b : Int × Int} (hne : a ≠ b) : lt b a = !lt a b := by
  rcases le_total a b with h | h
  · rw [lt_of_le_of_ne h hne]
    simp [lt, h]
  · rw [lt_of_le_of_ne h hne.symm]
    simp [lt, h]

/-- Whether one name of a hunk stands before another in the order of the change. -/
def Before (a b : String) : Prop :=
  ∃ p q, indexes a = .ok p ∧ indexes b = .ok q ∧ lt p q = true

end ChangeSplit.HunkName
