import ChangeSplit.Text.Utf8
import Mathlib.Algebra.Ring.Nat
import Mathlib.Tactic.SplitIfs

/-! Reading bytes as text goes character by character: a character takes as many bytes as its
UTF-8 form has, and what stands after it plays no part. So the bytes of a text can be cut wherever
the text can. -/

namespace ChangeSplit.Utf8

theorem continueWith_eq_char {value count taken more : Nat} {low high : UInt8} {rest : List UInt8}
    {c : Char} (h : continueWith value count taken low high rest = .char c more) :
    more = taken + count ∧ count ≤ rest.length ∧
      ∀ tail, continueWith value count taken low high (rest.take count ++ tail) = .char c more := by
  induction rest generalizing value count taken low high with
  | nil =>
      cases count with
      | zero =>
          simp only [continueWith, if_pos, Step.char.injEq] at h
          obtain ⟨rfl, rfl⟩ := h
          refine ⟨rfl, Nat.zero_le _, fun tail => ?_⟩
          cases tail <;> simp [continueWith]
      | succ count => simp [continueWith] at h
  | cons b rest ih =>
      cases count with
      | zero =>
          simp only [continueWith, if_pos, Step.char.injEq] at h
          obtain ⟨rfl, rfl⟩ := h
          refine ⟨rfl, Nat.zero_le _, fun tail => ?_⟩
          cases tail <;> simp [continueWith]
      | succ count =>
          rw [continueWith, if_neg (Nat.succ_ne_zero count)] at h
          split at h
          case isFalse => cases h
          case isTrue hBounds =>
            obtain ⟨hMore, hLength, hTail⟩ := ih h
            refine ⟨by omega, by simpa using hLength, fun tail => ?_⟩
            rw [List.take_succ_cons, List.cons_append, continueWith,
              if_neg (Nat.succ_ne_zero count), if_pos hBounds]
            exact hTail tail

theorem payload_eq {b : UInt8} (hLow : 0x80 ≤ b.toNat) (hHigh : b.toNat ≤ 0xBF) :
    payload b = b.toNat - 0x80 := by
  rw [payload]
  omega

/-- The number of a character continues the leading bits. -/
theorem continueWith_range {value count taken more : Nat} {rest : List UInt8} {c : Char}
    (h : continueWith value count taken 0x80 0xBF rest = .char c more) :
    ∃ v, c = Char.ofNat v ∧ value * 0x40 ^ count ≤ v ∧ v < (value + 1) * 0x40 ^ count := by
  induction rest generalizing value count taken with
  | nil =>
      cases count with
      | zero =>
          simp only [continueWith, if_pos, Step.char.injEq] at h
          exact ⟨value, h.1.symm, by simp, by simp⟩
      | succ count => simp [continueWith] at h
  | cons b rest ih =>
      cases count with
      | zero =>
          simp only [continueWith, if_pos, Step.char.injEq] at h
          exact ⟨value, h.1.symm, by simp, by simp⟩
      | succ count =>
          rw [continueWith, if_neg (Nat.succ_ne_zero count)] at h
          split at h
          case isFalse => cases h
          case isTrue =>
            obtain ⟨v, hChar, hLow, hHigh⟩ := ih h
            have hPayload : payload b < 0x40 := Nat.mod_lt _ (by decide)
            refine ⟨v, hChar, Nat.le_trans ?_ hLow, Nat.lt_of_lt_of_le hHigh ?_⟩
            · rw [Nat.pow_succ', ← Nat.mul_assoc]
              exact Nat.mul_le_mul_right _ (by omega)
            · rw [Nat.pow_succ', ← Nat.mul_assoc]
              exact Nat.mul_le_mul_right _ (by omega)

/-- The byte after the first lies within its bounds and gives the next six bits. -/
theorem continueWith_succ_eq_char {value count taken more : Nat} {low high : UInt8}
    {rest : List UInt8} {c : Char}
    (h : continueWith value (count + 1) taken low high rest = .char c more) :
    ∃ b later, rest = b :: later ∧ low.toNat ≤ b.toNat ∧ b.toNat ≤ high.toNat ∧
      continueWith (value * 0x40 + payload b) count (taken + 1) 0x80 0xBF later = .char c more := by
  cases rest with
  | nil => simp [continueWith] at h
  | cons b later =>
      rw [continueWith, if_neg (Nat.succ_ne_zero count)] at h
      split at h
      case isFalse => cases h
      case isTrue hBounds =>
        rw [Bool.and_eq_true, decide_eq_true_eq, decide_eq_true_eq] at hBounds
        exact ⟨b, later, rfl, UInt8.le_iff_toNat_le.1 hBounds.1, UInt8.le_iff_toNat_le.1 hBounds.2,
          h⟩

theorem toNat_ofNat {v : Nat} (h : v < 0xD800 ∨ 0xDFFF < v ∧ v < 0x110000) :
    (Char.ofNat v).toNat = v := by
  rw [Char.ofNat, dif_pos h]
  rfl

theorem utf8Size_ofNat_two {v : Nat} (hLow : 0x80 ≤ v) (hHigh : v < 0x800) :
    (Char.ofNat v).utf8Size = 2 := by
  have hNat := toNat_ofNat (v := v) (.inl (by omega))
  rw [Char.utf8Size_eq_two_iff, UInt32.lt_iff_toNat_lt, UInt32.le_iff_toNat_le]
  change _ < (Char.ofNat v).toNat ∧ (Char.ofNat v).toNat ≤ _
  rw [hNat]
  exact ⟨hLow, Nat.le_of_lt_succ hHigh⟩

theorem utf8Size_ofNat_three {v : Nat} (hLow : 0x800 ≤ v) (hHigh : v < 0x10000)
    (hScalar : v < 0xD800 ∨ 0xDFFF < v) : (Char.ofNat v).utf8Size = 3 := by
  have hNat := toNat_ofNat (v := v) (by omega)
  rw [Char.utf8Size_eq_three_iff, UInt32.lt_iff_toNat_lt, UInt32.le_iff_toNat_le]
  change _ < (Char.ofNat v).toNat ∧ (Char.ofNat v).toNat ≤ _
  rw [hNat]
  exact ⟨hLow, Nat.le_of_lt_succ hHigh⟩

theorem utf8Size_ofNat_four {v : Nat} (hLow : 0x10000 ≤ v) (hHigh : v < 0x110000) :
    (Char.ofNat v).utf8Size = 4 := by
  have hNat := toNat_ofNat (v := v) (.inr (by omega))
  rw [Char.utf8Size_eq_four_iff, UInt32.lt_iff_toNat_lt]
  change _ < (Char.ofNat v).toNat
  rw [hNat]
  exact hLow

/-- The first byte tells how many follow. -/
theorem followers_eq_some {b : UInt8} {n : Nat} (h : followers b = some n) :
    n = 0 ∧ b.toNat < 0x80 ∨ n = 1 ∧ 0xC2 ≤ b.toNat ∧ b.toNat < 0xE0 ∨
      n = 2 ∧ 0xE0 ≤ b.toNat ∧ b.toNat < 0xF0 ∨ n = 3 ∧ 0xF0 ≤ b.toNat ∧ b.toNat < 0xF5 := by
  simp only [followers, UInt8.lt_iff_toNat_lt, UInt8.reduceToNat] at h
  split_ifs at h <;> simp only [Option.some.injEq] at h <;> omega

/-- The bounds of the second byte as numbers. -/
theorem secondBounds_toNat (b : UInt8) :
    (secondBounds b).1.toNat =
        (if b.toNat = 0xE0 then 0xA0 else if b.toNat = 0xF0 then 0x90 else 0x80) ∧
      (secondBounds b).2.toNat =
        (if b.toNat = 0xED then 0x9F else if b.toNat = 0xF4 then 0x8F else 0xBF) := by
  simp only [secondBounds, ← UInt8.toNat_inj, UInt8.reduceToNat]
  split_ifs <;> first | omega | simp

/-- The number of a character of several bytes, as far as the first two of them tell it. The
narrower bounds after some first bytes keep it in the range of its length. -/
theorem continueWith_secondBounds {b : UInt8} {value count more : Nat} {rest : List UInt8}
    {c : Char} (h : continueWith value (count + 1) 0 (secondBounds b).1 (secondBounds b).2 rest =
      .char c more) :
    ∃ second < 0x40, (b.toNat = 0xE0 → 0x20 ≤ second) ∧ (b.toNat = 0xED → second < 0x20) ∧
      (b.toNat = 0xF0 → 0x10 ≤ second) ∧ (b.toNat = 0xF4 → second < 0x10) ∧
      ∃ v, c = Char.ofNat v ∧ (value * 0x40 + second) * 0x40 ^ count ≤ v ∧
        v < (value * 0x40 + second + 1) * 0x40 ^ count := by
  obtain ⟨b₂, later, _, hLow, hHigh, hLater⟩ := continueWith_succ_eq_char h
  rw [(secondBounds_toNat b).1] at hLow
  rw [(secondBounds_toNat b).2] at hHigh
  have hSecond : 0x80 ≤ b₂.toNat ∧ b₂.toNat ≤ 0xBF := by
    split_ifs at hLow hHigh <;> omega
  rw [payload_eq hSecond.1 hSecond.2] at hLater
  refine ⟨b₂.toNat - 0x80, by omega, ?_, ?_, ?_, ?_, continueWith_range hLater⟩
  · intro hFirst
    rw [if_pos hFirst] at hLow
    omega
  · intro hFirst
    rw [if_pos hFirst] at hHigh
    omega
  · intro hFirst
    rw [if_neg (by omega), if_pos hFirst] at hLow
    omega
  · intro hFirst
    rw [if_neg (by omega), if_pos hFirst] at hHigh
    omega

/-- A character takes as many bytes as it should, all of them among those that were given, and
takes them again wherever they stand. -/
theorem step_eq_char {b : UInt8} {rest : List UInt8} {c : Char} {more : Nat}
    (h : step b rest = .char c more) :
    more + 1 = c.utf8Size ∧ more ≤ rest.length ∧
      ∀ tail, step b (rest.take more ++ tail) = .char c more := by
  unfold step at h
  split at h
  case h_1 => cases h
  case h_2 hCount =>
    cases h
    have hSmall : b.toNat < 0x80 := by
      have := followers_eq_some hCount
      omega
    refine ⟨?_, Nat.zero_le _, fun tail => by simp [step, hCount]⟩
    rw [eq_comm, Char.utf8Size_eq_one_iff, UInt32.le_iff_toNat_le]
    change (Char.ofNat b.toNat).toNat ≤ 127
    rw [toNat_ofNat (.inl (by omega))]
    omega
  case h_3 count hZero hCount =>
    dsimp only at h
    obtain ⟨hMore, hLength, hTail⟩ := continueWith_eq_char h
    rw [Nat.zero_add] at hMore
    subst hMore
    refine ⟨?_, hLength, fun tail => ?_⟩
    · rcases followers_eq_some hCount with
        ⟨rfl, _⟩ | ⟨rfl, hFirst⟩ | ⟨rfl, hFirst⟩ | ⟨rfl, hFirst⟩
      · exact absurd rfl hZero
      · change continueWith (b.toNat % 0x20) 1 0 _ _ rest = _ at h
        obtain ⟨_, _, _, _, _, _, v, rfl, _⟩ := continueWith_secondBounds h
        exact (utf8Size_ofNat_two (by omega) (by omega)).symm
      · change continueWith (b.toNat % 0x10) 2 0 _ _ rest = _ at h
        obtain ⟨_, _, _, _, _, _, v, rfl, _⟩ := continueWith_secondBounds h
        exact (utf8Size_ofNat_three (by omega) (by omega) (by omega)).symm
      · change continueWith (b.toNat % 0x08) 3 0 _ _ rest = _ at h
        obtain ⟨_, _, _, _, _, _, v, rfl, _⟩ := continueWith_secondBounds h
        exact (utf8Size_ofNat_four (by omega) (by omega)).symm
    · unfold step
      rw [hCount]
      cases more with
      | zero => exact absurd rfl hZero
      | succ count => exact hTail tail

theorem decodeFrom_append (x y : List UInt8) : decodeFrom x.length (x ++ y) = decode y := by
  induction x with
  | nil => rfl
  | cons b x ih => exact ih

/-- The bytes of a text begin with those of its first character. -/
theorem decode_eq_cons {bytes : List UInt8} {c : Char} {cs : List Char}
    (h : decode bytes = .ok (c :: cs)) :
    ∃ x y, bytes = x ++ y ∧ x.length = c.utf8Size ∧ decode y = .ok cs ∧
      ∀ tail, decode (x ++ tail) = (decode tail).map (c :: ·) := by
  cases bytes with
  | nil => cases h
  | cons b rest =>
      rw [decode, decodeFrom] at h
      split at h
      case h_2 => cases h
      case h_1 d more hStep =>
        obtain ⟨hSize, hLength, hAgain⟩ := step_eq_char hStep
        have hTake : (rest.take more).length = more := List.length_take_of_le hLength
        have hRest : decodeFrom more rest = decode (rest.drop more) := by
          have hSkip := decodeFrom_append (rest.take more) (rest.drop more)
          rwa [List.take_append_drop, hTake] at hSkip
        rw [hRest] at h
        cases hLater : decode (rest.drop more) with
        | error fault =>
            rw [hLater] at h
            cases h
        | ok later =>
            rw [hLater] at h
            cases h
            refine ⟨b :: rest.take more, rest.drop more, ?_, ?_, hLater, fun tail => ?_⟩
            · rw [List.cons_append, List.take_append_drop]
            · rw [List.length_cons, hTake, hSize]
            · have hSkip := decodeFrom_append (rest.take more) tail
              rw [hTake] at hSkip
              rw [List.cons_append, decode, decodeFrom, hAgain tail]
              exact congrArg (Except.map (c :: ·)) hSkip

/-- The bytes of a text in two parts are those of the one and then those of the other. -/
theorem decode_eq_append {bytes : List UInt8} {cs ds : List Char}
    (h : decode bytes = .ok (cs ++ ds)) :
    ∃ x y, bytes = x ++ y ∧ x.length = (cs.map Char.utf8Size).sum ∧
      decode x = .ok cs ∧ decode y = .ok ds := by
  induction cs generalizing bytes with
  | nil => exact ⟨[], bytes, rfl, rfl, rfl, h⟩
  | cons c cs ih =>
      obtain ⟨x, y, rfl, hSize, hLater, hAgain⟩ := decode_eq_cons h
      obtain ⟨z, w, rfl, hLength, hFirst, hSecond⟩ := ih hLater
      refine ⟨x ++ z, w, (List.append_assoc x z w).symm, ?_, ?_, hSecond⟩
      · rw [List.length_append, hSize, hLength, List.map_cons, List.sum_cons]
      · rw [hAgain, hFirst]
        rfl

/-- Bytes in front of others stand for what they stand for by themselves. -/
theorem decode_append {x : List UInt8} {cs : List Char} (h : decode x = .ok cs) (y : List UInt8) :
    decode (x ++ y) = (decode y).map (cs ++ ·) := by
  induction cs generalizing x with
  | nil =>
      cases x with
      | nil =>
          rw [List.nil_append]
          cases decode y <;> rfl
      | cons b rest =>
          rw [decode, decodeFrom] at h
          split at h
          case h_1 c more _ => cases hLater : decodeFrom more rest <;> rw [hLater] at h <;> cases h
          case h_2 => cases h
  | cons c cs ih =>
      obtain ⟨z, w, rfl, _, hLater, hAgain⟩ := decode_eq_cons h
      rw [List.append_assoc, hAgain, ih hLater]
      cases decode y <;> rfl

theorem le_of_continueWith {value count taken more : Nat} {low high : UInt8} {rest : List UInt8}
    {c : Char} (hLow : 0x80 ≤ low)
    (h : continueWith value count taken low high rest = .char c more) :
    ∀ b ∈ rest.take count, 0x80 ≤ b := by
  induction count generalizing value taken low high rest with
  | zero => simp
  | succ count ih =>
      obtain ⟨b, later, rfl, hFirst, _, hLater⟩ := continueWith_succ_eq_char h
      rw [List.take_succ_cons]
      refine List.forall_mem_cons.2 ⟨?_, ih (by decide) hLater⟩
      exact UInt8.le_iff_toNat_le.2 (Nat.le_trans (UInt8.le_iff_toNat_le.1 hLow) hFirst)

/-- The bytes of a character hold the byte of a line feed only if it is one, and then no other. -/
theorem newline_of_decode {x : List UInt8} {c : Char} (h : decode x = .ok [c])
    (hSize : x.length = c.utf8Size) : (0x0A ∈ x ↔ c = '\n') ∧ (c = '\n' → x = [0x0A]) := by
  cases x with
  | nil => cases h
  | cons b rest =>
      rw [decode, decodeFrom] at h
      split at h
      case h_2 => cases h
      case h_1 d more hStep =>
        obtain ⟨hMore, _, _⟩ := step_eq_char hStep
        obtain rfl : d = c := by
          cases hLater : decodeFrom more rest with
          | error fault => simp [hLater, Except.map] at h
          | ok later => simp_all [Except.map]
        have hLength : more = rest.length := by
          rw [List.length_cons] at hSize
          omega
        unfold step at hStep
        split at hStep
        case h_1 => cases hStep
        case h_2 hCount =>
          cases hStep
          obtain rfl : rest = [] := List.length_eq_zero_iff.1 hLength.symm
          have hSmall : b.toNat < 0x80 := by
            have := followers_eq_some hCount
            omega
          have hChar : Char.ofNat b.toNat = '\n' ↔ b = 0x0A := by
            constructor
            · intro hEq
              have hNat := congrArg Char.toNat hEq
              rw [toNat_ofNat (.inl (by omega))] at hNat
              exact UInt8.toNat_inj.1 hNat
            · rintro rfl
              rfl
          rw [hChar, List.mem_singleton]
          exact ⟨eq_comm, fun hEq => by rw [hEq]⟩
        case h_3 count hZero hCount =>
          dsimp only at hStep
          obtain ⟨hTaken, _, _⟩ := continueWith_eq_char hStep
          have hCountNe : count ≠ 0 := hZero
          have hNe : d ≠ '\n' := by
            rintro rfl
            have hOne : Char.utf8Size '\n' = 1 := rfl
            omega
          have hFirst : 0xC2 ≤ b.toNat := by
            have := followers_eq_some hCount
            omega
          have hLow : 0x80 ≤ (secondBounds b).1 := by
            rw [UInt8.le_iff_toNat_le, (secondBounds_toNat b).1]
            split_ifs <;> decide
          have hBytes := le_of_continueWith hLow hStep
          refine ⟨iff_of_false (fun hMem => ?_) hNe, fun hEq => absurd hEq hNe⟩
          rcases List.mem_cons.1 hMem with rfl | hMem
          · exact absurd hFirst (by decide)
          · rw [List.take_of_length_le (by omega)] at hBytes
            exact absurd (hBytes _ hMem) (by decide)

end ChangeSplit.Utf8
