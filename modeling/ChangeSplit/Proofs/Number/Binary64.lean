import ChangeSplit.Number.Binary64
import Mathlib.Algebra.Order.Ring.Rat
import Mathlib.Algebra.Order.Floor.Defs
import Mathlib.Data.Rat.Floor
import Mathlib.Tactic.Positivity

/-! The order of the floating format, and the sign of what is rounded to it. -/

namespace ChangeSplit

theorem halfEven_nonneg {q : Rat} (h : 0 ≤ q) : 0 ≤ halfEven q := by
  have hLow : 0 ≤ q.floor := Rat.le_floor_iff.2 (by simpa using h)
  unfold halfEven
  dsimp only
  split_ifs <;> omega

namespace Binary64

theorem twoTo_nonneg (e : Int) : 0 ≤ twoTo e := by
  unfold twoTo
  split <;> positivity

/-- What is not negative does not become negative when it is rounded. -/
theorem nearest_nonneg {q : Rat} (h : 0 ≤ q) : 0 ≤ nearest q := by
  unfold nearest
  split
  case isTrue => exact le_refl 0
  case isFalse =>
    rw [if_neg (not_lt.2 h), nearestPositive]
    have hUnit := twoTo_nonneg (lastPlace q)
    have hPlaces : (0 : Rat) ≤ halfEven (q / twoTo (lastPlace q)) := by
      exact_mod_cast halfEven_nonneg (div_nonneg h hUnit)
    exact mul_nonneg hPlaces hUnit

/-- The place of a number in order, if it is one. -/
def place? : Binary64 → Option (WithTop (WithBot Rat))
  | undefined => none
  | infinite true => some ⊥
  | infinite false => some ⊤
  | negativeZero => some ((0 : Rat) : WithBot Rat)
  | finite value => some (value : WithBot Rat)

variable {x y : Binary64} {q r : Rat}

theorem le_iff : x.le y = true ↔ ∃ p ∈ x.place?, ∃ p' ∈ y.place?, p ≤ p' := by
  have hZero : (0 : WithTop (WithBot Rat)) ≠ ⊥ := WithTop.coe_injective.ne WithBot.coe_ne_bot
  rcases x with _ | (_ | _) | _ | a <;> rcases y with _ | (_ | _) | _ | b <;>
    simp [le, plain, place?, hZero]

theorem lt_iff : x.lt y = true ↔ ∃ p ∈ x.place?, ∃ p' ∈ y.place?, p < p' := by
  rw [lt, Bool.and_eq_true, Bool.not_eq_true', ← Bool.not_eq_true, le_iff, le_iff]
  cases x.place? with
  | none => simp
  | some p =>
      cases y.place? with
      | none => simp
      | some p' =>
          simp only [Option.mem_some_iff, exists_eq_left']
          exact ⟨fun h => not_le.1 h.2, fun h => ⟨h.le, not_le.2 h⟩⟩

theorem ne_undefined_of_le (h : x.le y = true) : x ≠ .undefined ∧ y ≠ .undefined := by
  obtain ⟨p, hp, p', hp', _⟩ := le_iff.1 h
  constructor
  · rintro rfl
    cases hp
  · rintro rfl
    cases hp'

/-- A number is less than every other that it is not at least. -/
theorem lt_finite_iff (hx : x ≠ .undefined) : x.lt (finite q) = true ↔ (finite q).le x = false := by
  have hPlace : ∃ p, x.place? = some p := by
    rcases x with _ | (_ | _) | _ | a
    · exact absurd rfl hx
    all_goals exact ⟨_, rfl⟩
  obtain ⟨p, hPlace⟩ := hPlace
  rw [← Bool.not_eq_true, lt_iff, le_iff, hPlace]
  simp [place?]

theorem lt_finite_mono (h : x.lt (finite q) = true) (hq : q ≤ r) : x.lt (finite r) = true := by
  rw [lt_iff] at *
  obtain ⟨p, hp, p', hp', hLess⟩ := h
  cases hp'
  refine ⟨p, hp, _, rfl, hLess.trans_le ?_⟩
  exact_mod_cast hq

theorem lt_of_le_of_lt {z : Binary64} (h : x.le y = true) (h' : y.lt z = true) :
    x.lt z = true := by
  rw [le_iff] at h
  rw [lt_iff] at *
  obtain ⟨p, hp, p', hp', hLe⟩ := h
  obtain ⟨p'', hp'', k, hk, hLess⟩ := h'
  rw [Option.mem_unique hp' hp''] at hLe
  exact ⟨p, hp, k, hk, hLe.trans_lt hLess⟩

/-- Neither zero is greater than what is not negative. -/
theorem finite_lt_of_plain_eq_zero (hx : x.plain = finite 0) (hq : 0 ≤ q) :
    (finite q).lt x = false := by
  have hPlace : x.place? = some ((0 : Rat) : WithBot Rat) := by
    rcases x with _ | (_ | _) | _ | a <;> simp_all [plain, place?]
  rw [← Bool.not_eq_true, lt_iff, hPlace]
  simpa [place?] using hq

end Binary64

end ChangeSplit
