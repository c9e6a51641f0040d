import ChangeSplit.Proofs.Grouping.Separation
import Mathlib.Data.Prod.Lex
import Mathlib.Order.RelClasses

/-! The order of names. A name is written from a place and the place is read from it, so names are
ordered as places are: first by file and then by hunk, with integers of any size and sign. The
order of the texts is another one. -/

namespace ChangeSplit

namespace HunkName

/-- The name of the hunk at a place. -/
def ofPlace (p : Int × Int) : String := ofIndexes p.1 p.2

theorem indexes_ofPlace (p : Int × Int) : indexes (ofPlace p) = .ok p :=
  indexes_ofIndexes p.1 p.2

theorem ofPlace_inj {p q : Int × Int} : ofPlace p = ofPlace q ↔ p = q := by
  refine ⟨fun h => ?_, congrArg ofPlace⟩
  obtain ⟨hFile, hHunk⟩ := ofIndexes_inj h
  exact Prod.ext hFile hHunk

theorem lt_iff_toLex {p q : Int × Int} : lt p q = true ↔ toLex p < toLex q := by
  rw [lt, Bool.not_eq_true', ← Bool.not_eq_true, le_iff, Prod.Lex.toLex_lt_toLex]
  omega

theorem before_iff {p q : Int × Int} : Before (ofPlace p) (ofPlace q) ↔ toLex p < toLex q := by
  rw [← lt_iff_toLex]
  constructor
  · rintro ⟨p', q', hp, hq, hLess⟩
    rw [indexes_ofPlace] at hp hq
    cases hp
    cases hq
    exact hLess
  · exact fun hLess => ⟨p, q, indexes_ofPlace p, indexes_ofPlace q, hLess⟩

/-- Of two names of places exactly one stands before the other, unless they are the same. -/
theorem isStrictTotalOrder_before :
    IsStrictTotalOrder (Set.range ofPlace) fun a b => Before a b where
  trichotomous := by
    rintro ⟨_, p, rfl⟩ ⟨_, q, rfl⟩ hLess hMore
    rw [before_iff, not_lt] at hLess hMore
    exact Subtype.ext (congrArg ofPlace (toLex.injective (hMore.antisymm hLess)))
  irrefl := by
    rintro ⟨_, p, rfl⟩ hLess
    exact lt_irrefl _ (before_iff.1 hLess)
  trans := by
    rintro ⟨_, p, rfl⟩ ⟨_, q, rfl⟩ ⟨_, r, rfl⟩ hLess hMore
    exact before_iff.2 (lt_trans (before_iff.1 hLess) (before_iff.1 hMore))

end HunkName

namespace Grouping

open HunkName (Before indexes ofPlace)

/-- Marks that are read from names go by their places. -/
theorem HunkMark.exists_ofPlace (p q : Int × Int) :
    ∃ m n, ofName (ofPlace p) = .ok m ∧ ofName (ofPlace q) = .ok n ∧
      (compare m n = .lt ↔ toLex p < toLex q) := by
  refine ⟨_, _, ofName_ofIndexes p.1 p.2, ofName_ofIndexes q.1 q.2, ?_⟩
  rw [compare_eq, Ordering.then_eq_lt, Ordering.then_eq_lt, Std.compare_eq_lt, Std.compare_eq_lt,
    Std.LawfulEqCmp.compare_eq_iff_eq, Std.LawfulEqCmp.compare_eq_iff_eq, Prod.Lex.toLex_lt_toLex]
  refine or_congr_right (and_congr_right fun hFile => or_iff_left ?_)
  rintro ⟨hHunk, hName⟩
  obtain rfl : p = q := Prod.ext hFile hHunk
  simp [Std.ReflCmp.compare_self] at hName

/-- Reading a name undoes writing it, for integers of any size and sign. So places have different
names, and names are ordered as places are, each of two names before the other or the same. The
tenth hunk of a file comes before the eleventh, whose name is the lesser text. -/
theorem names_ordered :
    (∀ p, indexes (ofPlace p) = .ok p) ∧
      (∀ p q, ofPlace p = ofPlace q ↔ p = q) ∧
      (∀ p q, Before (ofPlace p) (ofPlace q) ↔ toLex p < toLex q) ∧
      (∀ p q, ∃ m n, HunkMark.ofName (ofPlace p) = .ok m ∧ HunkMark.ofName (ofPlace q) = .ok n ∧
        (compare m n = .lt ↔ toLex p < toLex q)) ∧
      IsStrictTotalOrder (Set.range ofPlace) (fun a b => Before a b) ∧
      ∃ p q, Before (ofPlace p) (ofPlace q) ∧ compare (ofPlace q) (ofPlace p) = .lt := by
  have hText : compare (ofPlace (0, 10)) (ofPlace (0, 9)) = .lt := by decide +kernel
  have hBefore : Before (ofPlace (0, 9)) (ofPlace (0, 10)) := HunkName.before_iff.2 (by decide)
  exact ⟨HunkName.indexes_ofPlace, fun _ _ => HunkName.ofPlace_inj, fun _ _ => HunkName.before_iff,
    HunkMark.exists_ofPlace, HunkName.isStrictTotalOrder_before, _, _, hBefore, hText⟩

end Grouping

end ChangeSplit
