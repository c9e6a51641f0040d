import ChangeSplit.Proofs.Grouping.Affinity
import Mathlib.Algebra.Order.Ring.Rat

/-! The order of candidates tells all of them apart, so there is at most one first candidate. Two
clusters make the same candidate whichever of them comes first. -/

namespace ChangeSplit.Grouping

namespace Candidate

instance : Std.TransCmp Candidate.compare :=
  inferInstanceAs (Std.TransCmp
    (compareLex (compareOn distance)
    (compareLex (fun a b => compareOn similarity b a)
    (compareLex (compareLex (compareOn (·.keepFirst.1)) (compareOn (·.keepFirst.2)))
    (compareLex (compareLex (compareOn (·.dropFirst.1)) (compareOn (·.dropFirst.2)))
    (compareLex (compareOn keep)
    (compareLex (compareOn keepStamp)
    (compareLex (compareOn drop) (compareOn dropStamp)))))))))

/-- The part of the order by which pairs of clusters are chosen. It leaves numbers and stamps of
the clusters out. -/
def rank (a b : Candidate) : Ordering :=
  (Ord.compare a.distance b.distance).then <|
  (compareOfLessAndEq b.similarity a.similarity).then <|
  (comparePositions a.keepFirst b.keepFirst).then <| comparePositions a.dropFirst b.dropFirst

theorem compare_eq (a b : Candidate) :
    a.compare b = (a.rank b).then ((Ord.compare a.keep b.keep).then
      ((Ord.compare a.keepStamp b.keepStamp).then
      ((Ord.compare a.drop b.drop).then (Ord.compare a.dropStamp b.dropStamp)))) := by
  simp only [compare, rank, Ordering.then_assoc]

theorem comparePositions_eq_eq {p q : Int × Int} : comparePositions p q = .eq ↔ p = q := by
  rw [comparePositions, Ordering.then_eq_eq, Std.LawfulEqCmp.compare_eq_iff_eq,
    Std.LawfulEqCmp.compare_eq_iff_eq, Prod.ext_iff]

/-- Candidates of the same rank begin with the same hunks. -/
theorem firsts_of_rank_eq {a b : Candidate} (h : a.rank b = .eq) :
    a.keepFirst = b.keepFirst ∧ a.dropFirst = b.dropFirst := by
  rw [rank, Ordering.then_eq_eq, Ordering.then_eq_eq, Ordering.then_eq_eq, comparePositions_eq_eq,
    comparePositions_eq_eq] at h
  exact h.2.2

theorem le_iff {a b : Candidate} : a.le b = true ↔ (a.compare b).isLE = true := by
  rw [le]
  cases a.compare b <;> simp

theorem le_total (a b : Candidate) : a.le b = true ∨ b.le a = true := by
  have hSwap : b.compare a = (a.compare b).swap := Std.OrientedCmp.eq_swap
  rw [le_iff, le_iff, hSwap]
  cases a.compare b <;> simp

theorem le_trans (a b c : Candidate) (hab : a.le b = true) (hbc : b.le c = true) :
    a.le c = true :=
  le_iff.2 (Std.TransCmp.isLE_trans (le_iff.1 hab) (le_iff.1 hbc))

theorem le_refl (a : Candidate) : a.le a = true := (le_total a a).elim id id

instance : Std.TransCmp Candidate.rank :=
  inferInstanceAs (Std.TransCmp
    (compareLex (compareOn distance)
    (compareLex (fun a b => compareOn similarity b a)
    (compareLex (compareLex (compareOn (·.keepFirst.1)) (compareOn (·.keepFirst.2)))
    (compareLex (compareOn (·.dropFirst.1)) (compareOn (·.dropFirst.2)))))))

/-- What comes first in the whole order has no greater rank. -/
theorem rank_isLE_of_le {a b : Candidate} (h : a.le b = true) : (a.rank b).isLE = true := by
  rw [le_iff, compare_eq] at h
  cases hRank : a.rank b with
  | lt => rfl
  | eq => rfl
  | gt => simp [hRank] at h

/-- Numbers and stamps of the clusters have no part in the rank. -/
theorem rank_eq_eq {a b : Candidate} (hDistance : a.distance = b.distance)
    (hSimilarity : a.similarity = b.similarity) (hKeep : a.keepFirst = b.keepFirst)
    (hDrop : a.dropFirst = b.dropFirst) : a.rank b = .eq := by
  simp [rank, hDistance, hSimilarity, hKeep, hDrop, compareOfLessAndEq, comparePositions]

/-- Two clusters at some distance as a candidate, the first of them to be kept. -/
def ofPair (distance : Nat) (a b : Cluster) : Candidate :=
  ⟨distance, a.similarity b, a.first, b.first, a.id, a.stamp, b.id, b.stamp⟩

end Candidate

/-- Whether two clusters of some similarity pass the gates, with what lies between them. -/
structure Passes (s : Settings) (edges : List Edge) (tie : Tie) (similarity : Rat)
    (distance : Nat) : Prop where
  distance_eq : tie.distance = some distance
  near : (distance : Int) ≤ s.maxDistance
  similar : (Binary64.finite similarity).lt s.minSimilarity = false
  heavy : (Binary64.finite (mkRat (tie.quarters edges) 4)).le s.weightThreshold = false

variable {s : Settings} {edges : List Edge} {tie : Tie} {a b : Cluster} {c : Candidate}

/-- Only the distance and the weight of a tie matter. -/
theorem passes_iff_of_eq {edges' : List Edge} {tie' : Tie} {similarity : Rat} {distance : Nat}
    (hDistance : tie.distance = tie'.distance)
    (hQuarters : tie.quarters edges = tie'.quarters edges') :
    Passes s edges tie similarity distance ↔ Passes s edges' tie' similarity distance := by
  constructor
  · rintro ⟨hEq, hNear, hSimilar, hHeavy⟩
    exact ⟨hDistance ▸ hEq, hNear, hSimilar, hQuarters ▸ hHeavy⟩
  · rintro ⟨hEq, hNear, hSimilar, hHeavy⟩
    exact ⟨hDistance ▸ hEq, hNear, hSimilar, hQuarters ▸ hHeavy⟩

/-- The candidate that two clusters at some distance make. The one that comes first in the change is
to be kept. -/
def Candidate.ofEither (distance : Nat) (a b : Cluster) : Candidate :=
  if HunkName.lt b.first a.first then .ofPair distance b a else .ofPair distance a b

theorem Candidate.ofEither_cases (distance : Nat) (a b : Cluster) :
    ofEither distance a b = ofPair distance a b ∨ ofEither distance a b = ofPair distance b a := by
  unfold ofEither
  split
  case isTrue => exact .inr rfl
  case isFalse => exact .inl rfl

/-- The cluster to be kept never begins after the one to be dropped. -/
theorem Candidate.ofEither_ordered (distance : Nat) (a b : Cluster) :
    HunkName.lt (ofEither distance a b).dropFirst (ofEither distance a b).keepFirst = false := by
  unfold ofEither
  split
  case isTrue hLess =>
    have hLe :=
      (HunkName.le_total a.first b.first).resolve_left (by simpa [HunkName.lt] using hLess)
    simp [ofPair, HunkName.lt, hLe]
  case isFalse hNotLess => simpa [ofPair] using hNotLess

theorem Candidate.ofEither_eq {a b : Cluster} (h : HunkName.lt b.first a.first = false)
    (distance : Nat) : ofEither distance a b = ofPair distance a b := by
  rw [ofEither, h]
  rfl

/-- Two clusters make a candidate if they pass the gates. -/
theorem candidate?_eq_some_iff : candidate? s edges tie a b = some c ↔
    ∃ distance, Passes s edges tie (a.similarity b) distance ∧
      c = Candidate.ofEither distance a b := by
  unfold candidate?
  constructor
  · intro h
    split at h
    case h_1 => cases h
    case h_2 distance hDistance =>
      dsimp only at h
      split at h
      case isTrue => cases h
      case isFalse hNear =>
        split at h
        case isTrue => cases h
        case isFalse hSimilar =>
          split at h
          case isTrue => cases h
          case isFalse hHeavy =>
            refine ⟨distance, ⟨hDistance, by omega, by simpa using hSimilar, by simpa using hHeavy⟩,
              ?_⟩
            rw [← Option.some.inj h, Candidate.ofEither]
            split
            case isTrue => rw [Candidate.ofPair, Cluster.similarity_comm]
            case isFalse => rfl
  · rintro ⟨distance, hPasses, rfl⟩
    have hNear : ¬ (distance : Int) > s.maxDistance := by
      have := hPasses.near
      omega
    rw [hPasses.distance_eq]
    dsimp only
    rw [if_neg hNear, if_neg (by simp [hPasses.similar]), if_neg (by simp [hPasses.heavy]),
      Candidate.ofEither]
    split
    case isTrue => rw [Candidate.ofPair, Cluster.similarity_comm]
    case isFalse => rfl

/-- A candidate names the two clusters that make it, in one order or the other. -/
theorem keep_drop_of_candidate? (h : candidate? s edges tie a b = some c) :
    c.keep = a.id ∧ c.drop = b.id ∨ c.keep = b.id ∧ c.drop = a.id := by
  obtain ⟨distance, _, rfl⟩ := candidate?_eq_some_iff.1 h
  rcases Candidate.ofEither_cases distance a b with hEq | hEq
  · rw [hEq]
    exact .inl ⟨rfl, rfl⟩
  · rw [hEq]
    exact .inr ⟨rfl, rfl⟩

/-- Clusters that begin with different hunks make the same candidate in either order. -/
theorem candidate?_comm (hFirst : a.first ≠ b.first) :
    candidate? s edges tie a b = candidate? s edges tie b a := by
  have hSimilarity : b.similarity a = a.similarity b := Cluster.similarity_comm b a
  unfold candidate?
  rw [hSimilarity, HunkName.lt_comm_of_ne hFirst]
  cases HunkName.lt a.first b.first <;> simp

end ChangeSplit.Grouping
