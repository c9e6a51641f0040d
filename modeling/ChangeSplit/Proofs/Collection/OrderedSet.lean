import ChangeSplit.Collection.OrderedSet
import Mathlib.Data.List.Perm.Subperm

/-! Sets are judged by their members alone: what each operation does to membership, and that two
sets with the same members are the same. The order has to tell all elements apart for this. -/

namespace ChangeSplit.OrderedSet

variable {α : Type} [Ord α]

instance : Membership α (OrderedSet α) := ⟨fun s a => a ∈ s.toList⟩

theorem mem_def {s : OrderedSet α} {a : α} : a ∈ s ↔ a ∈ s.toList := Iff.rfl

@[simp] theorem not_mem_empty (a : α) : ¬ a ∈ (∅ : OrderedSet α) := List.not_mem_nil

section Order

variable [Std.TransOrd α]

/-- Unlike the order of a list of elements, the order of a set leaves no room for repetition. -/
theorem nodup_toList (s : OrderedSet α) : s.toList.Nodup := by
  refine s.sorted.imp ?_
  intro a b hLess hEq
  subst hEq
  simp [Std.ReflCmp.compare_self] at hLess

/-- Two increasing lists with the same elements are equal. Their heads are the least of them. -/
theorem eq_of_sorted {l m : List α} (hl : l.Pairwise fun a b => compare a b = .lt)
    (hm : m.Pairwise fun a b => compare a b = .lt) (hMem : ∀ a, a ∈ l ↔ a ∈ m) : l = m := by
  have hNodup {k : List α} (hk : k.Pairwise fun a b => compare a b = .lt) : k.Nodup :=
    nodup_toList ⟨k, hk⟩
  have hPerm := (List.perm_ext_iff_of_nodup (hNodup hl) (hNodup hm)).2 hMem
  refine hPerm.eq_of_pairwise ?_ hl hm
  intro a b _ _ hab hba
  have hgt := Std.OrientedCmp.gt_iff_lt.2 hba
  simp [hab] at hgt

@[ext] theorem ext {s t : OrderedSet α} (h : ∀ a, a ∈ s ↔ a ∈ t) : s = t := by
  cases s with
  | mk l hl =>
      cases t with
      | mk m hm =>
          congr 1
          exact eq_of_sorted hl hm h

end Order

variable [Std.LawfulEqOrd α]

theorem mem_place {a b : α} {l : List α} : b ∈ place a l ↔ b = a ∨ b ∈ l := by
  induction l with
  | nil => simp [place]
  | cons c rest ih =>
      simp only [place]
      split
      case h_1 => simp
      case h_2 hEq =>
        have hSame : a = c := Std.LawfulEqCmp.eq_of_compare hEq
        subst hSame
        simp
      case h_3 => simp [ih, or_left_comm]

theorem contains_iff {s : OrderedSet α} {a : α} : s.contains a = true ↔ a ∈ s := by
  simp [contains, mem_def, Std.LawfulEqCmp.compare_eq_iff_eq]

theorem mem_without {s t : OrderedSet α} {a : α} : a ∈ s.without t ↔ a ∈ s ∧ ¬ a ∈ t := by
  rw [without, List.mem_filter, ← mem_def, Bool.not_eq_true', ← Bool.not_eq_true, contains_iff]

theorem sharedCount_pos {s t : OrderedSet α} : 0 < s.sharedCount t ↔ ∃ a, a ∈ s ∧ a ∈ t := by
  simp [sharedCount, List.length_pos_iff_exists_mem, List.mem_filter, contains_iff, mem_def]

variable [Std.TransOrd α]

@[simp] theorem mem_insert {s : OrderedSet α} {a b : α} : b ∈ s.insert a ↔ b = a ∨ b ∈ s :=
  mem_place

theorem mem_foldl_insert {l : List α} {s : OrderedSet α} {a : α} :
    a ∈ l.foldl insert s ↔ a ∈ s ∨ a ∈ l := by
  induction l generalizing s with
  | nil => simp
  | cons b rest ih =>
      simp only [List.foldl_cons, ih, mem_insert, List.mem_cons, or_assoc, or_left_comm]

@[simp] theorem mem_ofList {l : List α} {a : α} : a ∈ ofList l ↔ a ∈ l := by
  rw [ofList, mem_foldl_insert]
  exact or_iff_right (not_mem_empty a)

@[simp] theorem mem_union {s t : OrderedSet α} {a : α} : a ∈ s.union t ↔ a ∈ s ∨ a ∈ t :=
  mem_foldl_insert

/-- How many members two sets share does not depend on which of them is walked. -/
theorem sharedCount_comm (s t : OrderedSet α) : s.sharedCount t = t.sharedCount s := by
  have hPerm : (s.toList.filter t.contains).Perm (t.toList.filter s.contains) := by
    rw [List.perm_ext_iff_of_nodup (s.nodup_toList.filter _) (t.nodup_toList.filter _)]
    intro a
    simp only [List.mem_filter, contains_iff, ← mem_def]
    exact and_comm
  exact hPerm.length_eq

/-- There is one way to list what a set has and another one has not. -/
theorem without_eq_iff {s t : OrderedSet α} {l : List α} :
    s.without t = l ↔
      l.Pairwise (fun a b => compare a b = .lt) ∧ ∀ a, a ∈ l ↔ a ∈ s ∧ ¬ a ∈ t := by
  have hSorted : (s.without t).Pairwise fun a b => compare a b = .lt := s.sorted.filter _
  constructor
  · rintro rfl
    exact ⟨hSorted, fun a => mem_without⟩
  · rintro ⟨hl, hMem⟩
    exact eq_of_sorted hSorted hl fun a => mem_without.trans (hMem a).symm

/-- A list loses no length in becoming a set exactly if nothing in it repeats. -/
theorem size_ofList_eq_iff {l : List α} : (ofList l).size = l.length ↔ l.Nodup := by
  constructor
  · intro hLength
    have hSub : List.Subperm (ofList l).toList l :=
      (ofList l).nodup_toList.subperm fun a ha => mem_ofList.1 ha
    have hPerm := hSub.perm_of_length_le (Nat.le_of_eq hLength.symm)
    exact hPerm.nodup_iff.1 (ofList l).nodup_toList
  · intro hNodup
    exact ((List.perm_ext_iff_of_nodup (ofList l).nodup_toList hNodup).2
      fun a => mem_ofList).length_eq

end ChangeSplit.OrderedSet
