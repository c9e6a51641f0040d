import ChangeSplit.Collection.Sorting

/-! Sorting keeps the elements of a list and puts them in order, provided that the order is total
and transitive. Then it makes no difference whether elements are left out before or after. -/

namespace ChangeSplit

variable {α : Type} {le : α → α → Bool}

theorem perm_insertBy (a : α) (l : List α) : (insertBy le a l).Perm (a :: l) := by
  induction l with
  | nil => exact .refl _
  | cons b rest ih =>
      simp only [insertBy]
      split
      · exact .refl _
      · exact (ih.cons b).trans (.swap a b rest)

@[simp] theorem mem_insertBy {a b : α} {l : List α} : b ∈ insertBy le a l ↔ b = a ∨ b ∈ l := by
  rw [(perm_insertBy a l).mem_iff, List.mem_cons]

theorem sortBy_perm (le : α → α → Bool) (l : List α) : (sortBy le l).Perm l := by
  induction l with
  | nil => exact .refl _
  | cons a rest ih => exact (perm_insertBy a _).trans (ih.cons a)

@[simp] theorem mem_sortBy {a : α} {l : List α} : a ∈ sortBy le l ↔ a ∈ l :=
  (sortBy_perm le l).mem_iff

theorem pairwise_insertBy (hTotal : ∀ a b, le a b = true ∨ le b a = true)
    (hTrans : ∀ a b c, le a b = true → le b c = true → le a c = true) {a : α} {l : List α}
    (h : l.Pairwise fun a b => le a b = true) :
    (insertBy le a l).Pairwise fun a b => le a b = true := by
  induction l with
  | nil => simp [insertBy]
  | cons b rest ih =>
      rw [List.pairwise_cons] at h
      simp only [insertBy]
      split
      case isTrue hab =>
        rw [List.pairwise_cons, List.pairwise_cons]
        refine ⟨?_, h⟩
        intro c hc
        rcases List.mem_cons.1 hc with rfl | hc
        · exact hab
        · exact hTrans a b c hab (h.1 c hc)
      case isFalse hab =>
        have hba : le b a = true := (hTotal a b).resolve_left hab
        rw [List.pairwise_cons]
        refine ⟨?_, ih h.2⟩
        intro c hc
        rcases mem_insertBy.1 hc with rfl | hc
        · exact hba
        · exact h.1 c hc

theorem pairwise_sortBy (hTotal : ∀ a b, le a b = true ∨ le b a = true)
    (hTrans : ∀ a b c, le a b = true → le b c = true → le a c = true) (l : List α) :
    (sortBy le l).Pairwise fun a b => le a b = true := by
  induction l with
  | nil => exact .nil
  | cons a rest ih => exact pairwise_insertBy hTotal hTrans ih

theorem insertBy_of_forall {a : α} {l : List α} (h : ∀ b ∈ l, le a b = true) :
    insertBy le a l = a :: l := by
  cases l with
  | nil => rfl
  | cons b rest => rw [insertBy, if_pos (h b (List.mem_cons_self ..))]

theorem filter_insertBy (hTrans : ∀ a b c, le a b = true → le b c = true → le a c = true)
    (p : α → Bool) {a : α} {l : List α} (h : l.Pairwise fun a b => le a b = true) :
    (insertBy le a l).filter p = if p a then insertBy le a (l.filter p) else l.filter p := by
  induction l with
  | nil => by_cases ha : p a = true <;> simp [insertBy, ha]
  | cons b rest ih =>
      rw [List.pairwise_cons] at h
      simp only [insertBy]
      split
      case isTrue hab =>
        -- what is left of the rest comes behind `b`, so the element comes before all of it
        have hFront : insertBy le a ((b :: rest).filter p) = a :: (b :: rest).filter p := by
          apply insertBy_of_forall
          intro c hc
          rcases List.mem_cons.1 (List.mem_filter.1 hc).1 with rfl | hc
          · exact hab
          · exact hTrans a b c hab (h.1 c hc)
        rw [hFront, List.filter_cons]
      case isFalse hab =>
        rw [List.filter_cons, ih h.2, List.filter_cons]
        by_cases hb : p b = true <;> by_cases ha : p a = true <;> simp [hb, ha, insertBy, hab]

theorem filter_sortBy (hTotal : ∀ a b, le a b = true ∨ le b a = true)
    (hTrans : ∀ a b c, le a b = true → le b c = true → le a c = true) (p : α → Bool)
    (l : List α) : (sortBy le l).filter p = sortBy le (l.filter p) := by
  induction l with
  | nil => rfl
  | cons a rest ih =>
      show (insertBy le a (sortBy le rest)).filter p = _
      rw [filter_insertBy hTrans p (pairwise_sortBy hTotal hTrans rest), ih, List.filter_cons]
      split <;> rfl

theorem sortBy_map {β : Type} {le' : β → β → Bool} {f : α → β}
    (h : ∀ a b, le' (f a) (f b) = le a b) (l : List α) :
    sortBy le' (l.map f) = (sortBy le l).map f := by
  have hInsert (a : α) (l : List α) : insertBy le' (f a) (l.map f) = (insertBy le a l).map f := by
    induction l with
    | nil => rfl
    | cons b rest ih =>
        simp only [List.map_cons, insertBy, h]
        split
        · rfl
        · rw [ih, List.map_cons]
  induction l with
  | nil => rfl
  | cons a rest ih =>
      show insertBy le' (f a) (sortBy le' (rest.map f)) = _
      rw [ih, hInsert]
      rfl

end ChangeSplit
