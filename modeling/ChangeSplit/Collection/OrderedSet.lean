/-! Finite sets as strictly increasing lists. Sets with the same members are equal, and walking
one meets its members in order. -/

namespace ChangeSplit

/-- A finite set, kept as the increasing list of its members. -/
structure OrderedSet (α : Type) [Ord α] where
  toList : List α
  sorted : toList.Pairwise fun a b => compare a b = .lt

namespace OrderedSet

variable {α : Type} [Ord α]

/-- Put an element into an increasing list at its place, unless it is there. -/
def place (a : α) : List α → List α
  | [] => [a]
  | b :: rest =>
    match compare a b with
    | .lt => a :: b :: rest
    | .eq => b :: rest
    | .gt => b :: place a rest

/-- Placing adds the new element and no other. The order need not be lawful for this. -/
theorem mem_of_mem_place {a c : α} {l : List α} (h : c ∈ place a l) : c = a ∨ c ∈ l := by
  induction l with
  | nil => simpa [place] using h
  | cons b rest ih =>
    simp only [place] at h
    split at h
    · simpa using h
    · exact .inr h
    · rcases List.mem_cons.1 h with rfl | h
      · exact .inr (List.mem_cons_self ..)
      · rcases ih h with rfl | h
        · exact .inl rfl
        · exact .inr (List.mem_cons_of_mem _ h)

theorem sorted_place [Std.TransOrd α] {a : α} {l : List α}
    (h : l.Pairwise fun a b => compare a b = .lt) :
    (place a l).Pairwise fun a b => compare a b = .lt := by
  induction l with
  | nil => simp [place]
  | cons b rest ih =>
    rw [List.pairwise_cons] at h
    simp only [place]
    split
    case h_1 hab =>
      rw [List.pairwise_cons, List.pairwise_cons]
      refine ⟨fun c hc => ?_, h⟩
      rcases List.mem_cons.1 hc with rfl | hc
      · exact hab
      · exact Std.TransCmp.lt_trans hab (h.1 c hc)
    case h_2 => exact List.pairwise_cons.2 h
    case h_3 hab =>
      rw [List.pairwise_cons]
      refine ⟨fun c hc => ?_, ih h.2⟩
      rcases mem_of_mem_place hc with rfl | hc
      · exact Std.OrientedCmp.gt_iff_lt.1 hab
      · exact h.1 c hc

/-- The set without members. -/
def empty : OrderedSet α := ⟨[], .nil⟩

instance : EmptyCollection (OrderedSet α) := ⟨empty⟩

instance : Inhabited (OrderedSet α) := ⟨empty⟩

/-- A set with one more member. -/
def insert [Std.TransOrd α] (s : OrderedSet α) (a : α) : OrderedSet α :=
  ⟨place a s.toList, sorted_place s.sorted⟩

/-- The set of the elements of a list. -/
def ofList [Std.TransOrd α] (l : List α) : OrderedSet α := l.foldl insert empty

/-- The members of either set. -/
def union [Std.TransOrd α] (s t : OrderedSet α) : OrderedSet α := t.toList.foldl insert s

/-- Whether an element is a member. -/
def contains (s : OrderedSet α) (a : α) : Bool := s.toList.any fun b => compare a b == .eq

/-- The number of members. -/
def size (s : OrderedSet α) : Nat := s.toList.length

/-- Whether there are no members. -/
def isEmpty (s : OrderedSet α) : Bool := s.toList.isEmpty

/-- The number of members that two sets share. -/
def sharedCount (s t : OrderedSet α) : Nat := (s.toList.filter t.contains).length

/-- The members of the first set that are not in the second, in order. -/
def without (s t : OrderedSet α) : List α := s.toList.filter (!t.contains ·)

end OrderedSet

end ChangeSplit
