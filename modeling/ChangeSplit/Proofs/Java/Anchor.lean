import ChangeSplit.Proofs.Java.Place

/-! What lies inside a range of bytes, and what it is put down to, are places of the source. -/

namespace ChangeSplit.Java

namespace Place

variable {first last : Nat} {p q a : Place}

theorem coveredAmong_eq (above ts : List Tree) :
    coveredAmong first last above ts =
      ((ts.filter Tree.isNamed).map fun t => (⟨t, above⟩ : Place)).flatMap fun c =>
        if c.node.isComment then []
        else if first ≤ c.node.start && c.node.stop ≤ last then [c]
        else if c.node.start < last && c.node.stop > first then
          coveredBelow first last c.above c.node
        else [] := by
  induction ts with
  | nil => rfl
  | cons t ts ih =>
      rw [coveredAmong, ih]
      by_cases ht : t.isNamed = true
      · simp [ht]
      · simp [ht]

/-- What is covered below a place is among the places right below, and lies inside the range, or is
covered below one of them. -/
theorem exists_of_mem_coveredBelow (h : q ∈ coveredBelow first last p.above p.node) :
    ∃ c ∈ p.namedChildren,
      (q = c ∧ c.node.isComment = false ∧ first ≤ c.node.start ∧ c.node.stop ≤ last) ∨
        q ∈ coveredBelow first last c.above c.node := by
  obtain ⟨node, above⟩ := p
  cases node with
  | token => cases h
  | node role kind start stop children =>
      rw [coveredBelow, coveredAmong_eq] at h
      obtain ⟨c, hc, h⟩ := List.mem_flatMap.1 h
      refine ⟨c, hc, ?_⟩
      split at h
      case isTrue => cases h
      case isFalse hComment =>
        split at h
        case isTrue hInside =>
          simp only [Bool.and_eq_true, decide_eq_true_eq] at hInside
          exact .inl ⟨List.mem_singleton.1 h, by simpa using hComment, hInside⟩
        case isFalse =>
          split at h
          case isTrue => exact .inr h
          case isFalse => cases h

theorem mem_everything_of_mem_coveredBelow (h : q ∈ coveredBelow first last p.above p.node) :
    q ∈ p.everything := by
  induction p using induction with
  | h p ih =>
      obtain ⟨c, hc, ⟨rfl, _⟩ | h⟩ := exists_of_mem_coveredBelow h
      · exact mem_everything_iff.2 (.inr ⟨q, hc, mem_everything_self q⟩)
      · exact mem_everything_iff.2 (.inr ⟨c, hc, ih c hc h⟩)

theorem anchor?_eq_some (h : p.anchor? = some a) :
    a ∈ p.chain ∧ (a.node.isA .importDeclaration = true ∨ a.kindIs Kind.isStatement = true ∨
      a.isNamedMember = true) := by
  have hTest := List.find?_some h
  simp only [Bool.or_eq_true, or_assoc] at hTest
  exact ⟨List.mem_of_find?_eq_some h, hTest⟩

theorem mem_chain_of_mem_enclosingMembers (h : a ∈ p.enclosingMembers) :
    a ∈ p.chain ∧ a.isNamedMember = true :=
  List.mem_filter.1 h

end Place

theorem SourceUnit.mem_everything_of_mem_covered {unit : SourceUnit} {first last : Nat} {q : Place}
    (h : q ∈ unit.covered first last) : q ∈ unit.top.everything := by
  unfold covered at h
  split at h
  case isTrue => cases h
  case isFalse => exact Place.mem_everything_of_mem_coveredBelow (p := unit.top) h

end ChangeSplit.Java
