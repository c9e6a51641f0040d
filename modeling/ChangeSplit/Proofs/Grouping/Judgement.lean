import ChangeSplit.Grouping.Partition
import ChangeSplit.Proofs.Collection.OrderedSet
import ChangeSplit.Proofs.Text.Quoted
import Mathlib.Data.List.Nodup

/-! What checking groups comes to. Groups are judged by how often each name is in them, and the
check by comparing sets and lengths. Both come to the same, and the words for a fault tell which
fault it is. -/

namespace ChangeSplit

namespace PartitionFault

/-- The first letter of the words for a fault, which tells its kind. -/
def letter : PartitionFault → Char
  | unknown _ => 'g'
  | repeated => 'a'
  | missing _ => 'h'

theorem head?_message (fault : PartitionFault) :
    fault.message.toList.head? = some fault.letter := by
  have hFront {front : String} {c : Char} (h : front.toList.head? = some c) (rest : String) :
      (front ++ rest).toList.head? = some c := by
    rw [String.toList_append, List.head?_append, h, Option.some_or]
  cases fault with
  | unknown names => exact hFront rfl _
  | repeated => rfl
  | missing names => exact hFront rfl _

/-- The words for a fault tell its kind and its names. -/
theorem message_inj {fault other : PartitionFault} (h : fault.message = other.message) :
    fault = other := by
  have hLetter : fault.letter = other.letter := by
    rw [← Option.some_inj, ← head?_message, ← head?_message, h]
  cases fault with
  | unknown names =>
      cases other with
      | unknown others => rw [Text.quotedList_inj ((String.append_right_inj _).1 h)]
      | repeated => simp [letter] at hLetter
      | missing others => simp [letter] at hLetter
  | repeated =>
      cases other with
      | repeated => rfl
      | unknown others => simp [letter] at hLetter
      | missing others => simp [letter] at hLetter
  | missing names =>
      cases other with
      | missing others => rw [Text.quotedList_inj ((String.append_right_inj _).1 h)]
      | repeated => simp [letter] at hLetter
      | unknown others => simp [letter] at hLetter

end PartitionFault

namespace Grouping

variable {groups : List Group} {files : List FileChange}

/-- All hunks of the groups, one group after the other. -/
def assigned (groups : List Group) : List String := groups.flatMap (·.hunks)

/-- The names of one list that are not in another, each once and in order. There has to be one. -/
structure Extra (l m names : List String) : Prop where
  nonempty : names ≠ []
  sorted : names.Pairwise fun a b => compare a b = .lt
  mem_iff : ∀ name, name ∈ names ↔ name ∈ l ∧ ¬ name ∈ m

theorem extra_iff {l m names : List String} :
    Extra l m names ↔
      names ≠ [] ∧ (OrderedSet.ofList l).without (OrderedSet.ofList m) = names := by
  simp only [OrderedSet.without_eq_iff, OrderedSet.mem_ofList]
  exact ⟨fun h => ⟨h.nonempty, h.sorted, h.mem_iff⟩, fun h => ⟨h.1, h.2.1, h.2.2⟩⟩

/-- There is no name to list just if the one list is part of the other. -/
theorem without_eq_nil_iff {l m : List String} :
    (OrderedSet.ofList l).without (OrderedSet.ofList m) = [] ↔ l ⊆ m := by
  simp [OrderedSet.without_eq_iff, List.subset_def]

/-- What there is to say of groups for the hunks of a change. One fault is told, and those of the
groups come before those of the hunks that are in none. -/
inductive Judged (groups : List Group) (files : List FileChange) : Option PartitionFault → Prop
  | sound
      (once : ∀ name ∈ hunkNames files, (assigned groups).count name = 1)
      (known : assigned groups ⊆ hunkNames files) :
      Judged groups files none
  | unknown {names : List String}
      (extra : Extra (assigned groups) (hunkNames files) names) :
      Judged groups files (some (PartitionFault.unknown names))
  | repeated
      (known : assigned groups ⊆ hunkNames files)
      (twice : ∃ name, 2 ≤ (assigned groups).count name) :
      Judged groups files (some PartitionFault.repeated)
  | missing {names : List String}
      (known : assigned groups ⊆ hunkNames files)
      (atMostOnce : ∀ name, (assigned groups).count name ≤ 1)
      (extra : Extra (hunkNames files) (assigned groups) names) :
      Judged groups files (some (PartitionFault.missing names))

theorem not_nodup_iff {l : List String} : ¬ l.Nodup ↔ ∃ name, 2 ≤ l.count name := by
  rw [List.nodup_iff_count, not_forall]
  exact exists_congr fun name => Nat.not_le

/-- The three tests are whether all names are known, whether none repeats and whether all hunks are
in a group. -/
theorem partitionFault?_eq (groups : List Group) (files : List FileChange) :
    partitionFault? groups files =
      if assigned groups ⊆ hunkNames files then
        if (assigned groups).Nodup then
          if hunkNames files ⊆ assigned groups then none
          else some (.missing ((OrderedSet.ofList (hunkNames files)).without
            (OrderedSet.ofList (assigned groups))))
        else some .repeated
      else some (.unknown ((OrderedSet.ofList (assigned groups)).without
        (OrderedSet.ofList (hunkNames files)))) := by
  have hSize : (assigned groups).Nodup ↔
      (assigned groups).length = (OrderedSet.ofList (assigned groups)).size := by
    rw [← OrderedSet.size_ofList_eq_iff, eq_comm]
  simp only [← without_eq_nil_iff, hSize, ← List.isEmpty_iff]
  simp only [partitionFault?, assigned, Bool.not_eq_true', ← Bool.not_eq_true, ne_eq, ite_not]
  congr

/-- What is said of groups is what checking them comes to. -/
theorem partitionFault?_eq_iff {fault : Option PartitionFault} :
    partitionFault? groups files = fault ↔ Judged groups files fault := by
  rw [partitionFault?_eq]
  constructor
  · rintro rfl
    split_ifs with hKnown hNodup hAll
    · exact .sound (fun name hName => List.count_eq_one_of_mem hNodup (hAll hName)) hKnown
    · exact .missing hKnown (List.nodup_iff_count.1 hNodup)
        (extra_iff.2 ⟨without_eq_nil_iff.not.2 hAll, rfl⟩)
    · exact .repeated hKnown (not_nodup_iff.1 hNodup)
    · exact .unknown (extra_iff.2 ⟨without_eq_nil_iff.not.2 hKnown, rfl⟩)
  · intro hJudged
    cases hJudged with
    | sound once known =>
        have hNodup : (assigned groups).Nodup :=
          List.nodup_iff_count_eq_one.2 fun name hName => once name (known hName)
        have hAll : hunkNames files ⊆ assigned groups := fun name hName =>
          List.count_pos_iff.1 (Nat.lt_of_lt_of_eq Nat.zero_lt_one (once name hName).symm)
        rw [if_pos known, if_pos hNodup, if_pos hAll]
    | unknown extra =>
        obtain ⟨hSome, rfl⟩ := extra_iff.1 extra
        rw [if_neg (without_eq_nil_iff.not.1 hSome)]
    | repeated known twice => rw [if_pos known, if_neg (not_nodup_iff.2 twice)]
    | missing known atMostOnce extra =>
        obtain ⟨hSome, rfl⟩ := extra_iff.1 extra
        rw [if_pos known, if_pos (List.nodup_iff_count.2 atMostOnce),
          if_neg (without_eq_nil_iff.not.1 hSome)]

/-- Checking groups finds nothing just if each hunk of the change is in them once and nothing else
is. Otherwise names that are not hunks come first, all of them in order, then repetition, and then
the hunks that are in no group, all of them in order. The words for a fault tell its kind and its
names. -/
theorem judged_iff (groups : List Group) (files : List FileChange) :
    (∀ fault, partitionFault? groups files = fault ↔ Judged groups files fault) ∧
      ∀ fault other : PartitionFault, fault.message = other.message ↔ fault = other :=
  ⟨fun _ => partitionFault?_eq_iff,
    fun _ _ => ⟨PartitionFault.message_inj, congrArg PartitionFault.message⟩⟩

/-- Of several faults at once the names that are not hunks are told. -/
example : partitionFault? [⟨"group0", ["0:0", "9:9", "0:0"], ""⟩, ⟨"group1", ["2:10", "2:9"], ""⟩]
    [{ index := 0, hunks := [{ index := 0 }, { index := 1 }] }] =
      some (.unknown ["2:10", "2:9", "9:9"]) := by decide +kernel

end Grouping

end ChangeSplit
