import ChangeSplit.Proofs.Collection.Traversal
import ChangeSplit.Proofs.Java.Anchor
import ChangeSplit.Proofs.Java.Nesting
import Mathlib.Data.List.Pairwise

/-! Which nodes lie inside a range of bytes. In a tidy tree the outermost of them are found in the
order of the source, each of them once, and every other one is below exactly one of them. Nodes
that reach over an end of the range are looked into, so nothing is lost there. -/

namespace ChangeSplit.Java

namespace Place

/-- The places right below a place, but for comments. -/
def inner (p : Place) : List Place := p.namedChildren.filter (!·.node.isComment)

/-- Whether a place lies inside a range of bytes and is no comment. -/
structure Inside (first last : Nat) (p : Place) : Prop where
  solid : p.node.isComment = false
  start : first ≤ p.node.start
  stop : p.node.stop ≤ last

/-- Whether a place is below another one. -/
def Under (p q : Place) : Prop := ∃ c ∈ p.namedChildren, q ∈ c.everything

variable {first last : Nat} {p q a b c : Place}

theorem map_node_inner (p : Place) : p.inner.map (·.node) = p.node.inner := by
  rw [inner, Tree.inner, namedChildren, List.filter_map, List.map_map]
  exact List.map_id _

theorem mem_inner : c ∈ p.inner ↔ c ∈ p.namedChildren ∧ c.node.isComment = false := by
  simp [inner]

/-- What is covered below a place, one place right below after another. -/
theorem coveredBelow_eq (first last : Nat) (p : Place) :
    coveredBelow first last p.above p.node = p.inner.flatMap fun c =>
      if first ≤ c.node.start && c.node.stop ≤ last then [c]
      else if c.node.start < last && c.node.stop > first then
        coveredBelow first last c.above c.node
      else [] := by
  obtain ⟨node, above⟩ := p
  cases node with
  | token => rfl
  | node role kind start stop children =>
      rw [coveredBelow, coveredAmong_eq, inner]
      refine (flatMap_filter_of_nil fun c _ hComment => ?_).symm.trans
        (List.flatMap_congr fun c hc => ?_)
      · rw [if_pos (by simpa using hComment)]
      · have hSolid := (List.mem_filter.1 hc).2
        rw [if_neg (by simpa using hSolid)]

/-- What holds of everything in a tree holds of everything below a place. -/
theorem all_of_mem_everything {P : Tree → Prop} (h : p.node.All P) (hq : q ∈ p.everything) :
    q.node.All P :=
  forall_mem_everything (P := fun p => p.node.All P) h
    (fun _ hp _ hc => hp.of_mem_children (node_mem_of_mem_namedChildren hc)) q hq

/-- What is below a place has more above it. -/
theorem eq_or_length_lt (h : q ∈ p.everything) : q = p ∨ p.above.length < q.above.length := by
  induction p using induction with
  | h p ih =>
      rcases mem_everything_iff.1 h with rfl | ⟨c, hc, hq⟩
      · exact .inl rfl
      · have hAbove : c.above.length = p.above.length + 1 := by
          rw [(mem_namedChildren_iff.1 hc).2, List.length_cons]
        rcases ih c hc hq with rfl | hLt
        · exact .inr (by omega)
        · exact .inr (by omega)

theorem Under.ne (h : p.Under q) : q ≠ p := by
  rintro rfl
  obtain ⟨c, hc, hq⟩ := h
  have hAbove : c.above.length = q.above.length + 1 := by
    rw [(mem_namedChildren_iff.1 hc).2, List.length_cons]
  rcases eq_or_length_lt hq with rfl | hLt <;> omega

theorem under_iff : p.Under q ↔ q ∈ p.everything ∧ q ≠ p := by
  constructor
  · intro h
    exact ⟨mem_everything_iff.2 (.inr h), h.ne⟩
  · rintro ⟨hMem, hNe⟩
    exact (mem_everything_iff.1 hMem).resolve_left hNe

theorem eq_of_mem_everything (h : p ∈ q.everything) (h' : q ∈ p.everything) : p = q := by
  rcases eq_or_length_lt h with hSame | hLt
  · exact hSame
  · rcases eq_or_length_lt h' with hSame | hLt'
    · exact hSame.symm
    · omega

section Tidy

/-- Below a comment there are only comments. -/
theorem isComment_of_tidy (h : p.node.All Tree.Tidy) (hComment : p.node.isComment = true)
    (hq : q ∈ p.everything) : q.node.isComment = true := by
  induction p using induction with
  | h p ih =>
      rcases mem_everything_iff.1 hq with rfl | ⟨c, hc, hq⟩
      · exact hComment
      · have hNone : p.inner = [] := List.map_eq_nil_iff.1 (by
          rw [map_node_inner, h.here.comment hComment])
        have hChild : c.node.isComment = true := by
          by_contra hNot
          have hMem := mem_inner.2 ⟨hc, by simpa using hNot⟩
          rw [hNone] at hMem
          cases hMem
        exact ih c hc (h.of_mem_children (node_mem_of_mem_namedChildren hc)) hChild hq

/-- So what is below a place and no comment is below one of those right below that are none. -/
theorem exists_inner (h : p.node.All Tree.Tidy) (hUnder : p.Under q)
    (hSolid : q.node.isComment = false) : ∃ c ∈ p.inner, q ∈ c.everything := by
  obtain ⟨c, hc, hq⟩ := hUnder
  refine ⟨c, mem_inner.2 ⟨hc, ?_⟩, hq⟩
  rw [← Bool.not_eq_true]
  intro hComment
  rw [isComment_of_tidy (h.of_mem_children (node_mem_of_mem_namedChildren hc)) hComment hq]
    at hSolid
  cases hSolid

theorem row_inner (h : p.node.All Tree.Tidy) :
    (∀ c ∈ p.inner, p.node.start ≤ c.node.start ∧ c.node.start < c.node.stop ∧
      c.node.stop ≤ p.node.stop) ∧
      p.inner.Pairwise fun c d => c.node.stop ≤ d.node.start := by
  have hRow := h.here.row
  rw [← map_node_inner] at hRow
  refine ⟨fun c hc => ?_, List.pairwise_map.1 hRow.apart⟩
  have hMem : c.node ∈ p.inner.map (·.node) := List.mem_map_of_mem hc
  exact ⟨(hRow.within _ hMem).1, hRow.proper _ hMem, (hRow.within _ hMem).2⟩

theorem all_of_mem_inner {P : Tree → Prop} (h : p.node.All P) (hc : c ∈ p.inner) : c.node.All P :=
  h.of_mem_children (node_mem_of_mem_namedChildren (mem_inner.1 hc).1)

/-- What is below a place lies inside of it. -/
theorem within_of_mem_everything (h : p.node.All Tree.Tidy) (hq : q ∈ p.everything)
    (hSolid : q.node.isComment = false) :
    p.node.start ≤ q.node.start ∧ q.node.stop ≤ p.node.stop := by
  induction p using induction with
  | h p ih =>
      by_cases hSame : q = p
      · rw [hSame]
        exact ⟨Nat.le_refl _, Nat.le_refl _⟩
      · obtain ⟨c, hc, hq⟩ := exists_inner h (under_iff.2 ⟨hq, hSame⟩) hSolid
        obtain ⟨hStart, _, hStop⟩ := (row_inner h).1 c hc
        obtain ⟨hFrom, hTo⟩ := ih c (mem_inner.1 hc).1 (all_of_mem_inner h hc) hq
        exact ⟨by omega, by omega⟩

theorem proper_of_under (h : p.node.All Tree.Tidy) (hUnder : p.Under q)
    (hSolid : q.node.isComment = false) : q.node.start < q.node.stop := by
  induction p using induction with
  | h p ih =>
      obtain ⟨c, hc, hq⟩ := exists_inner h hUnder hSolid
      by_cases hSame : q = c
      · rw [hSame]
        exact ((row_inner h).1 c hc).2.1
      · exact ih c (mem_inner.1 hc).1 (all_of_mem_inner h hc) (under_iff.2 ⟨hq, hSame⟩)

/-- What is covered below a place is below it, inside of the range. -/
theorem under_of_mem_coveredBelow (h : q ∈ coveredBelow first last p.above p.node) :
    p.Under q ∧ q.Inside first last := by
  induction p using induction with
  | h p ih =>
      obtain ⟨c, hc, ⟨rfl, hSolid, hStart, hStop⟩ | hBelow⟩ := exists_of_mem_coveredBelow h
      · exact ⟨⟨q, hc, mem_everything_self q⟩, hSolid, hStart, hStop⟩
      · obtain ⟨hUnder, hInside⟩ := ih c hc hBelow
        exact ⟨⟨c, hc, (under_iff.1 hUnder).1⟩, hInside⟩

/-- Every place below that lies inside of the range is covered, or below one that is. The induction
goes down to the first place on the way that lies inside as a whole. -/
theorem exists_mem_coveredBelow (h : p.node.All Tree.Tidy) (hUnder : p.Under q)
    (hInside : q.Inside first last) :
    ∃ a ∈ coveredBelow first last p.above p.node, q ∈ a.everything := by
  induction p using induction with
  | h p ih =>
      obtain ⟨c, hc, hq⟩ := exists_inner h hUnder hInside.solid
      have hTidy := all_of_mem_inner h hc
      obtain ⟨hFrom, hTo⟩ := within_of_mem_everything hTidy hq hInside.solid
      have hProper := proper_of_under h hUnder hInside.solid
      have hStart := hInside.start
      have hStop := hInside.stop
      rw [coveredBelow_eq]
      by_cases hWhole : first ≤ c.node.start ∧ c.node.stop ≤ last
      · refine ⟨c, List.mem_flatMap.2 ⟨c, hc, ?_⟩, hq⟩
        rw [if_pos (by simpa using hWhole)]
        exact List.mem_singleton.2 rfl
      · have hNe : q ≠ c := by
          rintro rfl
          exact hWhole ⟨hStart, hStop⟩
        obtain ⟨a, ha, hBelow⟩ :=
          ih c (mem_inner.1 hc).1 hTidy (under_iff.2 ⟨hq, hNe⟩)
        refine ⟨a, List.mem_flatMap.2 ⟨c, hc, ?_⟩, hBelow⟩
        have hReaches : c.node.start < last ∧ c.node.stop > first := ⟨by omega, by omega⟩
        rw [if_neg (by simpa using hWhole), if_pos (by simpa using hReaches)]
        exact ha

/-- What is covered stands behind each other. -/
theorem pairwise_coveredBelow (h : p.node.All Tree.Tidy) :
    (coveredBelow first last p.above p.node).Pairwise fun a b => a.node.stop ≤ b.node.start := by
  induction p using induction with
  | h p ih =>
      obtain ⟨hRow, hApart⟩ := row_inner h
      have hPart (c : Place) (hc : c ∈ p.inner) (a : Place)
          (ha : a ∈ (if first ≤ c.node.start && c.node.stop ≤ last then [c]
            else if c.node.start < last && c.node.stop > first then
              coveredBelow first last c.above c.node
            else [])) : a ∈ c.everything ∧ a.node.isComment = false := by
        split at ha
        case isTrue =>
          rw [List.mem_singleton.1 ha]
          exact ⟨mem_everything_self c, (mem_inner.1 hc).2⟩
        case isFalse =>
          split at ha
          case isTrue =>
            obtain ⟨hUnder, hInside⟩ := under_of_mem_coveredBelow ha
            exact ⟨(under_iff.1 hUnder).1, hInside.solid⟩
          case isFalse => cases ha
      rw [coveredBelow_eq]
      refine List.pairwise_flatMap.2 ⟨fun c hc => ?_, ?_⟩
      · split
        case isTrue => exact List.pairwise_singleton _ _
        case isFalse =>
          split
          case isTrue => exact ih c (mem_inner.1 hc).1 (all_of_mem_inner h hc)
          case isFalse => exact .nil
      · refine hApart.imp_of_mem fun hc hd hLe a ha b hb => ?_
        obtain ⟨haMem, haSolid⟩ := hPart _ hc a ha
        obtain ⟨hbMem, hbSolid⟩ := hPart _ hd b hb
        have hEnd := (within_of_mem_everything (all_of_mem_inner h hc) haMem haSolid).2
        have hBegin := (within_of_mem_everything (all_of_mem_inner h hd) hbMem hbSolid).1
        omega

end Tidy

end Place

namespace SourceUnit

/-- Whether a place of a source, but for the source itself, lies inside of a range of bytes and is
no comment. -/
structure LiesIn (unit : SourceUnit) (first last : Nat) (q : Place) : Prop where
  mem : q ∈ unit.top.everything
  ne : q ≠ unit.top
  inside : q.Inside first last

/-- A list of the outermost places inside of a range, in the order of the source. -/
structure ListsOutermost (unit : SourceUnit) (first last : Nat) (found : List Place) : Prop where
  rising : found.Pairwise fun p q => p.node.start < q.node.start
  once : found.Nodup
  apart : found.Pairwise fun p q => p.node.stop ≤ q.node.start
  mem_iff : ∀ p, p ∈ found ↔ unit.LiesIn first last p ∧
    ∀ q, unit.LiesIn first last q → p ∈ q.everything → q = p
  covers : ∀ q, unit.LiesIn first last q → ∃! p, p ∈ found ∧ q ∈ p.everything

variable {unit : SourceUnit} {first last : Nat}

/-- In a tidy tree, what is covered are the outermost places that lie inside of the range. They come
in the order of the source, with nothing in common and none of them twice, and each place inside of
the range is one of them or below exactly one. -/
theorem covered_outermost (hTidy : unit.root.All Tree.Tidy) (hRange : first < last) :
    unit.ListsOutermost first last (unit.covered first last) := by
  let found := unit.covered first last
  have hFound : found = Place.coveredBelow first last unit.top.above unit.top.node :=
    if_neg (Nat.not_le.2 hRange)
  have hLies {q : Place} :
      unit.LiesIn first last q ↔ unit.top.Under q ∧ q.Inside first last :=
    ⟨fun h => ⟨Place.under_iff.2 ⟨h.mem, h.ne⟩, h.inside⟩,
      fun ⟨hUnder, hInside⟩ =>
        ⟨(Place.under_iff.1 hUnder).1, (Place.under_iff.1 hUnder).2, hInside⟩⟩
  have hSound (p : Place) (hp : p ∈ found) : unit.LiesIn first last p := by
    rw [hFound] at hp
    exact hLies.2 (Place.under_of_mem_coveredBelow hp)
  have hProper (p : Place) (hp : unit.LiesIn first last p) : p.node.start < p.node.stop :=
    Place.proper_of_under hTidy (hLies.1 hp).1 hp.inside.solid
  have hApart : found.Pairwise fun p q => p.node.stop ≤ q.node.start := by
    rw [hFound]
    exact Place.pairwise_coveredBelow hTidy
  have hOrder : found.Pairwise fun p q => p.node.start < q.node.start :=
    hApart.imp_of_mem fun hp _ hLe => Nat.lt_of_lt_of_le (hProper _ (hSound _ hp)) hLe
  have hComplete (q : Place) (hq : unit.LiesIn first last q) : ∃ p ∈ found, q ∈ p.everything := by
    rw [hFound]
    exact Place.exists_mem_coveredBelow hTidy (hLies.1 hq).1 hq.inside
  -- Places with something in common below them overlap, which those that are found do not.
  have hOnce (q a b : Place) (hq : unit.LiesIn first last q) (ha : a ∈ found) (hb : b ∈ found)
      (hqa : q ∈ a.everything) (hqb : q ∈ b.everything) : a = b := by
    have hSpan (p : Place) (hp : p ∈ found) (hqp : q ∈ p.everything) :
        p.node.start ≤ q.node.start ∧ q.node.stop ≤ p.node.stop :=
      Place.within_of_mem_everything (Place.all_of_mem_everything (p := unit.top) hTidy
        (hSound p hp).mem) hqp hq.inside.solid
    have hA := hSpan a ha hqa
    have hB := hSpan b hb hqb
    have hq := hProper q hq
    by_contra hNe
    have hSymm : Std.Symm fun a b : Place =>
        a.node.stop ≤ b.node.start ∨ b.node.stop ≤ a.node.start := ⟨fun _ _ => Or.symm⟩
    have hBeside : found.Pairwise fun a b =>
        a.node.stop ≤ b.node.start ∨ b.node.stop ≤ a.node.start := hApart.imp Or.inl
    rcases hBeside.forall ha hb hNe with hBefore | hBehind <;> omega
  refine ⟨hOrder, hOrder.imp fun hLt hSame => ?_, hApart, fun p => ⟨fun hp => ?_, ?_⟩,
    fun q hq => ?_⟩
  · rw [hSame] at hLt
    exact Nat.lt_irrefl _ hLt
  · refine ⟨hSound p hp, fun q hq hpq => ?_⟩
    obtain ⟨a, ha, hqa⟩ := hComplete q hq
    obtain rfl : a = p := hOnce p a p (hSound p hp) ha hp (Place.mem_everything_trans hqa hpq)
      (Place.mem_everything_self p)
    exact Place.eq_of_mem_everything hqa hpq
  · rintro ⟨hp, hOutermost⟩
    obtain ⟨a, ha, hpa⟩ := hComplete p hp
    rwa [hOutermost a (hSound a ha) hpa] at ha
  · obtain ⟨a, ha, hqa⟩ := hComplete q hq
    exact ⟨a, ⟨ha, hqa⟩, fun b ⟨hb, hqb⟩ => hOnce q b a hq hb ha hqb hqa⟩

/-- A class with a field, a comment and a method with two calls. -/
def classWithCalls : String :=
  "class A\x7b\n int x; // x\n void f()\x7bg();h();\x7d\n\x7d"

/-- A range from the field to the opening bracket of the first call cuts the class, the method, its
body, a statement and a call. -/
theorem covered_outermost_classWithCalls :
    ∃ unit, parse (Utf8.encode classWithCalls) "A.java" = .ok unit ∧
      (unit.covered 10 34).map (fun p => unit.text p.node) = ["int x;", "void", "f", "()", "g"] ∧
      unit.ListsOutermost 10 34 (unit.covered 10 34) := by
  have hUnit : ∃ unit ∈ (parse (Utf8.encode classWithCalls) "A.java").toOption.toList,
      (unit.covered 10 34).map (fun p => unit.text p.node) =
        ["int x;", "void", "f", "()", "g"] := by
    decide +kernel
  obtain ⟨unit, hMem, hTexts⟩ := hUnit
  have hParse := mem_toOption_iff.1 hMem
  exact ⟨unit, hParse, hTexts, covered_outermost (tidy_of_parse hParse) (by decide)⟩

end SourceUnit

end ChangeSplit.Java
