import ChangeSplit.Proofs.Grouping.Greedy
import Mathlib.Logic.Function.Basic

/-! Merging clusters of several parts that have nothing to do with each other. Every cluster of the
whole is a copy of one in some part. The first candidate of the whole is the first one of its part,
so each round of the whole is a round of one part, and the whole ends when all parts do. -/

namespace ChangeSplit.Grouping

variable {ι : Type} {edges : ι → List Edge} {whole : List Edge}
variable {copies : ι → Cluster → Cluster → Prop}

/-- What makes clusters of the whole copies of those of the parts: all that candidates depend on is
the same, except numbers and stamps, and no two clusters of different parts come near each other. -/
structure Copying (edges : ι → List Edge) (whole : List Edge)
    (copies : ι → Cluster → Cluster → Prop) : Prop where
  hunks : ∀ {i c c'}, copies i c c' → c'.hunks = c.hunks
  facts : ∀ {i c c'}, copies i c c' → c'.facts = c.facts
  distance : ∀ {i c c' d d'}, copies i c c' → copies i d d' →
    (Tie.between whole c' d').distance = (Tie.between (edges i) c d).distance
  quarters : ∀ {i c c' d d'}, copies i c c' → copies i d d' →
    (Tie.between whole c' d').quarters whole = (Tie.between (edges i) c d).quarters (edges i)
  unique : ∀ {i j c d c'}, copies i c c' → copies j d c' → i = j
  apart : ∀ {i j c c' d d'}, copies i c c' → copies j d d' → i ≠ j →
    (Tie.between whole c' d').distance = none
  absorb : ∀ {i c c' d d'}, copies i c c' → copies i d d' → copies i (c.absorb d) (c'.absorb d')

/-- Whether some clusters are just the copies of those of the parts. -/
structure Mirrors (copies : ι → Cluster → Cluster → Prop) (parts : ι → List Cluster)
    (clusters : List Cluster) : Prop where
  image : ∀ i, ∀ c ∈ parts i, ∃ c' ∈ clusters, copies i c c'
  source : ∀ c' ∈ clusters, ∃ i, ∃ c ∈ parts i, copies i c c'

namespace Copying

variable {s : Settings} {i : ι} {c c' d d' : Cluster} {distance : Nat}

theorem first_eq (h : Copying edges whole copies) (hc : copies i c c') : c'.first = c.first := by
  rw [Cluster.first, Cluster.first, h.hunks hc]

theorem similarity_eq (h : Copying edges whole copies) (hc : copies i c c')
    (hd : copies i d d') : c'.similarity d' = c.similarity d := by
  rw [Cluster.similarity, Cluster.similarity, h.facts hc, h.facts hd]

/-- Copies pass the gates just if the clusters of the part do. -/
theorem passes_iff (h : Copying edges whole copies) (hc : copies i c c') (hd : copies i d d') :
    Passes s whole (Tie.between whole c' d') (c'.similarity d') distance ↔
      Passes s (edges i) (Tie.between (edges i) c d) (c.similarity d) distance := by
  rw [passes_iff_of_eq (h.distance hc hd) (h.quarters hc hd), h.similarity_eq hc hd]

theorem rank_ofEither (h : Copying edges whole copies) (hc : copies i c c')
    (hd : copies i d d') :
    (Candidate.ofEither distance c' d').rank (Candidate.ofEither distance c d) = .eq := by
  unfold Candidate.ofEither
  rw [h.first_eq hc, h.first_eq hd]
  split
  case isTrue =>
    exact Candidate.rank_eq_eq rfl (h.similarity_eq hd hc) (h.first_eq hd) (h.first_eq hc)
  case isFalse =>
    exact Candidate.rank_eq_eq rfl (h.similarity_eq hc hd) (h.first_eq hc) (h.first_eq hd)

section Rounds

variable {g : Graph} {graphs : ι → Graph} {limit : Option Int}
variable {parts : ι → List Cluster} {clusters : List Cluster}

/-- A cluster has one copy only, and is the only one that a cluster is a copy of. -/
theorem eq_iff (h : Copying edges whole copies) (hWhole : Separate g limit clusters)
    (hPart : Separate (graphs i) limit (parts i)) (hc : c ∈ parts i) (hd : d ∈ parts i)
    (hc' : c' ∈ clusters) (hd' : d' ∈ clusters) (hCopy : copies i c c') (hCopy' : copies i d d') :
    c.id = d.id ↔ c'.id = d'.id := by
  constructor
  · intro hId
    have hSame := hPart.eq_of_id hc hd hId
    subst hSame
    rw [hWhole.eq_of_hunks hc' hd' ((h.hunks hCopy).trans (h.hunks hCopy').symm)]
  · intro hId
    have hSame := hWhole.eq_of_id hc' hd' hId
    subst hSame
    rw [hPart.eq_of_hunks hc hd ((h.hunks hCopy).symm.trans (h.hunks hCopy'))]

/-- A candidate of a part is offered in the whole, too, under the same rank. -/
theorem exists_offered (h : Copying edges whole copies) (hMirrors : Mirrors copies parts clusters)
    (hWhole : Separate g limit clusters) (hPart : Separate (graphs i) limit (parts i))
    {e : Candidate} (he : Greedy.Offered s (edges i) (parts i) e) :
    ∃ e', Greedy.Offered s whole clusters e' ∧ e'.rank e = .eq := by
  obtain ⟨x, hx, y, hy, hId, hCandidate⟩ := he
  obtain ⟨distance, hPasses, rfl⟩ := candidate?_eq_some_iff.1 hCandidate
  obtain ⟨x', hx', hCopy⟩ := hMirrors.image i x hx
  obtain ⟨y', hy', hCopy'⟩ := hMirrors.image i y hy
  have hId' : x'.id ≠ y'.id := fun hSame =>
    hId ((h.eq_iff hWhole hPart hx hy hx' hy' hCopy hCopy').2 hSame)
  exact ⟨_, Greedy.offered_of_passes hx' hy' hId' ((h.passes_iff hCopy hCopy').2 hPasses),
    h.rank_ofEither hCopy hCopy'⟩

/-- The first candidate of the whole comes from the first candidate of one part. -/
theorem exists_first (h : Copying edges whole copies) (hMirrors : Mirrors copies parts clusters)
    (hWhole : Separate g limit clusters) (hParts : ∀ i, Separate (graphs i) limit (parts i))
    {e : Candidate} (he : Greedy.First s whole clusters e) :
    ∃ i, ∃ c ∈ parts i, ∃ d ∈ parts i, ∃ c' ∈ clusters, ∃ d' ∈ clusters,
      copies i c c' ∧ copies i d d' ∧ c.id ≠ d.id ∧ ∃ distance,
        e = .ofPair distance c' d' ∧ Greedy.First s (edges i) (parts i) (.ofPair distance c d) := by
  have hOffered := (Greedy.mem_candidates_iff hWhole).1 he.1
  obtain ⟨c', hc', d', hd', hId', distance, hPasses, rfl⟩ :=
    Greedy.exists_pair_of_offered hWhole.numbered hOffered
  obtain ⟨i, c, hc, hCopy⟩ := hMirrors.source c' hc'
  obtain ⟨j, d, hd, hCopy'⟩ := hMirrors.source d' hd'
  have hOne : i = j := by
    by_contra hNe
    have hDistance := hPasses.distance_eq
    rw [h.apart hCopy hCopy' hNe] at hDistance
    cases hDistance
  subst hOne
  have hId : c.id ≠ d.id := fun hSame =>
    hId' ((h.eq_iff hWhole (hParts i) hc hd hc' hd' hCopy hCopy').1 hSame)
  have hOrder : HunkName.lt d'.first c'.first = false := Greedy.ordered_of_offered hOffered
  have hOrder' : HunkName.lt d.first c.first = false := by
    rwa [← h.first_eq hCopy, ← h.first_eq hCopy']
  have hEq := Candidate.ofEither_eq hOrder distance
  have hEq' := Candidate.ofEither_eq hOrder' distance
  have hRank : (Candidate.ofEither distance c' d').rank (.ofEither distance c d) = .eq :=
    h.rank_ofEither hCopy hCopy'
  rw [hEq, hEq'] at hRank
  refine ⟨i, c, hc, d, hd, c', hc', d', hd', hCopy, hCopy', hId, distance, rfl, ?_, fun e he' => ?_⟩
  · rw [Greedy.mem_candidates_iff (hParts i), ← hEq']
    exact Greedy.offered_of_passes hc hd hId ((h.passes_iff hCopy hCopy').1 hPasses)
  · obtain ⟨e', hOffer, hSame⟩ := h.exists_offered hMirrors hWhole (hParts i)
      ((Greedy.mem_candidates_iff (hParts i)).1 he')
    have hLe := he.2 e' ((Greedy.mem_candidates_iff hWhole).2 hOffer)
    rwa [Std.TransCmp.congr_left hRank, Std.TransCmp.congr_right hSame] at hLe

variable [DecidableEq ι]

/-- After a round of the whole and the same round of the part, the whole still is a copy. -/
theorem mirrors_absorbed (h : Copying edges whole copies)
    (hMirrors : Mirrors copies parts clusters) (hWhole : Separate g limit clusters)
    (hPart : Separate (graphs i) limit (parts i)) (hc : c ∈ parts i) (hd : d ∈ parts i)
    (hc' : c' ∈ clusters) (hd' : d' ∈ clusters) (hCopy : copies i c c') (hCopy' : copies i d d')
    (hId : c.id ≠ d.id) :
    Mirrors copies (Function.update parts i (absorbed (parts i) c d))
      (absorbed clusters c' d') := by
  have hId' : c'.id ≠ d'.id := fun hSame =>
    hId ((h.eq_iff hWhole hPart hc hd hc' hd' hCopy hCopy').2 hSame)
  have hGrown := h.absorb hCopy hCopy'
  have hStays {x x' : Cluster} (hx : x ∈ parts i) (hx' : x' ∈ clusters) (hX : copies i x x') :
      (x.id ≠ c.id ∧ x.id ≠ d.id) ↔ (x'.id ≠ c'.id ∧ x'.id ≠ d'.id) :=
    and_congr (not_congr (h.eq_iff hWhole hPart hx hc hx' hc' hX hCopy))
      (not_congr (h.eq_iff hWhole hPart hx hd hx' hd' hX hCopy'))
  -- a copy of a cluster of another part is none of the two that merge
  have hOther {j : ι} (hj : j ≠ i) {x x' : Cluster} (hx' : x' ∈ clusters) (hX : copies j x x') :
      x'.id ≠ c'.id ∧ x'.id ≠ d'.id := by
    constructor
    · intro hSame
      rw [hWhole.eq_of_id hx' hc' hSame] at hX
      exact hj (h.unique hX hCopy)
    · intro hSame
      rw [hWhole.eq_of_id hx' hd' hSame] at hX
      exact hj (h.unique hX hCopy')
  constructor
  · intro j x hx
    by_cases hj : j = i
    · subst hj
      rw [Function.update_self] at hx
      rcases (mem_absorbed hc hId).1 hx with rfl | ⟨hx, hNe⟩
      · exact ⟨_, (mem_absorbed hc' hId').2 (.inl rfl), hGrown⟩
      · obtain ⟨x', hx', hX⟩ := hMirrors.image j x hx
        exact ⟨x', (mem_absorbed hc' hId').2 (.inr ⟨hx', (hStays hx hx' hX).1 hNe⟩), hX⟩
    · rw [Function.update_of_ne hj] at hx
      obtain ⟨x', hx', hX⟩ := hMirrors.image j x hx
      exact ⟨x', (mem_absorbed hc' hId').2 (.inr ⟨hx', hOther hj hx' hX⟩), hX⟩
  · intro x' hx'
    rcases (mem_absorbed hc' hId').1 hx' with rfl | ⟨hx', hNe⟩
    · refine ⟨i, c.absorb d, ?_, hGrown⟩
      rw [Function.update_self]
      exact (mem_absorbed hc hId).2 (.inl rfl)
    · obtain ⟨j, x, hx, hX⟩ := hMirrors.source x' hx'
      refine ⟨j, x, ?_, hX⟩
      by_cases hj : j = i
      · subst hj
        rw [Function.update_self]
        exact (mem_absorbed hc hId).2 (.inr ⟨hx, (hStays hx hx' hX).2 hNe⟩)
      · rw [Function.update_of_ne hj]
        exact hx

/-- Every run of the whole is made up of a run of each part. -/
theorem exists_ends (h : Copying edges whole copies) {result : List Cluster}
    (hEnds : Greedy.Ends s whole clusters result) (hMirrors : Mirrors copies parts clusters)
    (hWhole : Separate g limit clusters) (hParts : ∀ i, Separate (graphs i) limit (parts i)) :
    ∃ results : ι → List Cluster, (∀ i, Greedy.Ends s (edges i) (parts i) (results i)) ∧
      Mirrors copies results result := by
  induction hEnds generalizing parts with
  | stop hNone =>
      refine ⟨parts, fun i => .stop ?_, hMirrors⟩
      rw [List.eq_nil_iff_forall_not_mem]
      intro e he
      obtain ⟨e', hOffer, _⟩ := h.exists_offered hMirrors hWhole (hParts i)
        ((Greedy.mem_candidates_iff (hParts i)).1 he)
      have hMem := (Greedy.mem_candidates_iff hWhole).2 hOffer
      rw [hNone] at hMem
      cases hMem
  | round hFirst rest ih =>
      obtain ⟨i, c, hc, d, hd, c', hc', d', hd', hCopy, hCopy', hId, distance, rfl, hFirst'⟩ :=
        h.exists_first hMirrors hWhole hParts hFirst
      have hId' : c'.id ≠ d'.id := fun hSame =>
        hId ((h.eq_iff hWhole (hParts i) hc hd hc' hd' hCopy hCopy').2 hSame)
      rw [Greedy.merged_eq hWhole.numbered hc' hd'] at ih
      obtain ⟨results, hEnds, hResult⟩ := ih
        (h.mirrors_absorbed hMirrors hWhole (hParts i) hc hd hc' hd' hCopy hCopy' hId)
        (hWhole.absorbed hc' hd' hId') fun j => by
          by_cases hj : j = i
          · subst hj
            rw [Function.update_self]
            exact (hParts j).absorbed hc hd hId
          · rw [Function.update_of_ne hj]
            exact hParts j
      refine ⟨results, fun j => ?_, hResult⟩
      have hRest := hEnds j
      by_cases hj : j = i
      · subst hj
        rw [Function.update_self] at hRest
        refine .round hFirst' ?_
        rwa [Greedy.merged_eq (hParts j).numbered hc hd]
      · rwa [Function.update_of_ne hj] at hRest

end Rounds

end Copying

end ChangeSplit.Grouping
