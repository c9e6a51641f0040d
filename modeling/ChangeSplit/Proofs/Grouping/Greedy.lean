import ChangeSplit.Proofs.Grouping.Candidate

/-! The greedy rule as a relation. In every round, all pairs of clusters are looked at anew, and a
pair that no other one ranks before is merged. Since separate clusters begin with different hunks,
there is only one such pair, and the rule leads to one result. -/

namespace ChangeSplit.Grouping

/-- Clusters after one of them took in another. -/
def absorbed (clusters : List Cluster) (a b : Cluster) : List Cluster :=
  (clusters.filter (·.id ≠ b.id)).map fun c => if c.id = a.id then a.absorb b else c

section Absorbed

variable {g : Graph} {limit : Option Int} {clusters : List Cluster} {a b c : Cluster}

/-- The cluster that grew stands for its two parts, and all other clusters stay as they are. -/
theorem mem_absorbed (ha : a ∈ clusters) (hId : a.id ≠ b.id) :
    c ∈ absorbed clusters a b ↔ c = a.absorb b ∨ c ∈ clusters ∧ c.id ≠ a.id ∧ c.id ≠ b.id := by
  simp only [absorbed, List.mem_map, List.mem_filter, decide_eq_true_eq]
  constructor
  · rintro ⟨d, ⟨hd, hDrop⟩, hEq⟩
    by_cases hKeep : d.id = a.id
    · rw [if_pos hKeep] at hEq
      exact .inl hEq.symm
    · rw [if_neg hKeep] at hEq
      subst hEq
      exact .inr ⟨hd, hKeep, hDrop⟩
  · rintro (hEq | ⟨hc, hKeep, hDrop⟩)
    · exact ⟨a, ⟨ha, hId⟩, by rw [if_pos rfl, hEq]⟩
    · exact ⟨c, ⟨hc, hDrop⟩, if_neg hKeep⟩

theorem map_id_absorbed (clusters : List Cluster) (a b : Cluster) :
    (absorbed clusters a b).map (·.id) = (clusters.filter (·.id ≠ b.id)).map (·.id) := by
  rw [absorbed, List.map_map]
  refine List.map_congr_left fun c _ => ?_
  by_cases hKeep : c.id = a.id <;> simp [hKeep]

theorem length_absorbed_lt (hb : b ∈ clusters) :
    (absorbed clusters a b).length < clusters.length := by
  rw [absorbed, List.length_map, List.length_filter_lt_length_iff_exists]
  exact ⟨b, hb, by simp⟩

theorem Numbered.absorbed (h : Numbered g limit clusters) (ha : a ∈ clusters) (hb : b ∈ clusters)
    (hId : a.id ≠ b.id) : Numbered g limit (absorbed clusters a b) where
  ids := by
    rw [map_id_absorbed]
    exact h.ids.sublist (List.filter_sublist.map _)
  surveyed := by
    intro c hc
    rcases (mem_absorbed ha hId).1 hc with rfl | ⟨hc, _⟩
    · exact (h.surveyed a ha).absorb (h.surveyed b hb)
    · exact h.surveyed c hc

theorem Separate.absorbed (h : Separate g limit clusters) (ha : a ∈ clusters) (hb : b ∈ clusters)
    (hId : a.id ≠ b.id) : Separate g limit (absorbed clusters a b) := by
  have hIds := (h.numbered.absorbed ha hb hId).ids
  have hGrown : ∀ c ∈ clusters, c.id ≠ a.id → c.id ≠ b.id → (a.absorb b).Disjoint c := by
    intro c hc hKeep hDrop m hm
    rcases Cluster.mem_absorb_hunks.1 hm with hm | hm
    · exact h.disjoint_of_ne ha hc hKeep.symm m hm
    · exact h.disjoint_of_ne hb hc hDrop.symm m hm
  refine ⟨?_, hIds, ?_⟩
  · intro c hc
    rcases (mem_absorbed ha hId).1 hc with rfl | ⟨hc, _⟩
    · exact (h.sound a ha).absorb (h.sound b hb)
    · exact h.sound c hc
  · refine (List.Nodup.of_map _ hIds).pairwise_of_forall_ne fun c hc d hd hNe => ?_
    rcases (mem_absorbed ha hId).1 hc with rfl | ⟨hc, hcKeep, hcDrop⟩
    · rcases (mem_absorbed ha hId).1 hd with rfl | ⟨hd, hdKeep, hdDrop⟩
      · exact absurd rfl hNe
      · exact hGrown d hd hdKeep hdDrop
    · rcases (mem_absorbed ha hId).1 hd with rfl | ⟨hd, _, _⟩
      · exact (hGrown c hc hcKeep hcDrop).symm
      · exact h.disjoint_of_ne hc hd fun hSame => hNe (h.eq_of_id hc hd hSame)

/-- No hunk is lost or made up when a cluster takes in another one. -/
theorem Separate.exists_mem_absorbed (h : Separate g limit clusters) (ha : a ∈ clusters)
    (hb : b ∈ clusters) (hId : a.id ≠ b.id) {m : HunkMark} :
    (∃ c ∈ Grouping.absorbed clusters a b, m ∈ c.hunks) ↔ ∃ c ∈ clusters, m ∈ c.hunks := by
  constructor
  · rintro ⟨c, hc, hm⟩
    rcases (mem_absorbed ha hId).1 hc with rfl | ⟨hc, _⟩
    · rcases Cluster.mem_absorb_hunks.1 hm with hm | hm
      · exact ⟨a, ha, hm⟩
      · exact ⟨b, hb, hm⟩
    · exact ⟨c, hc, hm⟩
  · rintro ⟨c, hc, hm⟩
    by_cases hKeep : c.id = a.id
    · rw [h.eq_of_id hc ha hKeep] at hm
      exact ⟨_, (mem_absorbed ha hId).2 (.inl rfl), Cluster.mem_absorb_hunks.2 (.inl hm)⟩
    · by_cases hDrop : c.id = b.id
      · rw [h.eq_of_id hc hb hDrop] at hm
        exact ⟨_, (mem_absorbed ha hId).2 (.inl rfl), Cluster.mem_absorb_hunks.2 (.inr hm)⟩
      · exact ⟨c, (mem_absorbed ha hId).2 (.inr ⟨hc, hKeep, hDrop⟩), hm⟩

end Absorbed

namespace Greedy

section Pairs

variable {α : Type} {a b : α} {l : List α}

/-- A relation that holds along a list holds of its pairs. -/
theorem of_mem_pairs {r : α → α → Prop} (hAll : l.Pairwise r) (h : (a, b) ∈ pairs l) :
    a ∈ l ∧ b ∈ l ∧ r a b := by
  induction l with
  | nil => cases h
  | cons c rest ih =>
      obtain ⟨hHead, hTail⟩ := List.pairwise_cons.1 hAll
      rcases List.mem_append.1 h with hMem | hMem
      · obtain ⟨d, hd, hEq⟩ := List.mem_map.1 hMem
        cases hEq
        exact ⟨List.mem_cons_self .., List.mem_cons_of_mem _ hd, hHead b hd⟩
      · obtain ⟨ha, hb, hRel⟩ := ih hTail hMem
        exact ⟨List.mem_cons_of_mem _ ha, List.mem_cons_of_mem _ hb, hRel⟩

/-- Any two elements are a pair in one order or the other. -/
theorem mem_pairs_or (ha : a ∈ l) (hb : b ∈ l) (hNe : a ≠ b) :
    (a, b) ∈ pairs l ∨ (b, a) ∈ pairs l := by
  induction l with
  | nil => cases ha
  | cons c rest ih =>
      simp only [pairs, List.mem_append, List.mem_map]
      rcases List.mem_cons.1 ha with rfl | ha'
      · rcases List.mem_cons.1 hb with rfl | hb'
        · exact absurd rfl hNe
        · exact .inl (.inl ⟨b, hb', rfl⟩)
      · rcases List.mem_cons.1 hb with rfl | hb'
        · exact .inr (.inl ⟨a, ha', rfl⟩)
        · exact (ih ha' hb').imp .inr .inr

end Pairs

theorem least?_eq_none_iff {l : List Candidate} : least? l = none ↔ l = [] := by
  cases l with
  | nil => simp [least?]
  | cons c rest => cases hRest : least? rest <;> simp [least?, hRest]

theorem of_least?_eq_some {l : List Candidate} {c : Candidate} (h : least? l = some c) :
    c ∈ l ∧ ∀ d ∈ l, c.le d = true := by
  induction l generalizing c with
  | nil => cases h
  | cons d rest ih =>
      cases hRest : least? rest with
      | none =>
          have hNil := least?_eq_none_iff.1 hRest
          subst hNil
          cases h
          simp [Candidate.le_refl]
      | some e =>
          obtain ⟨he, hLeast⟩ := ih hRest
          simp only [least?, hRest, Option.some.injEq] at h
          by_cases hle : d.le e = true
          · rw [if_pos hle] at h
            subst h
            refine ⟨List.mem_cons_self .., fun f hf => ?_⟩
            rcases List.mem_cons.1 hf with rfl | hf
            · exact Candidate.le_refl _
            · exact Candidate.le_trans _ _ _ hle (hLeast f hf)
          · rw [if_neg hle] at h
            subst h
            refine ⟨List.mem_cons_of_mem _ he, fun f hf => ?_⟩
            rcases List.mem_cons.1 hf with rfl | hf
            · exact (Candidate.le_total f e).resolve_left hle
            · exact hLeast f hf

section Rounds

variable {g : Graph} {limit : Option Int} {s : Settings} {edges : List Edge}
variable {clusters : List Cluster} {c d : Candidate}

/-- Whether two of some clusters, in one order or the other, make a candidate. -/
def Offered (s : Settings) (edges : List Edge) (clusters : List Cluster) (c : Candidate) : Prop :=
  ∃ a ∈ clusters, ∃ b ∈ clusters, a.id ≠ b.id ∧
    candidate? s edges (Tie.between edges a b) a b = some c

/-- Clusters pass the gates in both orders or in neither. -/
theorem passes_comm {a b : Cluster} {distance : Nat} (ha : a.Surveyed g limit)
    (hb : b.Surveyed g limit)
    (h : Passes s edges (Tie.between edges a b) (a.similarity b) distance) :
    Passes s edges (Tie.between edges b a) (b.similarity a) distance := by
  rw [Tie.between_comm edges hb ha, Cluster.similarity_comm]
  exact h

theorem offered_of_passes {a b : Cluster} {distance : Nat} (ha : a ∈ clusters) (hb : b ∈ clusters)
    (hId : a.id ≠ b.id)
    (h : Passes s edges (Tie.between edges a b) (a.similarity b) distance) :
    Offered s edges clusters (.ofEither distance a b) :=
  ⟨a, ha, b, hb, hId, candidate?_eq_some_iff.2 ⟨distance, h, rfl⟩⟩

theorem ordered_of_offered (hc : Offered s edges clusters c) :
    HunkName.lt c.dropFirst c.keepFirst = false := by
  obtain ⟨a, _, b, _, _, hCandidate⟩ := hc
  obtain ⟨distance, _, rfl⟩ := candidate?_eq_some_iff.1 hCandidate
  exact Candidate.ofEither_ordered distance a b

/-- A candidate names the cluster to be kept and the one to be dropped as they are now. -/
theorem exists_pair_of_offered (h : Numbered g limit clusters) (hc : Offered s edges clusters c) :
    ∃ a ∈ clusters, ∃ b ∈ clusters, a.id ≠ b.id ∧ ∃ distance,
      Passes s edges (Tie.between edges a b) (a.similarity b) distance ∧
        c = Candidate.ofPair distance a b := by
  obtain ⟨a, ha, b, hb, hId, hc⟩ := hc
  obtain ⟨distance, hPasses, rfl⟩ := candidate?_eq_some_iff.1 hc
  rcases Candidate.ofEither_cases distance a b with hEq | hEq
  · exact ⟨a, ha, b, hb, hId, distance, hPasses, hEq⟩
  · exact ⟨b, hb, a, ha, hId.symm, distance,
      passes_comm (h.surveyed a ha) (h.surveyed b hb) hPasses, hEq⟩

/-- Which of two clusters comes first in the list does not matter for a candidate, if they begin
with different hunks. -/
theorem mem_candidates_iff (h : Separate g limit clusters) :
    c ∈ candidates s edges clusters ↔ Offered s edges clusters c := by
  simp only [candidates, List.mem_filterMap, Prod.exists]
  constructor
  · rintro ⟨a, b, hPair, hc⟩
    obtain ⟨ha, hb, hId⟩ := of_mem_pairs (List.pairwise_map.1 h.ids) hPair
    exact ⟨a, ha, b, hb, hId, hc⟩
  · rintro ⟨a, ha, b, hb, hId, hc⟩
    rcases mem_pairs_or ha hb fun hSame => hId (congrArg Cluster.id hSame) with hPair | hPair
    · exact ⟨a, b, hPair, hc⟩
    · refine ⟨b, a, hPair, ?_⟩
      rw [Tie.between_comm edges (h.sound b hb).reach (h.sound a ha).reach,
        candidate?_comm (h.first_ne hb ha hId.symm)]
      exact hc

/-- After a merge, the pairs that pass the gates are those from before that have no part in it,
and those of the cluster that grew. -/
theorem offered_absorbed {a b : Cluster} (ha : a ∈ clusters) (hId : a.id ≠ b.id) :
    Offered s edges (absorbed clusters a b) c ↔
      (Offered s edges clusters c ∧ (c.keep ≠ a.id ∧ c.keep ≠ b.id) ∧
        (c.drop ≠ a.id ∧ c.drop ≠ b.id)) ∨
      ∃ d ∈ clusters, (d.id ≠ a.id ∧ d.id ≠ b.id) ∧
        (candidate? s edges (Tie.between edges (a.absorb b) d) (a.absorb b) d = some c ∨
          candidate? s edges (Tie.between edges d (a.absorb b)) d (a.absorb b) = some c) := by
  have hGrown : a.absorb b ∈ absorbed clusters a b := (mem_absorbed ha hId).2 (.inl rfl)
  constructor
  · rintro ⟨x, hx, y, hy, hNe, hOffer⟩
    rcases (mem_absorbed ha hId).1 hx with rfl | ⟨hx', hxId⟩
    · rcases (mem_absorbed ha hId).1 hy with rfl | ⟨hy', hyId⟩
      · exact absurd rfl hNe
      · exact .inr ⟨y, hy', hyId, .inl hOffer⟩
    · rcases (mem_absorbed ha hId).1 hy with rfl | ⟨hy', hyId⟩
      · exact .inr ⟨x, hx', hxId, .inr hOffer⟩
      · refine .inl ⟨⟨x, hx', y, hy', hNe, hOffer⟩, ?_⟩
        rcases keep_drop_of_candidate? hOffer with ⟨hKeep, hDrop⟩ | ⟨hKeep, hDrop⟩
        · rw [hKeep, hDrop]
          exact ⟨hxId, hyId⟩
        · rw [hKeep, hDrop]
          exact ⟨hyId, hxId⟩
  · rintro (⟨hc, hKeep, hDrop⟩ | ⟨d, hd, hdId, hOffer | hOffer⟩)
    · obtain ⟨x, hx, y, hy, hNe, hOffer⟩ := hc
      have hOthers : (x.id ≠ a.id ∧ x.id ≠ b.id) ∧ y.id ≠ a.id ∧ y.id ≠ b.id := by
        rcases keep_drop_of_candidate? hOffer with ⟨hSame, hSame'⟩ | ⟨hSame, hSame'⟩
        · rw [hSame] at hKeep
          rw [hSame'] at hDrop
          exact ⟨hKeep, hDrop⟩
        · rw [hSame] at hKeep
          rw [hSame'] at hDrop
          exact ⟨hDrop, hKeep⟩
      exact ⟨x, (mem_absorbed ha hId).2 (.inr ⟨hx, hOthers.1⟩), y,
        (mem_absorbed ha hId).2 (.inr ⟨hy, hOthers.2⟩), hNe, hOffer⟩
    · exact ⟨_, hGrown, d, (mem_absorbed ha hId).2 (.inr ⟨hd, hdId⟩), hdId.1.symm, hOffer⟩
    · exact ⟨d, (mem_absorbed ha hId).2 (.inr ⟨hd, hdId⟩), _, hGrown, hdId.1, hOffer⟩

/-- Candidates of the same rank are the same, since first hunks tell clusters apart. -/
theorem eq_of_rank_eq (h : Separate g limit clusters) (hc : Offered s edges clusters c)
    (hd : Offered s edges clusters d) (hRank : c.rank d = .eq) : c = d := by
  obtain ⟨a, ha, b, hb, hId, distance, hPasses, rfl⟩ := exists_pair_of_offered h.numbered hc
  obtain ⟨a', ha', b', hb', hId', distance', hPasses', rfl⟩ :=
    exists_pair_of_offered h.numbered hd
  obtain ⟨hKeep, hDrop⟩ := Candidate.firsts_of_rank_eq hRank
  have hSame {x y : Cluster} (hx : x ∈ clusters) (hy : y ∈ clusters) (hFirst : x.first = y.first) :
      x = y := by
    by_contra hNe
    exact h.first_ne hx hy (fun hSameId => hNe (h.eq_of_id hx hy hSameId)) hFirst
  obtain rfl : a = a' := hSame ha ha' hKeep
  obtain rfl : b = b' := hSame hb hb' hDrop
  have hDistance := hPasses.distance_eq
  rw [hPasses'.distance_eq] at hDistance
  rw [Option.some.inj hDistance]

/-- Candidates of the same two clusters are the same, since it does not matter which of the two is
looked at first. -/
theorem eq_of_pair (h : Separate g limit clusters) (hc : Offered s edges clusters c)
    (hd : Offered s edges clusters d)
    (hPair : c.keep = d.keep ∧ c.drop = d.drop ∨ c.keep = d.drop ∧ c.drop = d.keep) : c = d := by
  obtain ⟨a, ha, b, hb, hId, hc⟩ := hc
  obtain ⟨a', ha', b', hb', hId', hd⟩ := hd
  have hIds : a.id = a'.id ∧ b.id = b'.id ∨ a.id = b'.id ∧ b.id = a'.id := by
    rcases keep_drop_of_candidate? hc with hNames | hNames <;>
      rcases keep_drop_of_candidate? hd with hNames' | hNames' <;> omega
  rcases hIds with ⟨hSame, hSame'⟩ | ⟨hSame, hSame'⟩
  · rw [h.eq_of_id ha ha' hSame, h.eq_of_id hb hb' hSame', hd] at hc
    exact (Option.some.inj hc).symm
  · rw [h.eq_of_id ha hb' hSame, h.eq_of_id hb ha' hSame',
      Tie.between_comm edges (h.sound _ hb').reach (h.sound _ ha').reach,
      candidate?_comm (h.first_ne hb' ha' hId'.symm), hd] at hc
    exact (Option.some.inj hc).symm

/-- A candidate that no other one ranks before. -/
def First (s : Settings) (edges : List Edge) (clusters : List Cluster) (c : Candidate) : Prop :=
  c ∈ candidates s edges clusters ∧ ∀ d ∈ candidates s edges clusters, (c.rank d).isLE = true

theorem First.unique (h : Separate g limit clusters) (hc : First s edges clusters c)
    (hd : First s edges clusters d) : c = d :=
  eq_of_rank_eq h ((mem_candidates_iff h).1 hc.1) ((mem_candidates_iff h).1 hd.1)
    (Std.OrientedCmp.isLE_antisymm (hc.2 d hd.1) (hd.2 c hc.1))

theorem first_of_least? (h : least? (candidates s edges clusters) = some c) :
    First s edges clusters c := by
  obtain ⟨hMem, hLeast⟩ := of_least?_eq_some h
  exact ⟨hMem, fun d hd => Candidate.rank_isLE_of_le (hLeast d hd)⟩

theorem merged_eq (h : Numbered g limit clusters) {a b : Cluster} (ha : a ∈ clusters)
    (hb : b ∈ clusters) (distance : Nat) :
    merged clusters (Candidate.ofPair distance a b) = absorbed clusters a b := by
  have hKeep : clusters.find? (·.id = (Candidate.ofPair distance a b).keep) = some a :=
    h.find?_id ha
  have hDrop : clusters.find? (·.id = (Candidate.ofPair distance a b).drop) = some b :=
    h.find?_id hb
  rw [merged, hKeep, hDrop]
  rfl

/-- What the greedy rule may end with. It only stops when no pair of clusters passes the gates. -/
inductive Ends (s : Settings) (edges : List Edge) : List Cluster → List Cluster → Prop where
  | stop {clusters : List Cluster} (hNone : candidates s edges clusters = []) :
      Ends s edges clusters clusters
  | round {clusters result : List Cluster} {c : Candidate} (hFirst : First s edges clusters c)
      (rest : Ends s edges (merged clusters c) result) : Ends s edges clusters result

/-- What merging may end with if any candidate may be merged in a round, not only the first one. -/
inductive Settles (s : Settings) (edges : List Edge) : List Cluster → List Cluster → Prop where
  | stop {clusters : List Cluster} (hNone : ∀ c, ¬ Offered s edges clusters c) :
      Settles s edges clusters clusters
  | round {clusters result : List Cluster} {c : Candidate} (hOffered : Offered s edges clusters c)
      (rest : Settles s edges (merged clusters c) result) : Settles s edges clusters result

/-- What merging two clusters that pass the gates keeps, every course of merging keeps. -/
theorem Settles.invariant {motive : List Cluster → Prop}
    (hStep : ∀ (clusters : List Cluster) (a b : Cluster) (distance : Nat),
      Numbered g limit clusters → motive clusters → a ∈ clusters → b ∈ clusters → a.id ≠ b.id →
        Passes s edges (Tie.between edges a b) (a.similarity b) distance →
          motive (absorbed clusters a b))
    {result : List Cluster} (h : Numbered g limit clusters) (hStart : motive clusters)
    (hSettles : Settles s edges clusters result) :
    Numbered g limit result ∧ motive result ∧ ∀ c, ¬ Offered s edges result c := by
  induction hSettles with
  | stop hNone => exact ⟨h, hStart, hNone⟩
  | round hOffered rest ih =>
      obtain ⟨a, ha, b, hb, hId, distance, hPasses, rfl⟩ := exists_pair_of_offered h hOffered
      rw [merged_eq h ha hb] at ih
      exact ih (h.absorbed ha hb hId) (hStep _ a b distance h hStart ha hb hId hPasses)

/-- A round keeps clusters separate, keeps their hunks, and leaves fewer of them. -/
theorem round_of_mem (h : Separate g limit clusters) (hc : c ∈ candidates s edges clusters) :
    Separate g limit (merged clusters c) ∧
      (∀ m : HunkMark, (∃ x ∈ merged clusters c, m ∈ x.hunks) ↔ ∃ x ∈ clusters, m ∈ x.hunks) ∧
        (merged clusters c).length < clusters.length := by
  obtain ⟨a, ha, b, hb, hId, distance, _, rfl⟩ :=
    exists_pair_of_offered h.numbered ((mem_candidates_iff h).1 hc)
  rw [merged_eq h.numbered ha hb]
  exact ⟨h.absorbed ha hb hId, fun m => h.exists_mem_absorbed ha hb hId, length_absorbed_lt hb⟩

/-- Enough rounds reach an end. Each of them leaves fewer clusters, and of none there are no
pairs. -/
theorem ends_run (h : Separate g limit clusters) {rounds : Nat}
    (hRounds : clusters.length ≤ rounds) : Ends s edges clusters (run s edges rounds clusters) := by
  induction rounds generalizing clusters with
  | zero =>
      have hNil := List.length_eq_zero_iff.1 (Nat.le_zero.1 hRounds)
      subst hNil
      exact .stop rfl
  | succ rounds ih =>
      rw [run]
      cases hLeast : least? (candidates s edges clusters) with
      | none => exact .stop (least?_eq_none_iff.1 hLeast)
      | some c =>
          have hFirst := first_of_least? hLeast
          obtain ⟨hSeparate, _, hFewer⟩ := round_of_mem h hFirst.1
          exact .round hFirst (ih hSeparate (by omega))

/-- The rule leaves no choice. -/
theorem Ends.unique (h : Separate g limit clusters) {x y : List Cluster}
    (hx : Ends s edges clusters x) (hy : Ends s edges clusters y) : x = y := by
  induction hx with
  | stop hNone =>
      cases hy with
      | stop => rfl
      | round hFirst => simpa [hNone] using hFirst.1
  | round hFirst rest ih =>
      cases hy with
      | stop hNone => simpa [hNone] using hFirst.1
      | round hFirst' rest' =>
          have hSame := hFirst.unique h hFirst'
          subst hSame
          exact ih (round_of_mem h hFirst.1).1 rest'

theorem ends_iff (h : Separate g limit clusters) {result : List Cluster} :
    Ends s edges clusters result ↔ result = merge s edges clusters := by
  have hMerge : Ends s edges clusters (merge s edges clusters) := ends_run h (Nat.le_refl _)
  constructor
  · intro hEnds
    exact hEnds.unique h hMerge
  · rintro rfl
    exact hMerge

/-- Whatever the rule ends with is separate and has the hunks that were there to begin with. -/
theorem Ends.separate (h : Separate g limit clusters) {result : List Cluster}
    (hEnds : Ends s edges clusters result) :
    Separate g limit result ∧
      ∀ m : HunkMark, (∃ x ∈ result, m ∈ x.hunks) ↔ ∃ x ∈ clusters, m ∈ x.hunks := by
  induction hEnds with
  | stop => exact ⟨h, fun m => Iff.rfl⟩
  | round hFirst rest ih =>
      obtain ⟨hSeparate, hHunks, _⟩ := round_of_mem h hFirst.1
      obtain ⟨hResult, hRest⟩ := ih hSeparate
      exact ⟨hResult, fun m => (hRest m).trans (hHunks m)⟩

end Rounds

end Greedy

end ChangeSplit.Grouping
