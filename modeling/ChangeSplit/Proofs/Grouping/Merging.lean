import ChangeSplit.Grouping.Merging
import ChangeSplit.Proofs.Collection.Table
import ChangeSplit.Proofs.Collection.Traversal
import ChangeSplit.Proofs.Grouping.Greedy
import ChangeSplit.Proofs.Grouping.Initial

/-! Merging with a queue follows the greedy rule. The table always holds what lies between the
clusters that are left, and behind the entries that are passed over the queue holds exactly the
pairs that pass the gates, the first of them at its head. -/

namespace ChangeSplit.Grouping

theorem pairOf_comm (a b : Nat) : pairOf a b = pairOf b a := by
  unfold pairOf
  split <;> split <;> first | rfl | omega | exact Prod.ext (by simp; omega) (by simp; omega)

/-- A pair of numbers tells both of them, but not which of them came first. -/
theorem pairOf_eq_iff {a b c d : Nat} :
    pairOf a b = pairOf c d ↔ a = c ∧ b = d ∨ a = d ∧ b = c := by
  unfold pairOf
  split <;> split <;> rw [Prod.mk.injEq] <;> omega

namespace Merging

variable {s : Settings} {edges : List Edge} {g : Graph} {limit : Option Int}

/-- Two clusters add to the queue the candidate that they make, if they make one. -/
theorem offer_eq (a : Cluster) (m : Merging) (b : Cluster) :
    offer s edges a m b =
      { m with
        queue := (candidate? s edges (m.tie a.id b.id) a b).elim m.queue
          (insertBy Candidate.le · m.queue) } := by
  unfold offer
  cases candidate? s edges (m.tie a.id b.id) a b <;> rfl

/-- Offering pairs of clusters only adds the candidates that they make, each in its place. -/
theorem foldl_offer (s : Settings) (edges : List Edge) (pairs : List (Cluster × Cluster))
    (m : Merging) :
    ∃ queue, pairs.foldl (fun m p => offer s edges p.1 m p.2) m = { m with queue } ∧
      (∀ c, c ∈ queue ↔ c ∈ m.queue ∨
        ∃ p ∈ pairs, candidate? s edges (m.tie p.1.id p.2.id) p.1 p.2 = some c) ∧
      ((m.queue.Pairwise fun c d => c.le d = true) → queue.Pairwise fun c d => c.le d = true) := by
  induction pairs generalizing m with
  | nil => exact ⟨m.queue, rfl, by simp, id⟩
  | cons p rest ih =>
      rw [List.foldl_cons, offer_eq]
      obtain ⟨queue, hFold, hMem, hSorted⟩ := ih { m with
        queue := (candidate? s edges (m.tie p.1.id p.2.id) p.1 p.2).elim m.queue
          (insertBy Candidate.le · m.queue) }
      refine ⟨queue, hFold, fun c => ?_, fun h => hSorted ?_⟩
      · rw [hMem, List.exists_mem_cons_iff, ← or_assoc]
        refine or_congr ?_ Iff.rfl
        cases candidate? s edges (m.tie p.1.id p.2.id) p.1 p.2 with
        | none => simp
        | some d => simp [or_comm, eq_comm]
      · cases candidate? s edges (m.tie p.1.id p.2.id) p.1 p.2 with
        | none => exact h
        | some d => exact pairwise_insertBy Candidate.le_total Candidate.le_trans h

theorem isCurrent_iff {m : Merging} (h : Numbered g limit m.clusters) {c : Candidate} :
    m.isCurrent c = true ↔ (∃ a ∈ m.clusters, a.id = c.keep ∧ a.stamp = c.keepStamp) ∧
      ∃ b ∈ m.clusters, b.id = c.drop ∧ b.stamp = c.dropStamp := by
  have hFound (id stamp : Nat) : (m.cluster? id).any (·.stamp = stamp) = true ↔
      ∃ a ∈ m.clusters, a.id = id ∧ a.stamp = stamp := by
    rw [Option.any_eq_true]
    constructor
    · rintro ⟨a, hFind, hStamp⟩
      have hId : a.id = id := by simpa using List.find?_some hFind
      exact ⟨a, List.mem_of_find?_eq_some hFind, hId, by simpa using hStamp⟩
    · rintro ⟨a, ha, rfl, rfl⟩
      exact ⟨a, h.find?_id ha, by simp⟩
  rw [isCurrent, Bool.and_eq_true, hFound, hFound]

/-- What holds in every round: the table and the queue tell of the clusters what looking at all
pairs anew would tell. A pair need only be in the queue in one of its two orders. Entries of the
queue that are not current any more do no harm, since stamps only grow. -/
structure Faithful (s : Settings) (edges : List Edge) (g : Graph) (limit : Option Int)
    (m : Merging) : Prop where
  numbered : Numbered g limit m.clusters
  tie : ∀ a ∈ m.clusters, ∀ b ∈ m.clusters, a.id ≠ b.id →
    m.tie a.id b.id = Tie.between edges a b
  sorted : m.queue.Pairwise fun c d => c.le d = true
  stamps : ∀ c ∈ m.queue, ∀ a ∈ m.clusters,
    (a.id = c.keep → c.keepStamp ≤ a.stamp) ∧ (a.id = c.drop → c.dropStamp ≤ a.stamp)
  sound : ∀ c ∈ m.queue, m.isCurrent c = true → Greedy.Offered s edges m.clusters c
  complete : ∀ c, Greedy.Offered s edges m.clusters c → ∃ d ∈ m.queue,
    Greedy.Offered s edges m.clusters d ∧ pairOf d.keep d.drop = pairOf c.keep c.drop

/-- The stamps of a pair that passes the gates are those of its clusters. -/
theorem stamps_of_offered {clusters : List Cluster} (h : Numbered g limit clusters)
    {c : Candidate} (hc : Greedy.Offered s edges clusters c) :
    ∀ a ∈ clusters, (a.id = c.keep → c.keepStamp ≤ a.stamp) ∧
      (a.id = c.drop → c.dropStamp ≤ a.stamp) := by
  obtain ⟨x, hx, y, hy, _, distance, _, rfl⟩ := Greedy.exists_pair_of_offered h hc
  intro a ha
  constructor
  · intro hId
    rw [h.eq_of_id ha hx hId]
    exact Nat.le_refl _
  · intro hId
    rw [h.eq_of_id ha hy hId]
    exact Nat.le_refl _

/-- A pair that passes the gates is current. -/
theorem isCurrent_of_offered {m : Merging} (h : Numbered g limit m.clusters)
    {c : Candidate} (hc : Greedy.Offered s edges m.clusters c) : m.isCurrent c = true := by
  obtain ⟨x, hx, y, hy, _, distance, _, rfl⟩ := Greedy.exists_pair_of_offered h hc
  exact (isCurrent_iff h).2 ⟨⟨x, hx, rfl, rfl⟩, ⟨y, hy, rfl, rfl⟩⟩

/-- Two clusters that make a candidate make one in the other order too. -/
theorem exists_candidate?_swap {a b : Cluster} (ha : a.Surveyed g limit) (hb : b.Surveyed g limit)
    {c : Candidate} (hc : candidate? s edges (Tie.between edges a b) a b = some c) :
    ∃ d, candidate? s edges (Tie.between edges b a) b a = some d ∧
      pairOf d.keep d.drop = pairOf c.keep c.drop := by
  obtain ⟨distance, hPasses, _⟩ := candidate?_eq_some_iff.1 hc
  have hd : candidate? s edges (Tie.between edges b a) b a = some (.ofEither distance b a) :=
    candidate?_eq_some_iff.2 ⟨distance, Greedy.passes_comm ha hb hPasses, rfl⟩
  refine ⟨_, hd, ?_⟩
  rw [pairOf_eq_iff]
  rcases keep_drop_of_candidate? hc with ⟨hKeep, hDrop⟩ | ⟨hKeep, hDrop⟩ <;>
    rcases keep_drop_of_candidate? hd with ⟨hKeep', hDrop'⟩ | ⟨hKeep', hDrop'⟩ <;>
    rw [hKeep, hDrop, hKeep', hDrop'] <;> simp

theorem find?_startTies {clusters : List Cluster} (h : Numbered g limit clusters) {a b : Cluster}
    (ha : a ∈ clusters) (hb : b ∈ clusters) (hId : a.id ≠ b.id) :
    ((Greedy.pairs clusters).foldl (fun (t : Table (Nat × Nat) Tie) p =>
      t.put (pairOf p.1.id p.2.id) (Tie.between edges p.1 p.2)) {}).find? (pairOf a.id b.id) =
        some (Tie.between edges a b) := by
  have hSame : ∀ p ∈ Greedy.pairs clusters, pairOf a.id b.id = pairOf p.1.id p.2.id →
      Tie.between edges p.1 p.2 = Tie.between edges a b := by
    rintro ⟨x, y⟩ hp hPair
    obtain ⟨hx, hy, _⟩ := Greedy.of_mem_pairs (List.pairwise_map.1 h.ids) hp
    rcases pairOf_eq_iff.1 hPair with ⟨hax, hby⟩ | ⟨hay, hbx⟩
    · rw [h.eq_of_id ha hx hax, h.eq_of_id hb hy hby]
    · rw [h.eq_of_id ha hy hay, h.eq_of_id hb hx hbx]
      exact Tie.between_comm edges (h.surveyed x hx) (h.surveyed y hy)
  apply observe_foldl fun t : Table (Nat × Nat) Tie => t.find? (pairOf a.id b.id)
  · intro p hp t
    rw [Table.find?_put]
    split
    case isTrue hPair => exact .inl (congrArg some (hSame p hp hPair))
    case isFalse => exact .inr rfl
  · refine .inr ?_
    have hWrites : ∀ p ∈ Greedy.pairs clusters, pairOf a.id b.id = pairOf p.1.id p.2.id →
        ∀ t : Table (Nat × Nat) Tie,
          (t.put (pairOf p.1.id p.2.id) (Tie.between edges p.1 p.2)).find? (pairOf a.id b.id) =
            some (Tie.between edges a b) := by
      intro p hp hPair t
      rw [Table.find?_put, if_pos hPair, hSame p hp hPair]
    rcases Greedy.mem_pairs_or ha hb fun hEq => hId (congrArg Cluster.id hEq) with hp | hp
    · exact ⟨_, hp, hWrites _ hp rfl⟩
    · exact ⟨_, hp, hWrites _ hp (pairOf_comm _ _)⟩

/-- To begin with, the table and the queue are filled from all pairs of clusters. -/
theorem faithful_start {clusters : List Cluster} (h : Numbered g limit clusters) :
    Faithful s edges g limit (start s edges clusters) := by
  obtain ⟨queue, hStart, hMem, hSorted⟩ := foldl_offer s edges (Greedy.pairs clusters)
    ⟨clusters, (Greedy.pairs clusters).foldl
      (fun t p => t.put (pairOf p.1.id p.2.id) (Tie.between edges p.1 p.2)) {}, []⟩
  have hEq : start s edges clusters = ⟨clusters, (Greedy.pairs clusters).foldl
      (fun t p => t.put (pairOf p.1.id p.2.id) (Tie.between edges p.1 p.2)) {}, queue⟩ := hStart
  have hQueue : ∀ c, c ∈ queue ↔ ∃ p ∈ Greedy.pairs clusters,
      candidate? s edges (Tie.between edges p.1 p.2) p.1 p.2 = some c := by
    intro c
    rw [hMem]
    simp only [List.not_mem_nil, false_or]
    refine exists_congr fun p => and_congr_right fun hp => ?_
    obtain ⟨ha, hb, hId⟩ := Greedy.of_mem_pairs (List.pairwise_map.1 h.ids) hp
    rw [tie, find?_startTies h ha hb hId]
    rfl
  have hOffered : ∀ c ∈ queue, Greedy.Offered s edges clusters c := by
    intro c hc
    obtain ⟨p, hp, hOffer⟩ := (hQueue c).1 hc
    obtain ⟨ha, hb, hId⟩ := Greedy.of_mem_pairs (List.pairwise_map.1 h.ids) hp
    exact ⟨p.1, ha, p.2, hb, hId, hOffer⟩
  rw [hEq]
  constructor
  · exact h
  · intro a ha b hb hId
    rw [tie, find?_startTies h ha hb hId]
    rfl
  · exact hSorted .nil
  · intro c hc
    exact stamps_of_offered h (hOffered c hc)
  · intro c hc _
    exact hOffered c hc
  · rintro c ⟨a, ha, b, hb, hId, hOffer⟩
    rcases Greedy.mem_pairs_or ha hb fun hEq => hId (congrArg Cluster.id hEq) with hp | hp
    · exact ⟨c, (hQueue c).2 ⟨_, hp, hOffer⟩, ⟨a, ha, b, hb, hId, hOffer⟩, rfl⟩
    · obtain ⟨d, hSwap, hSame⟩ :=
        exists_candidate?_swap (h.surveyed a ha) (h.surveyed b hb) hOffer
      exact ⟨d, (hQueue d).2 ⟨_, hp, hSwap⟩, ⟨b, hb, a, ha, hId.symm, hSwap⟩, hSame⟩

/-- The table after a merge. -/
def retied (m : Merging) (keep drop : Cluster) : Table (Nat × Nat) Tie :=
  (m.clusters.filter fun c => c.id ≠ keep.id && c.id ≠ drop.id).foldl (fun t c =>
    (t.put (pairOf keep.id c.id) ((m.tie keep.id c.id).merge (m.tie drop.id c.id))).erase
      (pairOf drop.id c.id)) (m.ties.erase (pairOf keep.id drop.id))

/-- What lies between clusters that take no part in a merge stays in the table. -/
theorem find?_retied_of_ne (m : Merging) {keep drop : Cluster} {i j : Nat}
    (hi : i ≠ keep.id ∧ i ≠ drop.id) (hj : j ≠ keep.id ∧ j ≠ drop.id) :
    (m.retied keep drop).find? (pairOf i j) = m.ties.find? (pairOf i j) := by
  have hOther {k l : Nat} (hk : k = keep.id ∨ k = drop.id) : pairOf i j ≠ pairOf k l := by
    rw [Ne, pairOf_eq_iff]
    omega
  apply observe_foldl fun t : Table (Nat × Nat) Tie => t.find? (pairOf i j)
  · intro c _ t
    refine .inr ?_
    rw [Table.find?_erase_of_ne _ (hOther (.inr rfl)), Table.find?_put,
      if_neg (hOther (.inl rfl))]
  · exact .inl (Table.find?_erase_of_ne _ (hOther (.inl rfl)))

/-- What lies between the cluster that grew and another one is put together from its parts. -/
theorem find?_retied_keep (m : Merging) {keep drop c : Cluster} (hId : keep.id ≠ drop.id)
    (hc : c ∈ m.clusters) (hKeep : c.id ≠ keep.id) (hDrop : c.id ≠ drop.id) :
    (m.retied keep drop).find? (pairOf keep.id c.id) =
      some ((m.tie keep.id c.id).merge (m.tie drop.id c.id)) := by
  have hErased (d : Nat) : pairOf keep.id c.id ≠ pairOf drop.id d := by
    rw [Ne, pairOf_eq_iff]
    omega
  apply observe_foldl fun t : Table (Nat × Nat) Tie => t.find? (pairOf keep.id c.id)
  · intro d _ t
    rw [Table.find?_erase_of_ne _ (hErased d.id), Table.find?_put]
    split
    case isTrue hPair =>
      have hSame : c.id = d.id := by
        rw [pairOf_eq_iff] at hPair
        omega
      rw [hSame]
      exact .inl rfl
    case isFalse => exact .inr rfl
  · refine .inr ⟨c, List.mem_filter.2 ⟨hc, by simp [hKeep, hDrop]⟩, fun t => ?_⟩
    rw [Table.find?_erase_of_ne _ (hErased c.id), Table.find?_put, if_pos rfl]

/-- What a merge does: clusters and table follow, and the pairs of the cluster that grew that pass
the gates come into the queue. -/
theorem unite_eq (s : Settings) (edges : List Edge) (m : Merging) (keep drop : Cluster) :
    ∃ queue, unite s edges m keep drop =
        ⟨absorbed m.clusters keep drop, m.retied keep drop, queue⟩ ∧
      (∀ c, c ∈ queue ↔ c ∈ m.queue ∨
        ∃ d ∈ m.clusters, (d.id ≠ keep.id ∧ d.id ≠ drop.id) ∧
          candidate? s edges (((m.retied keep drop).find? (pairOf keep.id d.id)).getD {})
            (keep.absorb drop) d = some c) ∧
      ((m.queue.Pairwise fun c d => c.le d = true) → queue.Pairwise fun c d => c.le d = true) := by
  obtain ⟨queue, hFold, hMem, hSorted⟩ := foldl_offer s edges
    ((m.clusters.filter fun c => c.id ≠ keep.id && c.id ≠ drop.id).map (keep.absorb drop, ·))
    ⟨absorbed m.clusters keep drop, m.retied keep drop, m.queue⟩
  rw [List.foldl_map] at hFold
  refine ⟨queue, hFold, fun c => ?_, hSorted⟩
  rw [hMem]
  simp [and_assoc, tie]

section

variable {m : Merging} {keep drop : Cluster}

/-- After a merge the table tells what lies between the cluster that grew and another one. -/
theorem Faithful.find?_retied (h : Faithful s edges g limit m) (hKeep : keep ∈ m.clusters)
    (hDrop : drop ∈ m.clusters) (hId : keep.id ≠ drop.id) {d : Cluster} (hd : d ∈ m.clusters)
    (hOther : d.id ≠ keep.id ∧ d.id ≠ drop.id) :
    ((m.retied keep drop).find? (pairOf keep.id d.id)).getD {} =
      Tie.between edges (keep.absorb drop) d := by
  rw [find?_retied_keep m hId hd hOther.1 hOther.2, Tie.between_absorb,
    ← h.tie keep hKeep d hd hOther.1.symm, ← h.tie drop hDrop d hd hOther.2.symm]
  rfl

/-- After a merge the table tells what lies between any two clusters. -/
theorem Faithful.tie_absorbed (h : Faithful s edges g limit m) (hKeep : keep ∈ m.clusters)
    (hDrop : drop ∈ m.clusters) (hId : keep.id ≠ drop.id) {queue : List Candidate} :
    ∀ a ∈ absorbed m.clusters keep drop, ∀ b ∈ absorbed m.clusters keep drop, a.id ≠ b.id →
      Merging.tie ⟨absorbed m.clusters keep drop, m.retied keep drop, queue⟩ a.id b.id =
        Tie.between edges a b := by
  have hNumbered := h.numbered.absorbed hKeep hDrop hId
  intro a ha b hb hNe
  rcases (mem_absorbed hKeep hId).1 ha with rfl | ⟨ha', haId⟩
  · rcases (mem_absorbed hKeep hId).1 hb with rfl | ⟨hb', hbId⟩
    · exact absurd rfl hNe
    · exact h.find?_retied hKeep hDrop hId hb' hbId
  · rcases (mem_absorbed hKeep hId).1 hb with rfl | ⟨hb', hbId⟩
    · rw [Tie.between_comm edges (hNumbered.surveyed a ha) (hNumbered.surveyed _ hb), Merging.tie,
        pairOf_comm]
      exact h.find?_retied hKeep hDrop hId ha' haId
    · rw [← h.tie a ha' b hb' hNe, Merging.tie, Merging.tie]
      exact congrArg (Option.getD · {}) (find?_retied_of_ne m haId hbId)

/-- An entry that is still current after a merge was current before and takes no part in it, since
the stamp of the cluster that grew is greater than any in the queue. -/
theorem Faithful.isCurrent_before (h : Faithful s edges g limit m) (hKeep : keep ∈ m.clusters)
    (hDrop : drop ∈ m.clusters) (hId : keep.id ≠ drop.id) {ties : Table (Nat × Nat) Tie}
    {queue : List Candidate} {c : Candidate} (hc : c ∈ m.queue)
    (hCurrent : isCurrent ⟨absorbed m.clusters keep drop, ties, queue⟩ c = true) :
    m.isCurrent c = true ∧ (c.keep ≠ keep.id ∧ c.keep ≠ drop.id) ∧
      (c.drop ≠ keep.id ∧ c.drop ≠ drop.id) := by
  obtain ⟨⟨a, ha, haId, haStamp⟩, ⟨b, hb, hbId, hbStamp⟩⟩ :=
    (isCurrent_iff (h.numbered.absorbed hKeep hDrop hId)).1 hCurrent
  obtain ⟨hStampKeep, hStampDrop⟩ := h.stamps c hc keep hKeep
  rcases (mem_absorbed hKeep hId).1 ha with rfl | ⟨ha', haNe⟩
  · have hLess := hStampKeep haId
    simp only [Cluster.absorb_stamp] at haStamp
    omega
  · rcases (mem_absorbed hKeep hId).1 hb with rfl | ⟨hb', hbNe⟩
    · have hLess := hStampDrop hbId
      simp only [Cluster.absorb_stamp] at hbStamp
      omega
    · rw [haId] at haNe
      rw [hbId] at hbNe
      exact ⟨(isCurrent_iff h.numbered).2 ⟨⟨a, ha', haId, haStamp⟩, ⟨b, hb', hbId, hbStamp⟩⟩,
        haNe, hbNe⟩

/-- A merge leaves the table and the queue faithful. The entries that were taken off the queue must
not be current, except for those that the merge itself settles. -/
theorem Faithful.unite (h : Faithful s edges g limit m) (hKeep : keep ∈ m.clusters)
    (hDrop : drop ∈ m.clusters) (hId : keep.id ≠ drop.id) {queue : List Candidate}
    (hSub : queue.Sublist m.queue)
    (hRest : ∀ c ∈ m.queue, m.isCurrent c = true → c ∈ queue ∨ c.keep = keep.id) :
    Faithful s edges g limit (unite s edges { m with queue } keep drop) := by
  obtain ⟨queue', hUnite, hMem, hSorted⟩ := unite_eq s edges { m with queue } keep drop
  have hNumbered := h.numbered.absorbed hKeep hDrop hId
  have hGrown := (h.numbered.surveyed keep hKeep).absorb (h.numbered.surveyed drop hDrop)
  have hQueue : ∀ c, c ∈ queue' ↔ c ∈ queue ∨ ∃ d ∈ m.clusters,
      (d.id ≠ keep.id ∧ d.id ≠ drop.id) ∧ candidate? s edges
        (Tie.between edges (keep.absorb drop) d) (keep.absorb drop) d = some c := by
    intro c
    rw [hMem]
    refine or_congr_right (exists_congr fun d => and_congr_right fun hd =>
      and_congr_right fun hOther => ?_)
    rw [← h.find?_retied hKeep hDrop hId hd hOther]
    rfl
  have hNew : ∀ c, Greedy.Offered s edges (absorbed m.clusters keep drop) c ↔ _ :=
    fun c => Greedy.offered_absorbed hKeep hId
  rw [hUnite]
  constructor
  · exact hNumbered
  · exact h.tie_absorbed hKeep hDrop hId
  · exact hSorted (h.sorted.sublist hSub)
  · intro c hc
    rcases (hQueue c).1 hc with hOld | ⟨d, hd, hOther, hOffer⟩
    · intro a ha
      rcases (mem_absorbed hKeep hId).1 ha with rfl | ⟨ha', _⟩
      · obtain ⟨hStampKeep, hStampDrop⟩ := h.stamps c (hSub.subset hOld) keep hKeep
        exact ⟨fun hEq => Nat.le_succ_of_le (hStampKeep hEq),
          fun hEq => Nat.le_succ_of_le (hStampDrop hEq)⟩
      · exact h.stamps c (hSub.subset hOld) a ha'
    · exact stamps_of_offered hNumbered ((hNew c).2 (.inr ⟨d, hd, hOther, .inl hOffer⟩))
  · intro c hc hCurrent
    rcases (hQueue c).1 hc with hOld | ⟨d, hd, hOther, hOffer⟩
    · obtain ⟨hBefore, hApart⟩ :=
        h.isCurrent_before hKeep hDrop hId (hSub.subset hOld) hCurrent
      exact (hNew c).2 (.inl ⟨h.sound c (hSub.subset hOld) hBefore, hApart⟩)
    · exact (hNew c).2 (.inr ⟨d, hd, hOther, .inl hOffer⟩)
  · intro c hc
    rcases (hNew c).1 hc with ⟨hOld, hcKeep, hcDrop⟩ | ⟨d, hd, hOther, hOffer | hOffer⟩
    · -- the same pair is in the queue from before, and it has no part in the merge either
      obtain ⟨d, hd, hOffered, hSame⟩ := h.complete c hOld
      have hApart :
          (d.keep ≠ keep.id ∧ d.keep ≠ drop.id) ∧ d.drop ≠ keep.id ∧ d.drop ≠ drop.id := by
        rw [pairOf_eq_iff] at hSame
        omega
      have hStays := (hRest d hd (isCurrent_of_offered h.numbered hOffered)).resolve_right
        hApart.1.1
      exact ⟨d, (hQueue d).2 (.inl hStays), (hNew d).2 (.inl ⟨hOffered, hApart⟩), hSame⟩
    · exact ⟨c, (hQueue c).2 (.inr ⟨d, hd, hOther, hOffer⟩), hc, rfl⟩
    · obtain ⟨e, hSwap, hSame⟩ :=
        exists_candidate?_swap (h.numbered.surveyed d hd) hGrown hOffer
      exact ⟨e, (hQueue e).2 (.inr ⟨d, hd, hOther, hSwap⟩),
        (hNew e).2 (.inr ⟨d, hd, hOther, .inl hSwap⟩), hSame⟩

end

/-- If nothing is left behind the entries that are passed over, no pair passes the gates. -/
theorem Faithful.not_offered {m : Merging} (h : Faithful s edges g limit m)
    (hNone : m.queue.dropWhile (!m.isCurrent ·) = []) (c : Candidate) :
    ¬ Greedy.Offered s edges m.clusters c := by
  intro hc
  obtain ⟨d, hd, hOffered, _⟩ := h.complete c hc
  have hCurrent := isCurrent_of_offered h.numbered hOffered
  have hMem := mem_dropWhile_of_mem (p := (!m.isCurrent ·)) hd (by simp [hCurrent])
  rw [hNone] at hMem
  cases hMem

/-- The first entry that is not passed over is a candidate, and no current entry comes before it. It
leaves nothing current behind but what comes after it. -/
theorem Faithful.head {m : Merging} (h : Faithful s edges g limit m) {c : Candidate}
    {queue : List Candidate} (hHead : m.queue.dropWhile (!m.isCurrent ·) = c :: queue) :
    Greedy.Offered s edges m.clusters c ∧
      (∀ d ∈ m.queue, m.isCurrent d = true → c.le d = true) ∧ queue.Sublist m.queue ∧
        ∀ d ∈ m.queue, m.isCurrent d = true → d = c ∨ d ∈ queue := by
  have hSub : (c :: queue).Sublist m.queue := hHead ▸ List.dropWhile_sublist _
  have hBehind : ∀ d ∈ m.queue, m.isCurrent d = true → d = c ∨ d ∈ queue := by
    intro d hd hCurrent
    have hMem := mem_dropWhile_of_mem (p := (!m.isCurrent ·)) hd (by simp [hCurrent])
    rw [hHead] at hMem
    exact List.mem_cons.1 hMem
  have hCurrent : m.isCurrent c = true := by
    have hNot := List.head?_dropWhile_not (!m.isCurrent ·) m.queue
    rw [hHead] at hNot
    simpa using hNot
  refine ⟨h.sound c (hSub.subset (List.mem_cons_self ..)) hCurrent, fun d hd hCurrent => ?_,
    (List.sublist_cons_self c queue).trans hSub, hBehind⟩
  rcases hBehind d hd hCurrent with rfl | hd
  · exact Candidate.le_refl _
  · exact (List.pairwise_cons.1 (h.sorted.sublist hSub)).1 d hd

/-- A round of the queue merges the two clusters of the first entry that is not passed over. -/
theorem Faithful.round {m : Merging} (h : Faithful s edges g limit m) {c : Candidate}
    {queue : List Candidate} (hHead : m.queue.dropWhile (!m.isCurrent ·) = c :: queue) :
    ∃ next, Faithful s edges g limit next ∧ next.clusters = Greedy.merged m.clusters c ∧
      next.clusters.length < m.clusters.length ∧
        ∀ rounds, run s edges (rounds + 1) m = run s edges rounds next := by
  obtain ⟨hOffered, _, hSub, hBehind⟩ := h.head hHead
  obtain ⟨keep, hKeep, drop, hDrop, hId, distance, _, rfl⟩ :=
    Greedy.exists_pair_of_offered h.numbered hOffered
  have hFindKeep : m.cluster? (Candidate.ofPair distance keep drop).keep = some keep :=
    h.numbered.find?_id hKeep
  have hFindDrop : m.cluster? (Candidate.ofPair distance keep drop).drop = some drop :=
    h.numbered.find?_id hDrop
  have hNext := h.unite hKeep hDrop hId hSub fun d hd hCurrent => by
    rcases hBehind d hd hCurrent with rfl | hd
    · exact .inr rfl
    · exact .inl hd
  obtain ⟨queue', hUnite, _⟩ := unite_eq s edges { m with queue } keep drop
  refine ⟨_, hNext, ?_, ?_, fun rounds => ?_⟩
  · rw [hUnite, Greedy.merged_eq h.numbered hKeep hDrop]
  · rw [hUnite]
    exact length_absorbed_lt hDrop
  · rw [Merging.run, hHead]
    simp only [hFindKeep, hFindDrop]

/-- What the rounds of the queue end with is what merging candidates may end with. -/
theorem Faithful.settles {m : Merging} (h : Faithful s edges g limit m) {rounds : Nat}
    (hRounds : m.clusters.length ≤ rounds) :
    Greedy.Settles s edges m.clusters (run s edges rounds m).clusters := by
  induction rounds generalizing m with
  | zero =>
      refine .stop fun c hc => ?_
      obtain ⟨a, ha, _⟩ := hc
      rw [List.length_eq_zero_iff.1 (Nat.le_zero.1 hRounds)] at ha
      cases ha
  | succ rounds ih =>
      cases hQueue : m.queue.dropWhile (!m.isCurrent ·) with
      | nil =>
          rw [Merging.run, hQueue]
          exact .stop (h.not_offered hQueue)
      | cons c queue =>
          obtain ⟨next, hNext, hClusters, hFewer, hRun⟩ := h.round hQueue
          rw [hRun]
          refine .round (h.head hQueue).1 ?_
          rw [← hClusters]
          exact ih hNext (by omega)

/-- If clusters begin with different hunks, a round of the queue merges the pair that the greedy
rule chooses. -/
theorem Faithful.first {m : Merging} (h : Faithful s edges g limit m)
    (hSeparate : Separate g limit m.clusters) {c : Candidate} {queue : List Candidate}
    (hHead : m.queue.dropWhile (!m.isCurrent ·) = c :: queue) :
    Greedy.First s edges m.clusters c := by
  obtain ⟨hOffered, hLeast, _⟩ := h.head hHead
  refine ⟨(Greedy.mem_candidates_iff hSeparate).2 hOffered, fun d hd => ?_⟩
  have hdOffered := (Greedy.mem_candidates_iff hSeparate).1 hd
  obtain ⟨e, he, heOffered, hSame⟩ := h.complete d hdOffered
  have hEq : e = d := Greedy.eq_of_pair hSeparate heOffered hdOffered (pairOf_eq_iff.1 hSame)
  rw [← hEq]
  exact Candidate.rank_isLE_of_le (hLeast e he (isCurrent_of_offered h.numbered heOffered))

/-- Each round of the queue is a round of the greedy rule. -/
theorem Faithful.run {m : Merging} (h : Faithful s edges g limit m)
    (hSeparate : Separate g limit m.clusters) (rounds : Nat) :
    (run s edges rounds m).clusters = Greedy.run s edges rounds m.clusters := by
  induction rounds generalizing m with
  | zero => rfl
  | succ rounds ih =>
      rw [Greedy.run]
      cases hQueue : m.queue.dropWhile (!m.isCurrent ·) with
      | nil =>
          have hNone : Greedy.candidates s edges m.clusters = [] := by
            rw [List.eq_nil_iff_forall_not_mem]
            intro c hc
            exact h.not_offered hQueue c ((Greedy.mem_candidates_iff hSeparate).1 hc)
          rw [Merging.run, hQueue, hNone]
          rfl
      | cons c queue =>
          have hFirst := h.first hSeparate hQueue
          have hLeast : Greedy.least? (Greedy.candidates s edges m.clusters) = some c := by
            cases hLeast : Greedy.least? (Greedy.candidates s edges m.clusters) with
            | none =>
                have hNone := Greedy.least?_eq_none_iff.1 hLeast
                have hMem := hFirst.1
                rw [hNone] at hMem
                cases hMem
            | some d => rw [(Greedy.first_of_least? hLeast).unique hSeparate hFirst]
          obtain ⟨next, hNext, hClusters, _, hRun⟩ := h.round hQueue
          have hNextSeparate : Separate g limit next.clusters := by
            rw [hClusters]
            exact (Greedy.round_of_mem hSeparate hFirst.1).1
          rw [hRun, hLeast, ih hNext hNextSeparate, hClusters]

end Merging

theorem clusters_start (s : Settings) (edges : List Edge) (clusters : List Cluster) :
    (Merging.start s edges clusters).clusters = clusters := by
  obtain ⟨queue, hFold, _⟩ := Merging.foldl_offer s edges (Greedy.pairs clusters)
    ⟨clusters, (Greedy.pairs clusters).foldl
      (fun t p => t.put (pairOf p.1.id p.2.id) (Tie.between edges p.1 p.2)) {}, []⟩
  exact congrArg Merging.clusters hFold

/-- Merging with a queue only ever merges candidates, and ends when there are none. -/
theorem settles_mergeClusters {s : Settings} {edges : List Edge} {g : Graph} {limit : Option Int}
    {clusters : List Cluster} (h : Numbered g limit clusters) :
    Greedy.Settles s edges clusters (mergeClusters s edges clusters) := by
  have hStart : Merging.Faithful s edges g limit (Merging.start s edges clusters) :=
    Merging.faithful_start h
  have hRounds : (Merging.start s edges clusters).clusters.length ≤ clusters.length := by
    rw [clusters_start]
  have hSettles := hStart.settles hRounds
  rwa [clusters_start] at hSettles

/-- Merging with a queue comes to the same clusters as the greedy rule, in the same order. -/
theorem mergeClusters_eq {s : Settings} {edges : List Edge} {g : Graph} {limit : Option Int}
    {clusters : List Cluster} (h : Separate g limit clusters) :
    mergeClusters s edges clusters = Greedy.merge s edges clusters := by
  have hStart : Merging.Faithful s edges g limit (Merging.start s edges clusters) :=
    Merging.faithful_start h.numbered
  have hSeparate : Separate g limit (Merging.start s edges clusters).clusters := by
    rwa [clusters_start]
  rw [mergeClusters, hStart.run hSeparate, clusters_start, Greedy.merge]

theorem ends_mergeClusters_iff {s : Settings} {edges : List Edge} {g : Graph} {limit : Option Int}
    {clusters result : List Cluster} (h : Separate g limit clusters) :
    Greedy.Ends s edges clusters result ↔ result = mergeClusters s edges clusters := by
  rw [mergeClusters_eq h]
  exact Greedy.ends_iff h

theorem separate_mergeClusters {s : Settings} {edges : List Edge} {g : Graph} {limit : Option Int}
    {clusters : List Cluster} (h : Separate g limit clusters) :
    Separate g limit (mergeClusters s edges clusters) :=
  (((ends_mergeClusters_iff h).2 rfl).separate h).1

/-- What the queue ends with is what the greedy rule can end with, and nothing else. The rule only
knows distances, overlaps and first hunks of pairs, and works them out anew in every round. Nothing
is assumed of the settings, and marks need only be names of hunks. -/
theorem ends_iff_eq_mergeClusters (s : Settings) {g : Graph} {ms : List Member}
    (hBuilt : g.Built) (hMarked : g.HunkMarked) (hMembers : members g s.maxDistance = .ok ms)
    (result : List Cluster) :
    Greedy.Ends s g.edges (Cluster.initial ms) result ↔
      result = mergeClusters s g.edges (Cluster.initial ms) := by
  have hSeparate := separate_initial hBuilt hMarked hMembers
  rw [mergeClusters_eq hSeparate]
  exact Greedy.ends_iff hSeparate

/-- What a method of one class is. -/
def methodLabel (name : String) : NodeLabel := {
  kind := .method, identifier := name, name := "current:A." ++ name, revision := .current
  package := some "", owner := some "A", member := some ("A." ++ name) }

/-- Two methods, one of which calls the other, each touched by a hunk of its own. -/
def callPair : Graph :=
  let nodes : List Node := [⟨methodLabel "f", 1, none, ∅⟩, ⟨methodLabel "g", 2, none, ∅⟩]
  (((⟨nodes, []⟩ : Graph).addEdge 1 2 .calls).mark 1 "0:0").mark 2 "0:1"

theorem built_callPair : callPair.Built :=
  .mark 2 _ (.mark 1 _ (.addEdge 1 2 .calls
    ((Graph.Built.empty.append (methodLabel "f") rfl).append (methodLabel "g") rfl)))

theorem hunkMarked_callPair : callPair.HunkMarked := by
  have hNames : ∀ n ∈ callPair.nodes, ∀ name ∈ n.marks.toList,
      name = HunkName.ofIndexes 0 0 ∨ name = HunkName.ofIndexes 0 1 := by decide
  intro n hn name hName
  rcases hNames n hn name hName with rfl | rfl
  · exact ⟨0, 0, rfl⟩
  · exact ⟨0, 1, rfl⟩

/-- A call is enough to merge two methods if no overlap of their facts is asked for. -/
theorem ends_iff_eq_mergeClusters_callPair :
    ∃ ms, members callPair 2 = .ok ms ∧ (Cluster.initial ms).length = 2 ∧
      (mergeClusters { minSimilarity := .finite 0 } callPair.edges
        (Cluster.initial ms)).length = 1 ∧
      ∀ result, Greedy.Ends { minSimilarity := .finite 0 } callPair.edges (Cluster.initial ms)
        result ↔ result = mergeClusters { minSimilarity := .finite 0 } callPair.edges
          (Cluster.initial ms) := by
  have hCounts : ((members callPair 2).toOption.map fun ms => ((Cluster.initial ms).length,
      (mergeClusters { minSimilarity := .finite 0 } callPair.edges
        (Cluster.initial ms)).length)) = some (2, 1) := by decide +kernel
  cases hMembers : members callPair 2 with
  | error e =>
      rw [hMembers] at hCounts
      cases hCounts
  | ok ms =>
      rw [hMembers] at hCounts
      obtain ⟨hBefore, hAfter⟩ := Prod.mk.inj (Option.some.inj hCounts)
      exact ⟨ms, rfl, hBefore, hAfter, ends_iff_eq_mergeClusters { minSimilarity := .finite 0 }
        built_callPair hunkMarked_callPair hMembers⟩

end ChangeSplit.Grouping
