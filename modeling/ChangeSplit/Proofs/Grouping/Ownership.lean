import ChangeSplit.Grouping.Ownership
import ChangeSplit.Proofs.Collection.Table
import ChangeSplit.Proofs.Grouping.Arrangement
import Mathlib.Data.List.Induction

/-! What one walk over the touched nodes with an owner for each hunk leads to. While a new node
looks up the owners of its hunks, some of them are out of date. None of these is followed, and all
are replaced before the next node, so the walk joins the same clusters as if it had looked at all of
them. They are the connected parts of the touched nodes, in order of their lowest hunks. -/

namespace ChangeSplit.Grouping

namespace Cluster

/-- Whether the nodes of a cluster are in order of their numbers. -/
def InOrder (c : Cluster) : Prop := c.members.Pairwise fun m n => m.node.id ≤ n.node.id

theorem inOrder_absorb (a b : Cluster) : (a.absorb b).InOrder := by
  have hSorted : (a.absorb b).members.Pairwise fun m n => decide (m.node.id ≤ n.node.id) = true :=
    pairwise_sortBy (fun m n => by simpa using Nat.le_total m.node.id n.node.id)
      (fun l m n hlm hmn => by simp only [decide_eq_true_eq] at *; omega) _
  exact hSorted.imp of_decide_eq_true

theorem InOrder.foldl_absorb {c : Cluster} (h : c.InOrder) (l : List Cluster) :
    (l.foldl absorb c).InOrder := by
  induction l generalizing c with
  | nil => exact h
  | cons d rest ih => exact ih (inOrder_absorb c d)

theorem id_foldl_absorb (l : List Cluster) (c : Cluster) : (l.foldl absorb c).id = c.id := by
  induction l generalizing c with
  | nil => rfl
  | cons d rest ih => rw [List.foldl_cons, ih, absorb_id]

theorem stamp_foldl_absorb (l : List Cluster) (c : Cluster) :
    (l.foldl absorb c).stamp = c.stamp + l.length := by
  induction l generalizing c with
  | nil => rfl
  | cons d rest ih =>
      rw [List.foldl_cons, ih, absorb_stamp, List.length_cons]
      omega

theorem mem_foldl_absorb_facts {l : List Cluster} {c : Cluster} {f : String} :
    f ∈ (l.foldl absorb c).facts ↔ f ∈ c.facts ∨ ∃ d ∈ l, f ∈ d.facts := by
  induction l generalizing c with
  | nil => simp
  | cons d rest ih =>
      have hUnion : f ∈ (c.absorb d).facts ↔ f ∈ c.facts ∨ f ∈ d.facts := OrderedSet.mem_union
      simp [ih, hUnion, or_assoc]

/-- It does not matter in which order a cluster takes in others, if nodes are told apart by their
numbers. -/
theorem foldl_absorb_of_perm {l l' : List Cluster} (h : l.Perm l') {c : Cluster} (hc : c.InOrder)
    (hIds : ∀ m ∈ c.members ++ l.flatMap (·.members), ∀ n ∈ c.members ++ l.flatMap (·.members),
      m.node.id = n.node.id → m = n) : l.foldl absorb c = l'.foldl absorb c := by
  have hPerm := perm_members_foldl_absorb l c
  have hSame : (l.foldl absorb c).members.Perm (l'.foldl absorb c).members :=
    hPerm.trans (((h.flatMap_right _).append_left _).trans (perm_members_foldl_absorb l' c).symm)
  have hMembers : (l.foldl absorb c).members = (l'.foldl absorb c).members := by
    refine hSame.eq_of_pairwise (fun m n hm hn hmn hnm => ?_) (hc.foldl_absorb l)
      (hc.foldl_absorb l')
    exact hIds m (hPerm.mem_iff.1 hm) n (hPerm.mem_iff.1 (hSame.mem_iff.2 hn))
      (Nat.le_antisymm hmn hnm)
  have hHunks : (l.foldl absorb c).hunks = (l'.foldl absorb c).hunks :=
    OrderedSet.ext fun mark => by simp only [mem_foldl_absorb_hunks, h.mem_iff]
  have hFacts : (l.foldl absorb c).facts = (l'.foldl absorb c).facts :=
    OrderedSet.ext fun f => by simp only [mem_foldl_absorb_facts, h.mem_iff]
  have hId := (id_foldl_absorb l c).trans (id_foldl_absorb l' c).symm
  have hStamp : (l.foldl absorb c).stamp = (l'.foldl absorb c).stamp := by
    rw [stamp_foldl_absorb, stamp_foldl_absorb, h.length_eq]
  calc l.foldl absorb c
      = ⟨(l.foldl absorb c).id, (l.foldl absorb c).stamp, (l.foldl absorb c).members,
          (l.foldl absorb c).hunks, (l.foldl absorb c).facts⟩ := rfl
    _ = l'.foldl absorb c := by rw [hId, hStamp, hMembers, hHunks, hFacts]

end Cluster

namespace Ownership

/-- Whether the number of each listed cluster is its own, and the hunks that it owns are those that
it has. Clusters that are no longer listed may still seem to own hunks. -/
structure Walk.Sound (w : Walk) : Prop where
  numbers : (w.listed.map (·.1)).Nodup
  below : ∀ e ∈ w.listed, e.1 < w.next
  owner_iff : ∀ e ∈ w.listed, ∀ mark, w.owners.find? mark = some e.1 ↔ mark ∈ e.2.hunks
  gone_iff : ∀ k, k ∈ w.gone ↔ k < w.next ∧ ∀ e ∈ w.listed, e.1 ≠ k

/-- Whether all owners are listed. -/
def Walk.Current (w : Walk) : Prop :=
  ∀ mark k, w.owners.find? mark = some k → ∃ e ∈ w.listed, e.1 = k

/-- Whether a cluster has one of some hunks. -/
def touches (marks : List HunkMark) (e : Nat × Cluster) : Bool :=
  marks.any (e.2.hunks.contains ·)

theorem touches_iff {marks : List HunkMark} {e : Nat × Cluster} :
    touches marks e = true ↔ ∃ mark ∈ marks, mark ∈ e.2.hunks := by
  simp [touches, OrderedSet.contains_iff]

theorem Walk.find?_enlist_of_mem {w : Walk} {own : Cluster} {mark : HunkMark}
    (hMark : mark ∈ own.hunks) : (w.enlist own).owners.find? mark = some w.next :=
  (Table.find?_foldl_put _ _ _ _).trans (if_pos hMark)

theorem Walk.find?_enlist_of_not_mem {w : Walk} {own : Cluster} {mark : HunkMark}
    (hMark : ¬ mark ∈ own.hunks) : (w.enlist own).owners.find? mark = w.owners.find? mark :=
  (Table.find?_foldl_put _ _ _ _).trans (if_neg hMark)

namespace Walk.Sound

variable {w : Walk} {e e' : Nat × Cluster}

theorem eq_of_number (h : w.Sound) (he : e ∈ w.listed) (he' : e' ∈ w.listed) (hSame : e.1 = e'.1) :
    e = e' :=
  List.inj_on_of_nodup_map h.numbers he he' hSame

/-- Only one listed cluster has a hunk. -/
theorem eq_of_mem (h : w.Sound) (he : e ∈ w.listed) (he' : e' ∈ w.listed) {mark : HunkMark}
    (hMark : mark ∈ e.2.hunks) (hMark' : mark ∈ e'.2.hunks) : e = e' := by
  refine h.eq_of_number he he' (Option.some.inj ?_)
  rw [← (h.owner_iff e he mark).2 hMark, (h.owner_iff e' he' mark).2 hMark']

theorem drop (h : w.Sound) (he : e ∈ w.listed) : (w.drop e.1).Sound where
  numbers := h.numbers.sublist (List.filter_sublist.map _)
  below e' he' := h.below e' (List.mem_filter.1 he').1
  owner_iff e' he' := h.owner_iff e' (List.mem_filter.1 he').1
  gone_iff k := by
    have hBelow := h.below e he
    simp only [Walk.drop, List.mem_append, List.mem_singleton, h.gone_iff, List.mem_filter,
      decide_eq_true_eq]
    constructor
    · rintro (⟨hk, hOthers⟩ | rfl)
      · exact ⟨hk, fun e' he' => hOthers e' he'.1⟩
      · exact ⟨hBelow, fun e' he' => he'.2⟩
    · rintro ⟨hk, hOthers⟩
      by_cases hSame : k = e.1
      · exact .inr hSame
      · refine .inl ⟨hk, fun e' he' => ?_⟩
        rintro rfl
        exact hOthers e' ⟨he', hSame⟩ rfl

/-- The owner of a hunk is taken in if it is listed. Then it is the cluster that has the hunk. -/
theorem takeIn_cases (h : w.Sound) (own : Cluster) (mark : HunkMark) :
    (∀ e ∈ w.listed, ¬ mark ∈ e.2.hunks) ∧ takeIn (w, own) mark = (w, own) ∨
      ∃ e ∈ w.listed, mark ∈ e.2.hunks ∧ takeIn (w, own) mark = (w.drop e.1, own.absorb e.2) := by
  unfold takeIn
  cases hOwner : w.owners.find? mark with
  | none =>
      refine .inl ⟨fun e he hMark => ?_, rfl⟩
      rw [(h.owner_iff e he mark).2 hMark] at hOwner
      cases hOwner
  | some k =>
      cases hLook : w.listed.lookup k with
      | none =>
          refine .inl ⟨fun e he hMark => ?_, by simp [hLook]⟩
          rw [(h.owner_iff e he mark).2 hMark] at hOwner
          cases hOwner
          exact absurd rfl (bne_iff_ne.1 (List.lookup_eq_none_iff.1 hLook e he))
      | some other =>
          have he := (lookup_eq_some_iff_mem h.numbers).1 hLook
          exact .inr ⟨(k, other), he, (h.owner_iff _ he mark).1 hOwner, by simp [hLook]⟩

/-- Of the listed clusters, only the owner of a hunk has it. -/
theorem touches_cons (h : w.Sound) (he : e ∈ w.listed) {mark : HunkMark}
    (hMark : mark ∈ e.2.hunks) (rest : List HunkMark) (he' : e' ∈ w.listed) :
    touches (mark :: rest) e' = (decide (e'.1 = e.1) || touches rest e') := by
  have hOnly : e'.2.hunks.contains mark = decide (e'.1 = e.1) := by
    rw [Bool.eq_iff_iff, OrderedSet.contains_iff, decide_eq_true_eq, ← h.owner_iff e' he',
      (h.owner_iff e he mark).2 hMark, Option.some.injEq, eq_comm]
  simp [touches, hOnly]

theorem perm_touches_cons (h : w.Sound) (he : e ∈ w.listed) {mark : HunkMark}
    (hMark : mark ∈ e.2.hunks) (rest : List HunkMark) :
    (e :: (w.drop e.1).listed.filter (touches rest)).Perm
      (w.listed.filter (touches (mark :: rest))) := by
  have hNodup : w.listed.Nodup := .of_map _ h.numbers
  refine (List.perm_ext_iff_of_nodup ?_ (hNodup.filter _)).2 fun e' => ?_
  · refine List.nodup_cons.2 ⟨fun hMem => ?_, (hNodup.filter _).filter _⟩
    simpa using (List.mem_filter.1 (List.mem_filter.1 hMem).1).2
  · simp only [Walk.drop, List.mem_cons, List.mem_filter, decide_eq_true_eq]
    constructor
    · rintro (rfl | ⟨⟨he', _⟩, hTouches⟩)
      · exact ⟨he, by rw [h.touches_cons he hMark rest he]; simp⟩
      · exact ⟨he', by rw [h.touches_cons he hMark rest he', hTouches, Bool.or_true]⟩
    · rintro ⟨he', hTouches⟩
      by_cases hSame : e'.1 = e.1
      · exact .inl (h.eq_of_number he' he hSame)
      · rw [h.touches_cons he hMark rest he', decide_eq_false hSame, Bool.false_or] at hTouches
        exact .inr ⟨⟨he', hSame⟩, hTouches⟩

/-- The cluster of a new node takes in all clusters that have one of its hunks, each once, and no
others. -/
theorem foldl_takeIn (h : w.Sound) (own : Cluster) (marks : List HunkMark) :
    ∃ (w' : Walk) (taken : List (Nat × Cluster)),
      marks.foldl takeIn (w, own) = (w', (taken.map (·.2)).foldl Cluster.absorb own) ∧
      w'.Sound ∧ w'.owners = w.owners ∧ w'.next = w.next ∧
      w'.listed = w.listed.filter (!touches marks ·) ∧
      taken.Perm (w.listed.filter (touches marks)) := by
  induction marks generalizing w own with
  | nil => exact ⟨w, [], rfl, h, rfl, rfl, by simp [touches], by simp [touches]⟩
  | cons mark rest ih =>
      rcases h.takeIn_cases own mark with ⟨hNone, hStay⟩ | ⟨e, he, hMark, hTake⟩
      · obtain ⟨w', taken, hFold, hSound, hOwners, hNext, hListed, hTaken⟩ := ih h own
        have hSame : ∀ e ∈ w.listed, touches (mark :: rest) e = touches rest e := by
          intro e he
          have hNot : e.2.hunks.contains mark = false := by
            rw [Bool.eq_false_iff, ne_eq, OrderedSet.contains_iff]
            exact hNone e he
          simp [touches, hNot]
        refine ⟨w', taken, ?_, hSound, hOwners, hNext, ?_, ?_⟩
        · rw [List.foldl_cons, hStay, hFold]
        · rw [hListed]
          exact List.filter_congr fun e he => by rw [hSame e he]
        · rwa [List.filter_congr hSame]
      · obtain ⟨w', taken, hFold, hSound, hOwners, hNext, hListed, hTaken⟩ :=
          ih (h.drop he) (own.absorb e.2)
        refine ⟨w', e :: taken, ?_, hSound, hOwners, hNext, ?_, ?_⟩
        · rw [List.foldl_cons, hTake, hFold]
          rfl
        · rw [hListed, Walk.drop, List.filter_filter]
          refine List.filter_congr fun e' he' => ?_
          rw [h.touches_cons he hMark rest he']
          cases touches rest e' <;> simp
        · exact (hTaken.cons e).trans (h.perm_touches_cons he hMark rest)

theorem find?_owners_ne_next (h : w.Sound) (hCurrent : w.Current) (mark : HunkMark) :
    w.owners.find? mark ≠ some w.next := by
  intro hOwner
  obtain ⟨e, he, hNumber⟩ := hCurrent mark w.next hOwner
  exact absurd hNumber (Nat.ne_of_lt (h.below e he))

/-- A new cluster with hunks of its own becomes the owner of them. -/
theorem enlist {own : Cluster} (h : w.Sound) (hOlder : ∀ mark, w.owners.find? mark ≠ some w.next)
    (hKept : ∀ e ∈ w.listed, own.Disjoint e.2) : (w.enlist own).Sound where
  numbers := by
    rw [Walk.enlist, List.map_append, List.nodup_append]
    refine ⟨h.numbers, List.nodup_singleton _, ?_⟩
    intro k hk k' hk' hSame
    obtain ⟨e, he, rfl⟩ := List.mem_map.1 hk
    rw [List.map_singleton, List.mem_singleton] at hk'
    exact absurd (hSame.trans hk') (Nat.ne_of_lt (h.below e he))
  below := by
    intro e he
    rcases List.mem_append.1 he with he | he
    · exact Nat.lt_succ_of_lt (h.below e he)
    · rw [List.mem_singleton.1 he]
      exact Nat.lt_succ_self _
  owner_iff := by
    intro e he mark
    by_cases hMark : mark ∈ own.hunks
    · rw [Walk.find?_enlist_of_mem hMark]
      rcases List.mem_append.1 he with he | he
      · simp [hKept e he mark hMark, (Nat.ne_of_lt (h.below e he)).symm]
      · simp [List.mem_singleton.1 he, hMark]
    · rw [Walk.find?_enlist_of_not_mem hMark]
      rcases List.mem_append.1 he with he | he
      · exact h.owner_iff e he mark
      · simp [List.mem_singleton.1 he, hMark, hOlder mark]
  gone_iff k := by
    simp only [Walk.enlist, h.gone_iff, List.mem_append, List.mem_singleton]
    constructor
    · rintro ⟨hk, hOthers⟩
      refine ⟨Nat.lt_succ_of_lt hk, ?_⟩
      rintro e (he | rfl)
      · exact hOthers e he
      · exact (Nat.ne_of_lt hk).symm
    · rintro ⟨hk, hOthers⟩
      have hNot := hOthers _ (.inr rfl)
      exact ⟨by omega, fun e he => hOthers e (.inl he)⟩

/-- No owner stays out of date, if the new cluster has the hunks of those that are gone. -/
theorem current_enlist {w' : Walk} {own : Cluster} (h : w.Sound) (hCurrent : w.Current)
    (hOwners : w'.owners = w.owners)
    (hLeft : ∀ e ∈ w.listed, e ∈ w'.listed ∨ ∀ mark ∈ e.2.hunks, mark ∈ own.hunks) :
    (w'.enlist own).Current := by
  intro mark k hOwner
  by_cases hMark : mark ∈ own.hunks
  · rw [Walk.find?_enlist_of_mem hMark] at hOwner
    cases hOwner
    exact ⟨_, List.mem_append_right _ (List.mem_singleton.2 rfl), rfl⟩
  · rw [Walk.find?_enlist_of_not_mem hMark, hOwners] at hOwner
    obtain ⟨e, he, rfl⟩ := hCurrent mark k hOwner
    rcases hLeft e he with hStays | hTaken
    · exact ⟨e, List.mem_append_left _ hStays, rfl⟩
    · exact absurd (hTaken mark ((h.owner_iff e he mark).1 hOwner)) hMark

/-- Another node takes the owners of its hunks off the list and puts its own cluster on it. -/
theorem exists_visit (h : w.Sound) (m : Member) :
    ∃ (w' : Walk) (taken : List (Nat × Cluster)),
      visit w m = w'.enlist ((taken.map (·.2)).foldl Cluster.absorb (Cluster.ofMember m)) ∧
      w'.Sound ∧ w'.owners = w.owners ∧ w'.next = w.next ∧
      w'.listed = w.listed.filter (!touches m.marks.toList ·) ∧
      taken.Perm (w.listed.filter (touches m.marks.toList)) := by
  obtain ⟨w', taken, hFold, hRest⟩ := h.foldl_takeIn (Cluster.ofMember m) m.marks.toList
  exact ⟨w', taken, by rw [visit, hFold], hRest⟩

theorem sound_visit (h : w.Sound) (hCurrent : w.Current) (m : Member) :
    (visit w m).Sound ∧ (visit w m).Current := by
  obtain ⟨w', taken, hVisit, hSound, hOwners, hNext, hListed, hTaken⟩ := h.exists_visit m
  have hOwn : ∀ mark,
      mark ∈ ((taken.map (·.2)).foldl Cluster.absorb (Cluster.ofMember m)).hunks ↔
        mark ∈ m.marks ∨ ∃ e ∈ taken, mark ∈ e.2.hunks := by
    intro mark
    rw [Cluster.mem_foldl_absorb_hunks]
    simp only [List.mem_map, exists_exists_and_eq_and]
    rfl
  have hMem : ∀ e, e ∈ taken ↔ e ∈ w.listed ∧ touches m.marks.toList e = true := by
    intro e
    rw [hTaken.mem_iff, List.mem_filter]
  have hOlder : ∀ mark, w'.owners.find? mark ≠ some w'.next := by
    rw [hOwners, hNext]
    exact h.find?_owners_ne_next hCurrent
  rw [hVisit]
  refine ⟨hSound.enlist hOlder ?_, h.current_enlist hCurrent hOwners ?_⟩
  · intro e he mark hMark hMark'
    rw [hListed, List.mem_filter, Bool.not_eq_true'] at he
    have hTouches : touches m.marks.toList e = true := by
      rcases (hOwn mark).1 hMark with hNew | ⟨e', he', hOld⟩
      · exact touches_iff.2 ⟨mark, hNew, hMark'⟩
      · rw [h.eq_of_mem he.1 ((hMem e').1 he').1 hMark' hOld]
        exact ((hMem e').1 he').2
    rw [he.2] at hTouches
    cases hTouches
  · intro e he
    cases hTouches : touches m.marks.toList e with
    | true =>
        have hTaken := (hMem e).2 ⟨he, hTouches⟩
        exact .inr fun mark hMark => (hOwn mark).2 (.inr ⟨e, hTaken, hMark⟩)
    | false =>
        rw [hListed]
        exact .inl (List.mem_filter.2 ⟨he, by rw [hTouches]; rfl⟩)

/-- A node is joined to the clusters that are left as if all of them had been looked at, if nodes
are told apart by their numbers. -/
theorem listed_visit (h : w.Sound) (m : Member)
    (hIds : ∀ n ∈ m :: w.listed.flatMap (·.2.members), ∀ n' ∈ m :: w.listed.flatMap (·.2.members),
      n.node.id = n'.node.id → n = n') :
    (visit w m).listed.map (·.2) = Cluster.join (w.listed.map (·.2)) m := by
  obtain ⟨w', taken, hVisit, _, _, _, hListed, hTaken⟩ := h.exists_visit m
  have hShares : (Cluster.ofMember m).sharesHunk ∘ Prod.snd = touches m.marks.toList := by
    funext e
    rw [Function.comp_apply, Bool.eq_iff_iff, Cluster.sharesHunk_iff, touches_iff]
    rfl
  have hPerm : (taken.map (·.2)).Perm
      ((w.listed.map (·.2)).filter (Cluster.ofMember m).sharesHunk) := by
    rw [List.filter_map, hShares]
    exact hTaken.map _
  have hSub : ∀ n ∈ (Cluster.ofMember m).members ++ (taken.map (·.2)).flatMap (·.members),
      n ∈ m :: w.listed.flatMap (·.2.members) := by
    intro n hn
    rcases List.mem_append.1 hn with hn | hn
    · exact List.mem_cons.2 (.inl (List.mem_singleton.1 hn))
    · obtain ⟨c, hc, hn⟩ := List.mem_flatMap.1 hn
      obtain ⟨e, he, rfl⟩ := List.mem_map.1 hc
      have hMem := (List.mem_filter.1 (hTaken.mem_iff.1 he)).1
      exact List.mem_cons_of_mem _ (List.mem_flatMap.2 ⟨e, hMem, hn⟩)
  have hOwn := Cluster.foldl_absorb_of_perm hPerm (c := Cluster.ofMember m)
    (List.pairwise_singleton _ _) fun n hn n' hn' => hIds n (hSub n hn) n' (hSub n' hn')
  have hStay : (fun e => !touches m.marks.toList e) =
      (fun c => !(Cluster.ofMember m).sharesHunk c) ∘ Prod.snd := by
    rw [← hShares]
    rfl
  rw [hVisit, Walk.enlist, List.map_append, hListed, hStay, Cluster.join, ← hOwn, List.filter_map]
  rfl

end Walk.Sound

/-- After every node, all owners are up to date. -/
theorem sound_walk (ms : List Member) : (walk ms).Sound ∧ (walk ms).Current := by
  induction ms using List.reverseRecOn with
  | nil =>
      refine ⟨⟨.nil, ?_, ?_, ?_⟩, ?_⟩
      · rintro e ⟨⟩
      · rintro e ⟨⟩
      · exact fun k => ⟨fun hk => (nomatch hk), fun hk => absurd hk.1 (Nat.not_lt_zero k)⟩
      · rintro mark k ⟨⟩
  | append_singleton ms m ih =>
      have hStep : walk (ms ++ [m]) = visit (walk ms) m := by simp [walk]
      rw [hStep]
      exact ih.1.sound_visit ih.2 m

/-- The walk leads to the clusters of the nodes joined one by one. -/
theorem listed_walk {ms : List Member}
    (hIds : ∀ m ∈ ms, ∀ n ∈ ms, m.node.id = n.node.id → m = n) :
    (walk ms).listed.map (·.2) = ms.foldl Cluster.join [] := by
  induction ms using List.reverseRecOn with
  | nil => rfl
  | append_singleton ms m ih =>
      have hListed := ih fun n hn n' hn' =>
        hIds n (List.mem_append_left _ hn) n' (List.mem_append_left _ hn')
      have hStep : walk (ms ++ [m]) = visit (walk ms) m := by simp [walk]
      have hMembers : ∀ n ∈ m :: (walk ms).listed.flatMap (·.2.members), n ∈ ms ++ [m] := by
        intro n hn
        rcases List.mem_cons.1 hn with rfl | hn
        · exact List.mem_append_right _ (List.mem_singleton.2 rfl)
        · obtain ⟨e, he, hn⟩ := List.mem_flatMap.1 hn
          have hc : e.2 ∈ ms.foldl Cluster.join [] := hListed ▸ List.mem_map_of_mem he
          exact List.mem_append_left _ ((components_foldl_join ms).mem hc hn)
      rw [hStep, (sound_walk ms).1.listed_visit m fun n hn n' hn' =>
        hIds n (hMembers n hn) n' (hMembers n' hn'), hListed, List.foldl_append]
      rfl

end Ownership

/-- A node that some hunk touched, all of whose marks have names of the usual form. -/
structure Member.Marked (m : Member) : Prop where
  nonempty : ∃ mark, mark ∈ m.marks
  proper : ∀ mark ∈ m.marks, mark.Proper

/-- Whether clusters are the connected parts of some nodes, each with the hunks and the facts of its
nodes, in order of their lowest hunks. -/
structure ConnectedParts (ms : List Member) (clusters : List Cluster) : Prop where
  perm : (clusters.flatMap (·.members)).Perm ms
  unique : ∀ m ∈ ms, ∃! c, c ∈ clusters ∧ m ∈ c.members
  linked_iff : ∀ c ∈ clusters, ∀ m ∈ c.members, ∀ n, n ∈ c.members ↔ Linked ms m n
  hunks : ∀ c ∈ clusters, ∀ mark, mark ∈ c.hunks ↔ ∃ m ∈ c.members, mark ∈ m.marks
  facts : ∀ c ∈ clusters, ∀ f, f ∈ c.facts ↔ ∃ m ∈ c.members, f ∈ m.facts
  disjoint : clusters.Pairwise Cluster.Disjoint
  ids : clusters.map (·.id) = List.range clusters.length
  lowest : ∀ c ∈ clusters, ∃ mark ∈ c.hunks, c.first = mark.position ∧
    ∀ other ∈ c.hunks, HunkName.le mark.position other.position = true
  ordered : clusters.Pairwise fun a b => HunkName.lt a.first b.first = true

namespace Components

variable {ms : List Member} {clusters : List Cluster} {a b c : Cluster} {m : Member}

theorem exists_mark (h : Components ms clusters) (hMarked : ∀ m ∈ ms, m.Marked)
    (hc : c ∈ clusters) : ∃ mark, mark ∈ c.hunks := by
  obtain ⟨m, hm⟩ := List.exists_mem_of_ne_nil _ (h.gathered c hc).nonempty
  obtain ⟨mark, hMark⟩ := (hMarked m (h.mem hc hm)).nonempty
  exact ⟨mark, ((h.gathered c hc).hunks mark).2 ⟨m, hm, hMark⟩⟩

theorem proper (h : Components ms clusters) (hMarked : ∀ m ∈ ms, m.Marked) (hc : c ∈ clusters)
    {mark : HunkMark} (hMark : mark ∈ c.hunks) : mark.Proper := by
  obtain ⟨m, hm, hMark⟩ := ((h.gathered c hc).hunks mark).1 hMark
  exact (hMarked m (h.mem hc hm)).proper mark hMark

/-- Clusters without a common hunk do not begin with the same hunk. -/
theorem first_ne (h : Components ms clusters) (hMarked : ∀ m ∈ ms, m.Marked) (ha : a ∈ clusters)
    (hb : b ∈ clusters) (hApart : a.Disjoint b) : a.first ≠ b.first := by
  obtain ⟨m, hm, hFirst, _⟩ := Cluster.exists_first (h.exists_mark hMarked ha)
  obtain ⟨n, hn, hFirst', _⟩ := Cluster.exists_first (h.exists_mark hMarked hb)
  intro hSame
  have hMark : m = n := (h.proper hMarked ha hm).ext (h.proper hMarked hb hn) (by
    rw [← hFirst, ← hFirst', hSame])
  exact hApart m hm (hMark ▸ hn)

/-- A node is in one cluster only, since it brings its marks into every cluster it is in. -/
theorem unique (h : Components ms clusters) (hMarked : ∀ m ∈ ms, m.Marked) (hm : m ∈ ms) :
    ∃! c, c ∈ clusters ∧ m ∈ c.members := by
  obtain ⟨c, hc, hmc⟩ := h.exists_cluster hm
  refine ⟨c, ⟨hc, hmc⟩, ?_⟩
  rintro d ⟨hd, hmd⟩
  by_contra hNe
  obtain ⟨mark, hMark⟩ := (hMarked m hm).nonempty
  exact h.disjoint.forall hd hc hNe mark (((h.gathered d hd).hunks mark).2 ⟨m, hmd, hMark⟩)
    (((h.gathered c hc).hunks mark).2 ⟨m, hmc, hMark⟩)

end Components

/-- Numbers make no difference to the order of clusters. -/
theorem pairwise_first_numbered {R : Int × Int → Int × Int → Prop} {clusters : List Cluster}
    (h : clusters.Pairwise fun a b => R a.first b.first) (next : Nat) :
    (Cluster.numbered next clusters).Pairwise fun a b => R a.first b.first := by
  rw [← List.pairwise_map (f := Cluster.first)] at h ⊢
  rwa [Cluster.map_numbered Cluster.first fun _ _ => rfl]

theorem connectedParts_initial {ms : List Member} (hMarked : ∀ m ∈ ms, m.Marked) :
    ConnectedParts ms (Cluster.initial ms) where
  perm := (components_initial ms).perm
  unique _ hm := (components_initial ms).unique hMarked hm
  linked_iff _ hc _ hm _ := (components_initial ms).mem_iff hc hm
  hunks c hc := ((components_initial ms).gathered c hc).hunks
  facts c hc := ((components_initial ms).gathered c hc).facts
  disjoint := (components_initial ms).disjoint
  ids := by
    rw [Cluster.initial, Cluster.map_id_numbered, List.range_eq_range']
    congr 1
    simpa using (congrArg List.length (Cluster.map_id_numbered 0 _)).symm
  lowest c hc := Cluster.exists_first ((components_initial ms).exists_mark hMarked hc)
  ordered := by
    have hParts := components_initial ms
    have hSorted : (sortBy (fun a b => HunkName.le a.first b.first)
        (ms.foldl Cluster.join [])).Pairwise fun a b => HunkName.le a.first b.first = true :=
      pairwise_sortBy (fun a b => HunkName.le_total a.first b.first)
        (fun a b c => HunkName.le_trans a.first b.first c.first) _
    have hNumbered := pairwise_first_numbered (R := fun p q => HunkName.le p q = true) hSorted 0
    refine (hNumbered.and hParts.disjoint).imp_of_mem ?_
    rintro a b ha hb ⟨hLe, hApart⟩
    exact HunkName.lt_of_le_of_ne hLe (hParts.first_ne hMarked ha hb hApart)

theorem initial_eq_of_ids {ms : List Member}
    (hIds : ∀ m ∈ ms, ∀ n ∈ ms, m.node.id = n.node.id → m = n) :
    Ownership.initial ms = Cluster.initial ms := by
  rw [Ownership.initial, Ownership.listed_walk hIds, Cluster.initial]

/-- What is listed in the end has not been taken in by anything. -/
theorem exists_listed_of_mem_initial {ms : List Member} {c : Cluster}
    (hc : c ∈ Ownership.initial ms) : ∃ e ∈ (Ownership.walk ms).listed,
      ¬ e.1 ∈ (Ownership.walk ms).gone ∧ c = { e.2 with id := c.id, stamp := 0 } := by
  obtain ⟨d, hd, hSame⟩ := Cluster.mem_numbered hc
  obtain ⟨e, he, rfl⟩ := List.mem_map.1 (mem_sortBy.1 hd)
  refine ⟨e, he, fun hGone => ?_, hSame⟩
  exact (((Ownership.sound_walk ms).1.gone_iff e.1).1 hGone).2 e he rfl

theorem find?_owners_walk (ms : List Member) (mark : HunkMark) (k : Nat) :
    (Ownership.walk ms).owners.find? mark = some k ↔
      ∃ e ∈ (Ownership.walk ms).listed, e.1 = k ∧ mark ∈ e.2.hunks := by
  obtain ⟨hSound, hCurrent⟩ := Ownership.sound_walk ms
  constructor
  · intro hOwner
    obtain ⟨e, he, rfl⟩ := hCurrent mark k hOwner
    exact ⟨e, he, rfl, (hSound.owner_iff e he mark).1 hOwner⟩
  · rintro ⟨e, he, rfl, hMark⟩
    exact (hSound.owner_iff e he mark).2 hMark

/-- Grouping begins with the connected parts of the touched nodes. A walk with an owner for each
hunk finds them, lists only clusters that nothing took in, and ends with owners that are all up to
date. -/
theorem initial_connected {ms : List Member} (hMarked : ∀ m ∈ ms, m.Marked)
    (hIds : ∀ m ∈ ms, ∀ n ∈ ms, m.node.id = n.node.id → m = n) :
    ConnectedParts ms (Cluster.initial ms) ∧ Ownership.initial ms = Cluster.initial ms ∧
      (∀ c ∈ Ownership.initial ms, ∃ e ∈ (Ownership.walk ms).listed,
        ¬ e.1 ∈ (Ownership.walk ms).gone ∧ c = { e.2 with id := c.id, stamp := 0 }) ∧
      ∀ mark k, (Ownership.walk ms).owners.find? mark = some k ↔
        ∃ e ∈ (Ownership.walk ms).listed, e.1 = k ∧ mark ∈ e.2.hunks :=
  ⟨connectedParts_initial hMarked, initial_eq_of_ids hIds,
    fun _ hc => exists_listed_of_mem_initial hc, find?_owners_walk ms⟩

/-- A class that some hunks of the first file touched. -/
def touchedClass (id : Nat) (hunks : List Int) : Member where
  node := { kind := .classType, identifier := "A", name := "current:A", revision := .current, id }
  marks := .ofList (hunks.map fun hunk => ⟨0, hunk, HunkName.ofIndexes 0 hunk⟩)
  facts := .ofList ["A"]
  reach := [(id, 0)]
  containers := []

theorem marked_touchedClass (id : Nat) {hunks : List Int} (h : hunks ≠ []) :
    (touchedClass id hunks).Marked where
  nonempty := by
    obtain ⟨hunk, hHunk⟩ := List.exists_mem_of_ne_nil _ h
    exact ⟨_, OrderedSet.mem_ofList.2 (List.mem_map_of_mem hHunk)⟩
  proper := by
    intro mark hMark
    obtain ⟨hunk, _, rfl⟩ := List.mem_map.1 (OrderedSet.mem_ofList.1 hMark)
    rfl

/-- Five classes, the third of which has hunks in common with the first and with the second. When
the last one comes, both of its hunks have the same owner. -/
def bridgedClasses : List Member :=
  [touchedClass 1 [1], touchedClass 2 [3], touchedClass 3 [1, 3], touchedClass 4 [0, 2],
    touchedClass 5 [1, 3]]

/-- The second look-up finds an owner that is no longer listed. -/
theorem initial_connected_bridgedClasses :
    (Cluster.initial bridgedClasses).map (fun c =>
        (c.id, c.members.map (·.node.id), c.hunks.toList.map (·.name))) =
      [(0, [4], ["0:0", "0:2"]), (1, [1, 2, 3, 5], ["0:1", "0:3"])] ∧
      (Ownership.walk bridgedClasses).gone = [0, 1, 2] ∧
      (∀ m ∈ bridgedClasses, m.Marked) ∧
      (∀ m ∈ bridgedClasses, ∀ n ∈ bridgedClasses, m.node.id = n.node.id → m = n) ∧
      ConnectedParts bridgedClasses (Cluster.initial bridgedClasses) ∧
      Ownership.initial bridgedClasses = Cluster.initial bridgedClasses ∧
      (∀ c ∈ Ownership.initial bridgedClasses, ∃ e ∈ (Ownership.walk bridgedClasses).listed,
        ¬ e.1 ∈ (Ownership.walk bridgedClasses).gone ∧ c = { e.2 with id := c.id, stamp := 0 }) ∧
      ∀ mark k, (Ownership.walk bridgedClasses).owners.find? mark = some k ↔
        ∃ e ∈ (Ownership.walk bridgedClasses).listed, e.1 = k ∧ mark ∈ e.2.hunks := by
  have hMarked : ∀ m ∈ bridgedClasses, m.Marked := by
    intro m hm
    simp only [bridgedClasses, List.mem_cons, List.not_mem_nil, or_false] at hm
    rcases hm with rfl | rfl | rfl | rfl | rfl <;> exact marked_touchedClass _ (by decide)
  have hNodup : (bridgedClasses.map (·.node.id)).Nodup := by decide
  have hIds : ∀ m ∈ bridgedClasses, ∀ n ∈ bridgedClasses, m.node.id = n.node.id → m = n :=
    fun m hm n hn hSame => List.inj_on_of_nodup_map hNodup hm hn hSame
  exact ⟨by decide +kernel, by decide +kernel, hMarked, hIds, initial_connected hMarked hIds⟩

end ChangeSplit.Grouping
