import ChangeSplit.Proofs.Grouping.Merging
import Mathlib.Data.List.Perm.Basic
import Mathlib.Logic.Relation

/-! Which nodes are in which cluster. Each touched node is in one cluster, and a cluster has the
hunks and the facts of its nodes. To begin with, nodes are together just if a chain of nodes leads
from one to the other, each of which shares a hunk with the next. -/

namespace ChangeSplit.Grouping

namespace Cluster

/-- Whether a cluster is what its nodes make it. -/
structure Gathered (c : Cluster) : Prop where
  nonempty : c.members ≠ []
  hunks : ∀ h, h ∈ c.hunks ↔ ∃ m ∈ c.members, h ∈ m.marks
  facts : ∀ f, f ∈ c.facts ↔ ∃ m ∈ c.members, f ∈ m.facts

theorem gathered_ofMember (m : Member) : (ofMember m).Gathered where
  nonempty := List.cons_ne_nil _ _
  hunks h := by simp [ofMember]
  facts f := by simp [ofMember]

theorem perm_members_absorb (a b : Cluster) :
    (a.absorb b).members.Perm (a.members ++ b.members) :=
  sortBy_perm _ _

theorem Gathered.absorb {a b : Cluster} (ha : a.Gathered) (hb : b.Gathered) :
    (a.absorb b).Gathered where
  nonempty hNil := by
    have hMem := (perm_members_absorb a b).length_eq
    rw [hNil, List.length_append, List.length_nil] at hMem
    exact ha.nonempty (List.length_eq_zero_iff.1 (by omega))
  hunks h := by
    simp only [mem_absorb_hunks, mem_absorb_members, ha.hunks, hb.hunks, or_and_right, exists_or]
  facts f := by
    have hUnion : f ∈ (a.absorb b).facts ↔ f ∈ a.facts ∨ f ∈ b.facts := OrderedSet.mem_union
    simp only [hUnion, mem_absorb_members, ha.facts, hb.facts, or_and_right, exists_or]

theorem gathered_foldl_absorb {l : List Cluster} {c : Cluster} (hc : c.Gathered)
    (hl : ∀ d ∈ l, d.Gathered) : (l.foldl absorb c).Gathered := by
  induction l generalizing c with
  | nil => exact hc
  | cons d rest ih =>
      exact ih (hc.absorb (hl d (List.mem_cons_self ..))) fun e he =>
        hl e (List.mem_cons_of_mem _ he)

theorem perm_members_foldl_absorb (l : List Cluster) (c : Cluster) :
    (l.foldl absorb c).members.Perm (c.members ++ l.flatMap (·.members)) := by
  induction l generalizing c with
  | nil => simp
  | cons d rest ih =>
      rw [List.foldl_cons, List.flatMap_cons, ← List.append_assoc]
      exact (ih _).trans ((perm_members_absorb c d).append_right _)

end Cluster

/-- Before and after one cluster takes in another, all others are the same. -/
theorem perm_absorbed {g : Graph} {limit : Option Int} {clusters : List Cluster} {a b : Cluster}
    (h : Numbered g limit clusters) (ha : a ∈ clusters) (hb : b ∈ clusters) (hId : a.id ≠ b.id) :
    clusters.Perm (a :: b :: clusters.filter fun c => c.id ≠ a.id ∧ c.id ≠ b.id) ∧
      (absorbed clusters a b).Perm
        (a.absorb b :: clusters.filter fun c => c.id ≠ a.id ∧ c.id ≠ b.id) := by
  have hNodup {l : List Cluster} (hl : (l.map (·.id)).Nodup) : l.Nodup := .of_map _ hl
  have hOthers {c : Cluster} : c ∈ clusters.filter (fun c => c.id ≠ a.id ∧ c.id ≠ b.id) ↔
      c ∈ clusters ∧ c.id ≠ a.id ∧ c.id ≠ b.id := by
    simp
  have hRest : (clusters.filter fun c => c.id ≠ a.id ∧ c.id ≠ b.id).Nodup :=
    (hNodup h.ids).filter _
  constructor
  · refine (List.perm_ext_iff_of_nodup (hNodup h.ids) ?_).2 fun c => ?_
    · rw [List.nodup_cons, List.nodup_cons, List.mem_cons, hOthers, hOthers]
      exact ⟨by rintro (rfl | ⟨_, hNe, _⟩) <;> simp_all, fun hMem => hMem.2.2 rfl, hRest⟩
    · rw [List.mem_cons, List.mem_cons, hOthers]
      constructor
      · intro hc
        by_cases hca : c.id = a.id
        · exact .inl (h.eq_of_id hc ha hca)
        · by_cases hcb : c.id = b.id
          · exact .inr (.inl (h.eq_of_id hc hb hcb))
          · exact .inr (.inr ⟨hc, hca, hcb⟩)
      · rintro (rfl | rfl | ⟨hc, _⟩)
        · exact ha
        · exact hb
        · exact hc
  · refine (List.perm_ext_iff_of_nodup (hNodup (h.absorbed ha hb hId).ids) ?_).2 fun c => ?_
    · rw [List.nodup_cons, hOthers]
      exact ⟨fun hMem => hMem.2.1 rfl, hRest⟩
    · rw [mem_absorbed ha hId, List.mem_cons, hOthers]

/-- Whether each of some nodes is in one cluster, and the clusters are what their nodes make
them. -/
structure Arranged (ms : List Member) (clusters : List Cluster) : Prop where
  perm : (clusters.flatMap (·.members)).Perm ms
  gathered : ∀ c ∈ clusters, c.Gathered

namespace Arranged

variable {ms : List Member} {clusters : List Cluster} {a b c : Cluster} {m n : Member}

theorem mem (h : Arranged ms clusters) (hc : c ∈ clusters) (hm : m ∈ c.members) : m ∈ ms :=
  h.perm.mem_iff.1 (List.mem_flatMap.2 ⟨c, hc, hm⟩)

theorem exists_cluster (h : Arranged ms clusters) (hm : m ∈ ms) :
    ∃ c ∈ clusters, m ∈ c.members :=
  List.mem_flatMap.1 (h.perm.mem_iff.2 hm)

theorem join (h : Arranged ms clusters) (m : Member) :
    Arranged (m :: ms) (Cluster.join clusters m) where
  perm := by
    have hTaken := Cluster.perm_members_foldl_absorb
      (clusters.filter (Cluster.ofMember m).sharesHunk) (Cluster.ofMember m)
    have hSplit : ((clusters.filter (Cluster.ofMember m).sharesHunk).flatMap (·.members) ++
        (clusters.filter (!(Cluster.ofMember m).sharesHunk ·)).flatMap (·.members)).Perm ms := by
      rw [← List.flatMap_append]
      exact ((List.filter_append_perm _ clusters).flatMap_right _).trans h.perm
    rw [Cluster.join, List.flatMap_append, List.flatMap_cons, List.flatMap_nil, List.append_nil]
    refine List.perm_append_comm.trans ((hTaken.append_right _).trans ?_)
    exact hSplit.cons m
  gathered := by
    intro c hc
    rcases List.mem_append.1 hc with hc | hc
    · exact h.gathered c (List.mem_filter.1 hc).1
    · rw [List.mem_singleton.1 hc]
      exact Cluster.gathered_foldl_absorb (Cluster.gathered_ofMember m) fun d hd =>
        h.gathered d (List.mem_filter.1 hd).1

/-- Letting one cluster take in another moves nodes from one to the other. -/
theorem absorbed {g : Graph} {limit : Option Int} (h : Arranged ms clusters)
    (hNumbered : Numbered g limit clusters) (ha : a ∈ clusters) (hb : b ∈ clusters)
    (hId : a.id ≠ b.id) : Arranged ms (absorbed clusters a b) where
  perm := by
    obtain ⟨hBefore, hAfter⟩ := perm_absorbed hNumbered ha hb hId
    refine (hAfter.flatMap_right _).trans (.trans ?_ h.perm)
    refine .trans ?_ (hBefore.flatMap_right _).symm
    rw [List.flatMap_cons, List.flatMap_cons, List.flatMap_cons, ← List.append_assoc]
    exact (Cluster.perm_members_absorb a b).append_right _
  gathered := by
    intro c hc
    rcases (mem_absorbed ha hId).1 hc with rfl | ⟨hc, _⟩
    · exact (h.gathered a ha).absorb (h.gathered b hb)
    · exact h.gathered c hc

/-- No node is in two clusters. -/
theorem eq_of_mem (h : Arranged ms clusters) (hNodup : ms.Nodup) (ha : a ∈ clusters)
    (hb : b ∈ clusters) (hma : m ∈ a.members) (hmb : m ∈ b.members) : a = b := by
  by_contra hNe
  have hApart := (List.nodup_flatMap.1 (h.perm.nodup_iff.2 hNodup)).2
  have hSymm : Std.Symm (Function.onFun List.Disjoint fun c : Cluster => c.members) :=
    ⟨fun _ _ => List.disjoint_symm⟩
  exact hApart.forall ha hb hNe hma hmb

end Arranged

/-- Whether two nodes share a hunk. -/
def Member.Shares (m n : Member) : Prop := ∃ h ∈ m.marks, h ∈ n.marks

/-- Whether a chain of nodes leads from one node to another, each of which shares a hunk with the
next. -/
def Linked (ms : List Member) : Member → Member → Prop :=
  Relation.ReflTransGen fun m n => n ∈ ms ∧ m.Shares n

theorem Linked.mono {ms ms' : List Member} (hSub : ms ⊆ ms') {m n : Member} (h : Linked ms m n) :
    Linked ms' m n :=
  h.lift id fun _ _ hStep => ⟨hSub hStep.1, hStep.2⟩

/-- Whether nodes are in one cluster just if a chain of nodes leads from one to the other. -/
structure Components (ms : List Member) (clusters : List Cluster) : Prop
    extends Arranged ms clusters where
  disjoint : clusters.Pairwise Cluster.Disjoint
  linked : ∀ c ∈ clusters, ∀ m ∈ c.members, ∀ n ∈ c.members, Linked ms m n

namespace Components

variable {ms ms' : List Member} {clusters clusters' : List Cluster} {c : Cluster} {m n : Member}

theorem of_perm (h : Components ms clusters) (hMembers : ms.Perm ms')
    (hClusters : clusters'.Perm clusters) : Components ms' clusters' where
  perm := ((hClusters.flatMap_right _).trans h.perm).trans hMembers
  gathered c hc := h.gathered c (hClusters.mem_iff.1 hc)
  disjoint := (hClusters.pairwise_iff Cluster.Disjoint.symm).2 h.disjoint
  linked c hc m hm n hn := (h.linked c (hClusters.mem_iff.1 hc) m hm n hn).mono hMembers.subset

theorem mem_iff (h : Components ms clusters) (hc : c ∈ clusters) (hm : m ∈ c.members) :
    n ∈ c.members ↔ Linked ms m n := by
  refine ⟨h.linked c hc m hm n, fun hLinked => ?_⟩
  induction hLinked with
  | refl => exact hm
  | tail _ hStep ih =>
      obtain ⟨hn, mark, hMark, hMark'⟩ := hStep
      obtain ⟨d, hd, hnd⟩ := h.exists_cluster hn
      have hSame : c = d := by
        by_contra hNe
        exact h.disjoint.forall hc hd hNe mark (((h.gathered c hc).hunks mark).2 ⟨_, ih, hMark⟩)
          (((h.gathered d hd).hunks mark).2 ⟨_, hnd, hMark'⟩)
      rwa [hSame]

/-- The new node is linked with all nodes of the clusters that it takes in, by the hunk that it has
in common with each of them. -/
theorem linked_join (h : Components ms clusters) (m : Member)
    (hn : n ∈ ((clusters.filter (Cluster.ofMember m).sharesHunk).foldl Cluster.absorb
      (Cluster.ofMember m)).members) : Linked (m :: ms) m n ∧ Linked (m :: ms) n m := by
  have hSub : ms ⊆ m :: ms := fun _ hk => List.mem_cons_of_mem _ hk
  rcases List.mem_append.1 ((Cluster.perm_members_foldl_absorb _ _).mem_iff.1 hn) with hn | hn
  · rw [List.mem_singleton.1 hn]
    exact ⟨.refl, .refl⟩
  · obtain ⟨d, hd, hn⟩ := List.mem_flatMap.1 hn
    obtain ⟨hd, hShares⟩ := List.mem_filter.1 hd
    obtain ⟨mark, hMark, hMark'⟩ := Cluster.sharesHunk_iff.1 hShares
    obtain ⟨k, hk, hMark'⟩ := ((h.gathered d hd).hunks mark).1 hMark'
    have hTo : Linked (m :: ms) m k :=
      .single ⟨List.mem_cons_of_mem _ (h.mem hd hk), mark, hMark, hMark'⟩
    have hFrom : Linked (m :: ms) k m := .single ⟨List.mem_cons_self .., mark, hMark', hMark⟩
    exact ⟨hTo.trans ((h.linked d hd k hk n hn).mono hSub),
      ((h.linked d hd n hn k hk).mono hSub).trans hFrom⟩

theorem join (h : Components ms clusters) (m : Member) :
    Components (m :: ms) (Cluster.join clusters m) where
  toArranged := h.toArranged.join m
  disjoint := Cluster.disjoint_join h.disjoint
  linked := by
    intro c hc x hx y hy
    rcases List.mem_append.1 hc with hc | hc
    · exact (h.linked c (List.mem_filter.1 hc).1 x hx y hy).mono fun _ hk =>
        List.mem_cons_of_mem _ hk
    · rw [List.mem_singleton.1 hc] at hx hy
      exact (h.linked_join m hx).2.trans (h.linked_join m hy).1

theorem foldl_join (h : Components ms clusters) (rest : List Member) :
    Components (rest.reverse ++ ms) (rest.foldl Cluster.join clusters) := by
  induction rest generalizing ms clusters with
  | nil => exact h
  | cons m rest ih =>
      rw [List.reverse_cons, List.append_assoc]
      exact ih (h.join m)

/-- Numbers make no difference to what is in a cluster. -/
theorem numbered (h : Components ms clusters) (next : Nat) :
    Components ms (Cluster.numbered next clusters) where
  perm := by
    have hFlat (l : List Cluster) : l.flatMap (·.members) = (l.map (·.members)).flatten := rfl
    rw [hFlat, Cluster.map_numbered (·.members) fun _ _ => rfl, ← hFlat]
    exact h.perm
  gathered := by
    intro c hc
    obtain ⟨d, hd, hEq⟩ := Cluster.mem_numbered hc
    rw [hEq]
    exact ⟨(h.gathered d hd).nonempty, (h.gathered d hd).hunks, (h.gathered d hd).facts⟩
  disjoint := Cluster.disjoint_numbered h.disjoint
  linked := by
    intro c hc
    obtain ⟨d, hd, hEq⟩ := Cluster.mem_numbered hc
    rw [hEq]
    exact h.linked d hd

end Components

/-- Whether some nodes have counterparts among others, with the same marks, that share no hunk with
any further node. -/
structure Corresponds (R : Member → Member → Prop) (ms ms' : List Member) : Prop where
  total : ∀ m ∈ ms, ∃ n ∈ ms', R m n
  unique : ∀ m ∈ ms, ∀ n ∈ ms', ∀ n' ∈ ms', R m n → R m n' → n = n'
  marks : ∀ m ∈ ms, ∀ n ∈ ms', R m n → ∀ h, h ∈ m.marks ↔ h ∈ n.marks
  closed : ∀ m ∈ ms, ∀ n ∈ ms', ∀ n' ∈ ms', R m n → n.Shares n' → ∃ m' ∈ ms, R m' n'

/-- The counterparts of the nodes of a cluster are a cluster again. -/
theorem Components.exists_image {R : Member → Member → Prop} {ms ms' : List Member}
    {clusters clusters' : List Cluster} (h : Components ms clusters)
    (h' : Components ms' clusters') (hR : Corresponds R ms ms') {c : Cluster}
    (hc : c ∈ clusters) :
    ∃ c' ∈ clusters', ∀ n ∈ ms', n ∈ c'.members ↔ ∃ m ∈ c.members, R m n := by
  obtain ⟨m, hm⟩ := List.exists_mem_of_ne_nil _ (h.gathered c hc).nonempty
  obtain ⟨n, hn, hmn⟩ := hR.total m (h.mem hc hm)
  obtain ⟨c', hc', hnc'⟩ := h'.exists_cluster hn
  refine ⟨c', hc', fun k hk => ?_⟩
  rw [h'.mem_iff hc' hnc']
  constructor
  · -- a chain of counterparts comes from a chain of nodes
    intro hLinked
    clear hk
    induction hLinked with
    | refl => exact ⟨m, hm, hmn⟩
    | tail hPrior hStep ih =>
        obtain ⟨x, hx, hxy⟩ := ih
        have hy := h'.mem hc' ((h'.mem_iff hc' hnc').2 hPrior)
        obtain ⟨z, hz, hzk⟩ := hR.closed x (h.mem hc hx) _ hy _ hStep.1 hxy hStep.2
        obtain ⟨mark, hMark, hMark'⟩ := hStep.2
        have hShares : x.Shares z := ⟨mark, (hR.marks x (h.mem hc hx) _ hy hxy mark).2 hMark,
          (hR.marks z hz _ hStep.1 hzk mark).2 hMark'⟩
        exact ⟨z, (h.mem_iff hc hx).2 (.single ⟨hz, hShares⟩), hzk⟩
  · rintro ⟨x, hx, hxk⟩
    have hLinked := h.linked c hc m hm x hx
    have hImage : ∃ y ∈ ms', R x y ∧ Linked ms' n y := by
      clear hxk hx
      induction hLinked with
      | refl => exact ⟨n, hn, hmn, .refl⟩
      | tail hPrior hStep ih =>
          obtain ⟨y, hy, hxy, hLinked⟩ := ih
          obtain ⟨z, hz, hxz⟩ := hR.total _ hStep.1
          obtain ⟨mark, hMark, hMark'⟩ := hStep.2
          have hMem := h.mem hc ((h.mem_iff hc hm).2 hPrior)
          have hShares : y.Shares z := ⟨mark, (hR.marks _ hMem y hy hxy mark).1 hMark,
            (hR.marks _ hStep.1 z hz hxz mark).1 hMark'⟩
          exact ⟨z, hz, hxz, hLinked.tail ⟨hz, hShares⟩⟩
    obtain ⟨y, hy, hxy, hLinked⟩ := hImage
    rwa [hR.unique x (h.mem hc hx) k hk y hy hxk hxy]

/-- Nodes that are joined one by one are together just if chains of common hunks link them. -/
theorem components_foldl_join (ms : List Member) : Components ms (ms.foldl Cluster.join []) := by
  have hEmpty : Components [] [] := ⟨⟨.refl _, List.forall_mem_nil _⟩, .nil, List.forall_mem_nil _⟩
  have hJoined := hEmpty.foldl_join ms
  rw [List.append_nil] at hJoined
  exact hJoined.of_perm ms.reverse_perm (.refl _)

/-- Grouping begins with the nodes that chains of common hunks link. -/
theorem components_initial (ms : List Member) : Components ms (Cluster.initial ms) :=
  ((components_foldl_join ms).of_perm (.refl _) (sortBy_perm _ _)).numbered 0

theorem nodup_ids_of_members {g : Graph} {maxDistance : Int} {ms : List Member}
    (hBuilt : g.Built) (h : members g maxDistance = .ok ms) : (ms.map (·.node.id)).Nodup := by
  have hIds : ms.map (·.node.id) = g.touched.map (·.id) := by
    rw [← (members_eq_ok h).1, List.map_map]
    rfl
  rw [hIds]
  exact hBuilt.nodup_ids.sublist (List.filter_sublist.map _)

theorem exists_member {g : Graph} {maxDistance : Int} {ms : List Member} {n : Node}
    (h : members g maxDistance = .ok ms) (hn : n ∈ g.touched) : ∃ m ∈ ms, m.node = n := by
  rw [← (members_eq_ok h).1] at hn
  exact List.mem_map.1 hn

/-- To begin with, clusters are numbered, whatever the marks of the graph are. -/
theorem numbered_initial {g : Graph} {maxDistance : Int} {ms : List Member}
    (h : members g maxDistance = .ok ms) :
    Numbered g (some maxDistance) (Cluster.initial ms) where
  ids := by
    rw [Cluster.initial, Cluster.map_id_numbered]
    exact List.nodup_range'
  surveyed c hc m hm := ((members_eq_ok h).2 m ((components_initial ms).mem hc hm)).reach

/-- Merging moves nodes from one cluster to another, and loses none. -/
theorem Arranged.settles {g : Graph} {limit : Option Int} {s : Settings} {edges : List Edge}
    {ms : List Member} {clusters result : List Cluster} (h : Arranged ms clusters)
    (hNumbered : Numbered g limit clusters)
    (hSettles : Greedy.Settles s edges clusters result) : Arranged ms result :=
  (hSettles.invariant (motive := Arranged ms)
    (fun _ _ _ _ hl hArranged ha hb hId _ => hArranged.absorbed hl ha hb hId) hNumbered h).2.1

theorem arranged_mergeClusters {g : Graph} (s : Settings) {ms : List Member}
    (h : members g s.maxDistance = .ok ms) :
    Arranged ms (mergeClusters s g.edges (Cluster.initial ms)) :=
  (components_initial ms).toArranged.settles (numbered_initial h)
    (settles_mergeClusters (numbered_initial h))

end ChangeSplit.Grouping
