import ChangeSplit.Proofs.Graph.Embedding
import ChangeSplit.Proofs.Grouping.Arrangement
import ChangeSplit.Proofs.Grouping.Attraction
import ChangeSplit.Proofs.Grouping.Mirror

/-! Graphs made up of parts that have nothing to do with each other. A cluster of nodes of the whole
graph that are those of a cluster of a part, under other numbers, is a copy of it: it lies as far
from other copies, as many edges join it to them, and it has the same hunks and facts. Grouping
begins with copies, and so it ends with copies. -/

namespace ChangeSplit

/-- Whether nodes have no member, owner or package in common. -/
structure Node.Unrelated (m n : Node) : Prop where
  member : ∀ x, m.member = some x → n.member ≠ some x
  owner : ∀ x, m.owner = some x → n.owner ≠ some x
  package : ∀ x, m.package = some x → n.package ≠ some x

theorem Node.Unrelated.symm {m n : Node} (h : m.Unrelated n) : n.Unrelated m where
  member x hx hx' := h.member x hx' hx
  owner x hx hx' := h.owner x hx' hx
  package x hx hx' := h.package x hx' hx

theorem structuralTier?_congr {m m' n n' : Node} (hm : m'.toNodeLabel = m.toNodeLabel)
    (hn : n'.toNodeLabel = n.toNodeLabel) (hId : m'.id = n'.id ↔ m.id = n.id) :
    structuralTier? m' n' = structuralTier? m n := by
  simp only [structuralTier?, hm, hn, hId]

theorem Node.Unrelated.structuralTier?_eq {m n m' n' : Node} (h : m.Unrelated n)
    (hm : m'.toNodeLabel = m.toNodeLabel) (hn : n'.toNodeLabel = n.toNodeLabel)
    (hId : m'.id ≠ n'.id) : structuralTier? m' n' = none := by
  have hShared {x y : Option String} (hApart : ∀ z, x = some z → y ≠ some z) :
      (x.isSome && decide (x = y)) = false := by
    cases x with
    | none => rfl
    | some z => simpa using (hApart z rfl).symm
  simp only [structuralTier?, hId, hm, hn, hShared h.member, hShared h.owner, hShared h.package,
    if_false, Bool.false_eq_true]

namespace Graph

/-- Whether a graph is made up of parts that have no edge, no hunk and no member, owner or package
in common. -/
structure Decomposes {ι : Type} (u : Graph) (parts : ι → Graph) (f : ι → Nat → Nat) : Prop where
  embeds : ∀ i, (parts i).Embeds u (f i)
  covers : ∀ n ∈ u.nodes, ∃ i, ∃ m ∈ (parts i).nodes, n.id = f i m.id
  distinct : ∀ i j, i ≠ j → ∀ x y, (parts i).Has x → (parts j).Has y → f i x ≠ f j y
  unrelated : ∀ i j, i ≠ j → ∀ m ∈ (parts i).nodes, ∀ n ∈ (parts j).nodes, m.Unrelated n
  unshared : ∀ i j, i ≠ j → ∀ m ∈ (parts i).nodes, ∀ n ∈ (parts j).nodes,
    ∀ name ∈ m.marks, ¬ name ∈ n.marks

/-- Whether an edge with the given ends joins two sets of nodes. -/
def joinsLink (g : Graph) (A B : Finset Nat) (l : ChangeGraph.Link) : Bool :=
  g.joins A B ⟨0, l.kind, l.source, l.target⟩

/-- The numbers of edges make no difference to their weight. -/
theorem quartersBetween_eq (g : Graph) (A B : Finset Nat) :
    g.quartersBetween A B =
      (((g.edges.map Edge.link).filter (g.joinsLink A B)).map (·.kind.quarters)).sum := by
  rw [List.filter_map, List.map_map]
  rfl

/-- An edge that joins two sets of nodes has an end in one of them. -/
theorem exists_end_of_joins {g : Graph} {A B : Finset Nat} {e : Edge} (h : g.joins A B e = true) :
    ∃ x, (x ∈ A ∨ x ∈ B) ∧ (e.source = x ∨ e.target = x) := by
  simp only [joins, Bool.or_eq_true, Bool.and_eq_true, decide_eq_true_eq] at h
  rcases h with ((h | h) | h) | h
  · exact ⟨_, .inl h.1, .inl rfl⟩
  · exact ⟨_, .inl h.1, .inr rfl⟩
  · exact ⟨_, .inr h.1, .inl rfl⟩
  · exact ⟨_, .inr h.1, .inr rfl⟩

namespace Embeds

variable {a u : Graph} {f : Nat → Nat} {A B : Finset Nat} {x : Nat}

theorem mem_image_iff (h : a.Embeds u f) (hA : ∀ id ∈ A, a.Has id) (hx : a.Has x) :
    f x ∈ A.image f ↔ x ∈ A := by
  rw [Finset.mem_image]
  constructor
  · rintro ⟨y, hy, hSame⟩
    rwa [← h.inj y x (hA y hy) hx hSame]
  · intro hMem
    exact ⟨x, hMem, rfl⟩

variable (ha : a.Built) (hu : u.Built)

include ha hu

theorem reaches_image (h : a.Embeds u f) (hA : ∀ id ∈ A, a.Has id) (hx : a.Has x) :
    u.reaches (A.image f) (f x) = a.reaches A x := by
  rw [Bool.eq_iff_iff]
  simp only [reaches, Bool.or_eq_true, decide_eq_true_eq, List.any_eq_true, Bool.and_eq_true,
    h.mem_image_iff hA hx]
  refine or_congr_right ⟨?_, ?_⟩
  · rintro ⟨n, hn, hnA, c, hc, hId⟩
    obtain ⟨y, hy, hSame⟩ := Finset.mem_image.1 hnA
    obtain ⟨m, hm, rfl⟩ := hA y hy
    obtain ⟨_, b, hb, hEnd⟩ := (h.mem_containers_iff ha hu hm hn hSame.symm).1 hc
    have hContainer : b.id = x :=
      h.inj _ _ (has_id (mem_of_mem_containers hb)) hx (hEnd.symm.trans hId)
    exact ⟨m, hm, hy, b, hb, hContainer⟩
  · rintro ⟨m, hm, hmA, b, hb, hId⟩
    obtain ⟨n, hn, hSame, _⟩ := h.node m hm
    obtain ⟨c, hc, hEnd, _⟩ := h.node b (mem_of_mem_containers hb)
    refine ⟨n, hn, Finset.mem_image.2 ⟨m.id, hmA, hSame.symm⟩, c, ?_, by rw [hEnd, hId]⟩
    exact (h.mem_containers_iff ha hu hm hn hSame).2 ⟨hc, b, hb, hEnd⟩

theorem joins_image (h : a.Embeds u f) (hA : ∀ id ∈ A, a.Has id) (hB : ∀ id ∈ B, a.Has id)
    {e e' : Edge} (he : e ∈ a.edges) (hSource : e'.source = f e.source)
    (hTarget : e'.target = f e.target) :
    u.joins (A.image f) (B.image f) e' = a.joins A B e := by
  have hs := h.closed.has_source he
  have ht := h.closed.has_target he
  simp only [joins, hSource, hTarget, h.mem_image_iff hA hs, h.mem_image_iff hA ht,
    h.mem_image_iff hB hs, h.mem_image_iff hB ht, h.reaches_image ha hu hA hs,
    h.reaches_image ha hu hA ht, h.reaches_image ha hu hB hs, h.reaches_image ha hu hB ht]

/-- Between nodes of the part, the whole graph has only the edges of the part. -/
theorem quartersBetween_image (h : a.Embeds u f) (hA : ∀ id ∈ A, a.Has id)
    (hB : ∀ id ∈ B, a.Has id) :
    u.quartersBetween (A.image f) (B.image f) = a.quartersBetween A B := by
  have hOwn : (u.edges.map Edge.link).filter (u.joinsLink (A.image f) (B.image f)) =
      ((u.edges.map Edge.link).filter fun l =>
        l.source ∈ a.nodes.map (f ·.id) ∨ l.target ∈ a.nodes.map (f ·.id)).filter
          (u.joinsLink (A.image f) (B.image f)) := by
    rw [List.filter_filter]
    apply List.filter_congr
    intro l _
    cases hJoins : u.joinsLink (A.image f) (B.image f) l with
    | false => rfl
    | true =>
        obtain ⟨x, hx, hEnd⟩ := exists_end_of_joins hJoins
        have hImage : x ∈ a.nodes.map (f ·.id) := by
          rw [Finset.mem_image, Finset.mem_image] at hx
          rcases hx with ⟨y, hy, hSame⟩ | ⟨y, hy, hSame⟩
          · exact mem_image.2 ⟨y, hA y hy, hSame⟩
          · exact mem_image.2 ⟨y, hB y hy, hSame⟩
        have hMem : l.source ∈ a.nodes.map (f ·.id) ∨ l.target ∈ a.nodes.map (f ·.id) := by
          rcases hEnd with rfl | rfl
          · exact .inl hImage
          · exact .inr hImage
        rw [decide_eq_true hMem]
        rfl
  have hPerm := ((h.links.filter (u.joinsLink (A.image f) (B.image f))).map
    (·.kind.quarters)).sum_eq
  rw [quartersBetween_eq, hOwn, hPerm, List.filter_map, List.map_map, quartersBetween]
  congr 1
  rw [List.filter_congr fun e he => ?_]
  · rfl
  · exact h.joins_image ha hu hA hB he rfl rfl

end Embeds

end Graph

namespace Grouping

section Copies

variable {a u : Graph} {f : Nat → Nat} {maxDistance : Int}

/-- Distances between nodes of a part are the same in the whole graph. -/
theorem Member.distance?_image (h : a.Embeds u f) (ha : a.Built) (hu : u.Built)
    {m n m' n' : Member} (hm : m.Describes a maxDistance) (hn : n.Describes a maxDistance)
    (hm' : m'.Describes u maxDistance) (hn' : n'.Describes u maxDistance)
    (hId : m'.node.id = f m.node.id) (hId' : n'.node.id = f n.node.id) :
    m'.distance? n' = m.distance? n := by
  have hHas := Graph.has_id hm.mem_nodes
  have hHas' := Graph.has_id hn.mem_nodes
  have hSame : m'.node.id = n'.node.id ↔ m.node.id = n.node.id := by
    rw [hId, hId']
    exact ⟨h.inj _ _ hHas hHas', fun hSame => congrArg f hSame⟩
  rw [distance?, distance?, hm'.reach, hm.reach, hId, hId',
    h.lookup_distancesFrom ha.nodup_ids hHas hHas',
    structuralTier?_congr (h.same hu hm.mem_nodes hm'.mem_nodes hId).1
      (h.same hu hn.mem_nodes hn'.mem_nodes hId').1 hSame]

/-- Whether a cluster has the nodes of a cluster of a part, under other numbers, and its hunks and
facts. -/
structure Cluster.CopyOf (a u : Graph) (maxDistance : Int) (f : Nat → Nat) (c c' : Cluster) :
    Prop where
  nonempty : c.block.Nonempty
  block : c'.block = c.block.image f
  hunks : c'.hunks = c.hunks
  facts : c'.facts = c.facts
  described : c.Described a maxDistance
  described' : c'.Described u maxDistance

theorem Cluster.Described.has {c : Cluster} (h : c.Described a maxDistance) :
    ∀ id ∈ c.block, a.Has id := by
  intro id hId
  obtain ⟨m, hm, rfl⟩ := mem_block.1 hId
  exact Graph.has_id (h m hm).mem_nodes

/-- Under other numbers, the nodes of a cluster are those of the other one. -/
theorem Cluster.exists_source {c c' : Cluster} (h : c'.block = c.block.image f) {m' : Member}
    (hm' : m' ∈ c'.members) : ∃ m ∈ c.members, m'.node.id = f m.node.id := by
  have hMem : m'.node.id ∈ c'.block := mem_block.2 ⟨m', hm', rfl⟩
  rw [h, Finset.mem_image] at hMem
  obtain ⟨id, hId, hSame⟩ := hMem
  obtain ⟨m, hm, rfl⟩ := mem_block.1 hId
  exact ⟨m, hm, hSame.symm⟩

theorem Cluster.exists_image {c c' : Cluster} (h : c'.block = c.block.image f) {m : Member}
    (hm : m ∈ c.members) : ∃ m' ∈ c'.members, m'.node.id = f m.node.id := by
  have hMem : f m.node.id ∈ c'.block := by
    rw [h]
    exact Finset.mem_image_of_mem f (mem_block.2 ⟨m, hm, rfl⟩)
  exact mem_block.1 hMem

namespace Cluster.CopyOf

variable {c c' d d' : Cluster}

theorem absorb (hc : CopyOf a u maxDistance f c c') (hd : CopyOf a u maxDistance f d d') :
    CopyOf a u maxDistance f (c.absorb d) (c'.absorb d') where
  nonempty := by
    rw [block_absorb]
    exact hc.nonempty.inl
  block := by rw [block_absorb, block_absorb, Finset.image_union, hc.block, hd.block]
  hunks := by rw [Cluster.absorb, Cluster.absorb, hc.hunks, hd.hunks]
  facts := by rw [Cluster.absorb, Cluster.absorb, hc.facts, hd.facts]
  described m hm := (mem_absorb_members.1 hm).elim (hc.described m) (hd.described m)
  described' m hm := (mem_absorb_members.1 hm).elim (hc.described' m) (hd.described' m)

/-- Copies are as far apart as the clusters of the part. -/
theorem distance_eq (h : a.Embeds u f) (ha : a.Built) (hu : u.Built)
    (hc : CopyOf a u maxDistance f c c') (hd : CopyOf a u maxDistance f d d') :
    (Tie.between u.edges c' d').distance = (Tie.between a.edges c d).distance := by
  rw [Tie.distance_between, Tie.distance_between]
  apply leastOf_congr
  intro distance
  rw [Tie.mem_distances, Tie.mem_distances]
  constructor
  · rintro ⟨m', hm', n', hn', hDistance⟩
    obtain ⟨m, hm, hId⟩ := exists_source hc.block hm'
    obtain ⟨n, hn, hId'⟩ := exists_source hd.block hn'
    refine ⟨m, hm, n, hn, ?_⟩
    rwa [← Member.distance?_image h ha hu (hc.described m hm) (hd.described n hn)
      (hc.described' m' hm') (hd.described' n' hn') hId hId']
  · rintro ⟨m, hm, n, hn, hDistance⟩
    obtain ⟨m', hm', hId⟩ := exists_image hc.block hm
    obtain ⟨n', hn', hId'⟩ := exists_image hd.block hn
    refine ⟨m', hm', n', hn', ?_⟩
    rwa [Member.distance?_image h ha hu (hc.described m hm) (hd.described n hn)
      (hc.described' m' hm') (hd.described' n' hn') hId hId']

/-- Edges between copies weigh as much as those between the clusters of the part. -/
theorem quarters_eq (h : a.Embeds u f) (ha : a.Built) (hu : u.Built)
    (hc : CopyOf a u maxDistance f c c') (hd : CopyOf a u maxDistance f d d') :
    (Tie.between u.edges c' d').quarters u.edges =
      (Tie.between a.edges c d).quarters a.edges := by
  rw [quarters_between hu hc.described' hd.described',
    quarters_between ha hc.described hd.described, hc.block, hd.block,
    h.quartersBetween_image ha hu hc.described.has hd.described.has]

end Cluster.CopyOf

end Copies

section Parts

variable {ι : Type} {u : Graph} {parts : ι → Graph} {f : ι → Nat → Nat} {maxDistance : Int}
variable (h : u.Decomposes parts f) (hParts : ∀ i, (parts i).Built) (hu : u.Built)

include h hu in
/-- Nodes of different parts are not near each other. -/
theorem Member.distance?_apart {i j : ι} (hNe : i ≠ j) {m n m' n' : Member}
    (hm : m.Describes (parts i) maxDistance) (hn : n.Describes (parts j) maxDistance)
    (hm' : m'.Describes u maxDistance) (hn' : n'.Describes u maxDistance)
    (hId : m'.node.id = f i m.node.id) (hId' : n'.node.id = f j n.node.id) :
    m'.distance? n' = none := by
  have hHas := Graph.has_id hm.mem_nodes
  have hApart := h.distinct i j hNe _ _ hHas (Graph.has_id hn.mem_nodes)
  have hTier : structuralTier? m'.node n'.node = none :=
    (h.unrelated i j hNe _ hm.mem_nodes _ hn.mem_nodes).structuralTier?_eq
      ((h.embeds i).same hu hm.mem_nodes hm'.mem_nodes hId).1
      ((h.embeds j).same hu hn.mem_nodes hn'.mem_nodes hId').1 (by rw [hId, hId']; exact hApart)
  rw [distance?, hTier, hm'.reach, hId, (h.embeds i).lookup_distancesFrom_outside hHas]
  · rfl
  · intro x hx
    rw [hId']
    exact h.distinct i j hNe x _ hx (Graph.has_id hn.mem_nodes)

include h hParts hu

/-- Clusters of the whole graph copy those of its parts. -/
theorem copying_of_decomposes : Copying (fun i => (parts i).edges) u.edges
    fun i => Cluster.CopyOf (parts i) u maxDistance (f i) where
  hunks hc := hc.hunks
  facts hc := hc.facts
  distance {i} _ _ _ _ hc hd := hc.distance_eq (h.embeds i) (hParts i) hu hd
  quarters {i} _ _ _ _ hc hd := hc.quarters_eq (h.embeds i) (hParts i) hu hd
  unique {i j c d c'} hc hd := by
    obtain ⟨x, hx⟩ := hc.nonempty
    have hMem : f i x ∈ d.block.image (f j) := by
      rw [← hd.block, hc.block]
      exact Finset.mem_image_of_mem (f i) hx
    obtain ⟨y, hy, hSame⟩ := Finset.mem_image.1 hMem
    by_contra hNe
    exact h.distinct i j hNe x y (hc.described.has x hx) (hd.described.has y hy) hSame.symm
  apart {i j c c' d d'} hc hd hNe := by
    rw [Tie.distance_between, Option.eq_none_iff_forall_ne_some]
    intro distance hLeast
    obtain ⟨m', hm', n', hn', hDistance⟩ := Tie.mem_distances.1 (leastOf_eq_some_iff.1 hLeast).1
    obtain ⟨m, hm, hId⟩ := Cluster.exists_source hc.block hm'
    obtain ⟨n, hn, hId'⟩ := Cluster.exists_source hd.block hn'
    rw [Member.distance?_apart h hu hNe (hc.described m hm) (hd.described n hn)
      (hc.described' m' hm') (hd.described' n' hn') hId hId'] at hDistance
    cases hDistance
  absorb hc hd := hc.absorb hd

end Parts

/-- A member of a part has the marks and the facts that it has in the whole graph. -/
theorem Member.Describes.same {a u : Graph} {f : Nat → Nat} {maxDistance : Int}
    (h : a.Embeds u f) (ha : a.Built) (hu : u.Built) {m m' : Member}
    (hm : m.Describes a maxDistance) (hm' : m'.Describes u maxDistance)
    (hId : m'.node.id = f m.node.id) : m'.marks = m.marks ∧ m'.facts = m.facts := by
  constructor
  · apply OrderedSet.ext
    intro mark
    rw [hm.marks, hm'.marks, (h.same hu hm.mem_nodes hm'.mem_nodes hId).2]
  · have hFacts := hm'.facts
    rw [h.facts?_eq ha hu hm.mem_nodes hm'.mem_nodes hId, hm.facts] at hFacts
    exact (Option.some.inj hFacts).symm

/-- Clusters that are what their nodes make them are copies as soon as their nodes are. -/
theorem Cluster.copyOf_of_block {a u : Graph} {f : Nat → Nat} {maxDistance : Int}
    (h : a.Embeds u f) (ha : a.Built) (hu : u.Built) {c c' : Cluster} (hc : c.Gathered)
    (hc' : c'.Gathered) (hDescribed : c.Described a maxDistance)
    (hDescribed' : c'.Described u maxDistance) (hBlock : c'.block = c.block.image f) :
    c.CopyOf a u maxDistance f c' := by
  have hSame {p : OrderedSet HunkMark → OrderedSet String → Prop} :
      (∃ m' ∈ c'.members, p m'.marks m'.facts) ↔ ∃ m ∈ c.members, p m.marks m.facts := by
    constructor
    · rintro ⟨m', hm', hp⟩
      obtain ⟨m, hm, hId⟩ := exists_source hBlock hm'
      obtain ⟨hMarks, hFacts⟩ := (hDescribed m hm).same h ha hu (hDescribed' m' hm') hId
      exact ⟨m, hm, by rwa [← hMarks, ← hFacts]⟩
    · rintro ⟨m, hm, hp⟩
      obtain ⟨m', hm', hId⟩ := exists_image hBlock hm
      obtain ⟨hMarks, hFacts⟩ := (hDescribed m hm).same h ha hu (hDescribed' m' hm') hId
      exact ⟨m', hm', by rwa [hMarks, hFacts]⟩
  refine ⟨?_, hBlock, OrderedSet.ext fun mark => ?_, OrderedSet.ext fun fact => ?_, hDescribed,
    hDescribed'⟩
  · obtain ⟨m, hm⟩ := List.exists_mem_of_ne_nil _ hc.nonempty
    exact ⟨m.node.id, mem_block.2 ⟨m, hm, rfl⟩⟩
  · rw [hc.hunks, hc'.hunks]
    exact hSame (p := fun marks _ => mark ∈ marks)
  · rw [hc.facts, hc'.facts]
    exact hSame (p := fun _ facts => fact ∈ facts)

section Initial

variable {ι : Type} {u : Graph} {parts : ι → Graph} {f : ι → Nat → Nat} {maxDistance : Int}
variable (h : u.Decomposes parts f) (hParts : ∀ i, (parts i).Built) (hu : u.Built)
variable {i : ι} {m n : Node} {ms ms' : List Member} {members : ι → List Member}

include h hParts hu

/-- A node of the whole graph is touched just if it is touched in its part. -/
theorem mem_touched_iff (hm : m ∈ (parts i).nodes) (hn : n ∈ u.nodes) (hId : n.id = f i m.id) :
    n ∈ u.touched ↔ m ∈ (parts i).touched := by
  have hTouched : n.isTouched = m.isTouched := by
    rw [Bool.eq_iff_iff, hu.isTouched_iff hn, (hParts i).isTouched_iff hm,
      ((h.embeds i).same hu hm hn hId).2]
  simp only [Graph.touched, List.mem_filter, hm, hn, hTouched, true_and]

omit hParts in
theorem hunkMarked_of_parts (hMarks : ∀ i, (parts i).HunkMarked) : u.HunkMarked := by
  intro n hn name hName
  obtain ⟨i, m, hm, hId⟩ := h.covers n hn
  rw [((h.embeds i).same hu hm hn hId).2] at hName
  exact hMarks i m hm name hName

/-- The whole graph can be grouped just if all its parts can. -/
theorem exists_members_iff_parts (hMarks : ∀ i, (parts i).HunkMarked) :
    (∃ ms, Grouping.members u maxDistance = .ok ms) ↔
      ∀ i, ∃ ms, Grouping.members (parts i) maxDistance = .ok ms := by
  simp only [exists_members_iff (hunkMarked_of_parts h hu hMarks), exists_members_iff (hMarks _)]
  constructor
  · intro hFacts i m hTouched
    have hm := (List.mem_filter.1 hTouched).1
    obtain ⟨n, hn, hId, _⟩ := (h.embeds i).node m hm
    rw [← (h.embeds i).facts?_eq (hParts i) hu hm hn hId]
    exact hFacts n ((mem_touched_iff h hParts hu hm hn hId).2 hTouched)
  · intro hFacts n hTouched
    have hn := (List.mem_filter.1 hTouched).1
    obtain ⟨i, m, hm, hId⟩ := h.covers n hn
    rw [(h.embeds i).facts?_eq (hParts i) hu hm hn hId]
    exact hFacts i m ((mem_touched_iff h hParts hu hm hn hId).1 hTouched)

/-- The nodes to be grouped of a part are among those of the whole graph, and share hunks with no
others. -/
theorem corresponds_part (hMembers : Grouping.members (parts i) maxDistance = .ok ms)
    (hMembers' : Grouping.members u maxDistance = .ok ms') :
    Corresponds (fun m m' => m'.node.id = f i m.node.id) ms ms' where
  total m hm := by
    have hDescribes := (members_eq_ok hMembers).2 m hm
    obtain ⟨n, hn, hId, _⟩ := (h.embeds i).node m.node hDescribes.mem_nodes
    obtain ⟨m', hm', rfl⟩ := exists_member hMembers'
      ((mem_touched_iff h hParts hu hDescribes.mem_nodes hn hId).2 hDescribes.touched)
    exact ⟨m', hm', hId⟩
  unique m _ n hn n' hn' hId hId' :=
    List.inj_on_of_nodup_map (nodup_ids_of_members hu hMembers') hn hn' (hId.trans hId'.symm)
  marks m hm n hn hId mark := by
    rw [(((members_eq_ok hMembers).2 m hm).same (h.embeds i) (hParts i) hu
      ((members_eq_ok hMembers').2 n hn) hId).1]
  closed m hm n hn n' hn' hId hShares := by
    have hDescribes := (members_eq_ok hMembers).2 m hm
    have hDescribes' := (members_eq_ok hMembers').2 n hn
    have hDescribes'' := (members_eq_ok hMembers').2 n' hn'
    obtain ⟨j, k, hk, hId'⟩ := h.covers n'.node hDescribes''.mem_nodes
    obtain ⟨mark, hMark, hMark'⟩ := hShares
    have hOne : i = j := by
      by_contra hNe
      obtain ⟨name, hName, hOf⟩ := (hDescribes'.marks mark).1 hMark
      obtain ⟨name', hName', hOf'⟩ := (hDescribes''.marks mark).1 hMark'
      have hSame : name = name' :=
        (HunkMark.name_of_ofName hOf).symm.trans (HunkMark.name_of_ofName hOf')
      rw [((h.embeds i).same hu hDescribes.mem_nodes hDescribes'.mem_nodes hId).2] at hName
      rw [← hSame, ((h.embeds j).same hu hk hDescribes''.mem_nodes hId').2] at hName'
      exact h.unshared i j hNe _ hDescribes.mem_nodes k hk name hName hName'
    subst hOne
    obtain ⟨m', hm', rfl⟩ := exists_member hMembers
      ((mem_touched_iff h hParts hu hk hDescribes''.mem_nodes hId').1 hDescribes''.touched)
    exact ⟨m', hm', hId'⟩

/-- Grouping begins with copies of the clusters with which it begins in the parts. -/
theorem mirrors_initial (hMembers : ∀ i, Grouping.members (parts i) maxDistance = .ok (members i))
    (hMembers' : Grouping.members u maxDistance = .ok ms') :
    Mirrors (fun i => Cluster.CopyOf (parts i) u maxDistance (f i))
      (fun i => Cluster.initial (members i)) (Cluster.initial ms') := by
  have hWhole := components_initial ms'
  have hImage (i : ι) : ∀ c ∈ Cluster.initial (members i), ∃ c' ∈ Cluster.initial ms',
      Cluster.CopyOf (parts i) u maxDistance (f i) c c' := by
    intro c hc
    have hPart := components_initial (members i)
    have hR := corresponds_part h hParts hu (hMembers i) hMembers'
    obtain ⟨c', hc', hCopies⟩ := hPart.exists_image hWhole hR hc
    refine ⟨c', hc', Cluster.copyOf_of_block (h.embeds i) (hParts i) hu (hPart.gathered c hc)
      (hWhole.gathered c' hc') (fun m hm => (members_eq_ok (hMembers i)).2 m (hPart.mem hc hm))
      (fun m hm => (members_eq_ok hMembers').2 m (hWhole.mem hc' hm)) ?_⟩
    ext id
    rw [Cluster.mem_block, Finset.mem_image]
    constructor
    · rintro ⟨n, hn, rfl⟩
      obtain ⟨m, hm, hId⟩ := (hCopies n (hWhole.mem hc' hn)).1 hn
      exact ⟨m.node.id, Cluster.mem_block.2 ⟨m, hm, rfl⟩, hId.symm⟩
    · rintro ⟨x, hx, rfl⟩
      obtain ⟨m, hm, rfl⟩ := Cluster.mem_block.1 hx
      obtain ⟨n, hn, hId⟩ := hR.total m (hPart.mem hc hm)
      exact ⟨n, (hCopies n hn).2 ⟨m, hm, hId⟩, hId⟩
  refine ⟨hImage, fun c' hc' => ?_⟩
  obtain ⟨n, hn⟩ := List.exists_mem_of_ne_nil _ (hWhole.gathered c' hc').nonempty
  have hDescribes := (members_eq_ok hMembers').2 n (hWhole.mem hc' hn)
  obtain ⟨i, k, hk, hId⟩ := h.covers n.node hDescribes.mem_nodes
  obtain ⟨m, hm, rfl⟩ := exists_member (hMembers i)
    ((mem_touched_iff h hParts hu hk hDescribes.mem_nodes hId).1 hDescribes.touched)
  obtain ⟨c, hc, hmc⟩ := (components_initial (members i)).exists_cluster hm
  obtain ⟨d', hd', hCopy⟩ := hImage i c hc
  obtain ⟨n', hn', hId'⟩ := Cluster.exists_image hCopy.block hmc
  have hNodup := nodup_ids_of_members hu hMembers'
  have hSame : n = n' := List.inj_on_of_nodup_map hNodup (hWhole.mem hc' hn) (hWhole.mem hd' hn')
    (hId.trans hId'.symm)
  have hOne : c' = d' := hWhole.eq_of_mem (.of_map _ hNodup) hc' hd' hn (hSame ▸ hn')
  exact ⟨i, c, hc, hOne ▸ hCopy⟩

/-- Grouping ends with copies of the clusters with which it ends in the parts. -/
theorem mirrors_mergeClusters (s : Settings) (hMarks : ∀ i, (parts i).HunkMarked)
    (hMembers : ∀ i, Grouping.members (parts i) s.maxDistance = .ok (members i))
    (hMembers' : Grouping.members u s.maxDistance = .ok ms') :
    Mirrors (fun i => Cluster.CopyOf (parts i) u s.maxDistance (f i))
      (fun i => mergeClusters s (parts i).edges (Cluster.initial (members i)))
      (mergeClusters s u.edges (Cluster.initial ms')) := by
  classical
  have hSeparate := separate_initial hu (hunkMarked_of_parts h hu hMarks) hMembers'
  have hSeparates (i : ι) := separate_initial (hParts i) (hMarks i) (hMembers i)
  obtain ⟨results, hEnds, hMirrors⟩ := (copying_of_decomposes h hParts hu).exists_ends
    ((ends_mergeClusters_iff hSeparate).2 rfl)
    (mirrors_initial h hParts hu hMembers hMembers') hSeparate hSeparates
  have hResults : results = fun i => mergeClusters s (parts i).edges
      (Cluster.initial (members i)) :=
    funext fun i => (ends_mergeClusters_iff (hSeparates i)).1 (hEnds i)
  rwa [hResults] at hMirrors

end Initial

end Grouping

end ChangeSplit
