import ChangeSplit.Graph.Distance
import ChangeSplit.Proofs.Collection.OrderedSet

/-! The search in layers finds the length of a shortest walk. Walks may follow edges in either
direction, so the length is the same from both ends, whatever the limit of the search. -/

namespace ChangeSplit.Graph

/-- Two nodes are the ends of an edge, in either order. -/
def Joined (g : Graph) (a b : Nat) : Prop :=
  ∃ e ∈ g.edges, (e.source = a ∧ e.target = b) ∨ (e.target = a ∧ e.source = b)

theorem Joined.symm {g : Graph} {a b : Nat} (h : g.Joined a b) : g.Joined b a := by
  obtain ⟨e, he, hEnds⟩ := h
  exact ⟨e, he, hEnds.symm.imp And.symm And.symm⟩

/-- A walk with the given number of edges. -/
inductive Walk (g : Graph) : Nat → Nat → Nat → Prop where
  | here (a : Nat) : Walk g a 0 a
  | next {a b c n : Nat} (prior : Walk g a n b) (last : g.Joined b c) : Walk g a (n + 1) c

theorem Walk.cons {g : Graph} {a b c n : Nat} (first : g.Joined a b) (rest : g.Walk b n c) :
    g.Walk a (n + 1) c := by
  induction rest with
  | here => exact .next (.here a) first
  | next prior last ih => exact .next ih last

theorem Walk.symm {g : Graph} {a b n : Nat} (h : g.Walk a n b) : g.Walk b n a := by
  induction h with
  | here => exact .here a
  | next prior last ih => exact .cons last.symm ih

/-- The length of a shortest walk. -/
def Apart (g : Graph) (a d b : Nat) : Prop := g.Walk a d b ∧ ∀ k < d, ¬ g.Walk a k b

theorem Apart.symm {g : Graph} {a b d : Nat} (h : g.Apart a d b) : g.Apart b d a :=
  ⟨h.1.symm, fun k hk hWalk => h.2 k hk hWalk.symm⟩

theorem Apart.unique {g : Graph} {a b d e : Nat} (hd : g.Apart a d b) (he : g.Apart a e b) :
    d = e := by
  have h₁ : ¬ d < e := fun hLess => he.2 d hLess hd.1
  have h₂ : ¬ e < d := fun hLess => hd.2 e hLess he.1
  omega

theorem Apart.iff_eq {g : Graph} {a b d e : Nat} (he : g.Apart a e b) : g.Apart a d b ↔ e = d :=
  ⟨fun hd => he.unique hd, fun h => h ▸ he⟩

/-- A walk gives a shortest one, since lengths are natural numbers. -/
theorem Walk.exists_apart {g : Graph} {a b n : Nat} (h : g.Walk a n b) :
    ∃ d ≤ n, g.Apart a d b := by
  induction n using Nat.strongRecOn with
  | ind n ih =>
      by_cases hShort : ∃ k < n, g.Walk a k b
      · obtain ⟨k, hk, hWalk⟩ := hShort
        obtain ⟨d, hd, hApart⟩ := ih k hk hWalk
        exact ⟨d, by omega, hApart⟩
      · exact ⟨n, Nat.le_refl n, h, fun k hk hWalk => hShort ⟨k, hk, hWalk⟩⟩

/-- A shortest walk is shortest up to the last node but one. -/
theorem Apart.last {g : Graph} {a c d : Nat} (h : g.Apart a (d + 1) c) :
    ∃ b, g.Apart a d b ∧ g.Joined b c := by
  obtain ⟨hWalk, hLeast⟩ := h
  cases hWalk with
  | next prior last =>
      refine ⟨_, ⟨prior, ?_⟩, last⟩
      intro k hk hShort
      exact hLeast (k + 1) (by omega) (.next hShort last)

/-- On the way to a node, every lesser distance occurs. -/
theorem Apart.exists_nearer {g : Graph} {a b d k : Nat} (h : g.Apart a d b) (hk : k ≤ d) :
    ∃ x, g.Apart a k x := by
  induction d generalizing b with
  | zero => exact ⟨b, (Nat.le_zero.1 hk).symm ▸ h⟩
  | succ d ih =>
      by_cases hSame : k = d + 1
      · exact ⟨b, hSame.symm ▸ h⟩
      · obtain ⟨x, hx, _⟩ := h.last
        exact ih hx (by omega)

theorem mem_neighbors {g : Graph} {a b : Nat} : b ∈ g.neighbors a ↔ g.Joined a b := by
  simp only [neighbors, OrderedSet.mem_ofList, List.mem_filterMap, Joined]
  constructor
  · rintro ⟨e, he, hEnd⟩
    refine ⟨e, he, ?_⟩
    split at hEnd
    case isTrue hSource => exact .inl ⟨hSource, Option.some.inj hEnd⟩
    case isFalse =>
      split at hEnd
      case isTrue hTarget => exact .inr ⟨hTarget, Option.some.inj hEnd⟩
      case isFalse => cases hEnd
  · rintro ⟨e, he, ⟨hSource, hTarget⟩ | ⟨hTarget, hSource⟩⟩
    · exact ⟨e, he, by simp [hSource, hTarget]⟩
    · refine ⟨e, he, ?_⟩
      rw [hSource, hTarget, if_pos rfl]
      split
      case isTrue hLoop => rw [hLoop]
      case isFalse => rfl

/-- The nodes after a layer: those that are one edge away from it and not seen yet. -/
def nextLayer (g : Graph) (seen layer : List Nat) : List Nat :=
  ((layer.flatMap fun id => (g.neighbors id).toList).filter (!seen.contains ·)).eraseDups

/-- If all nodes up to a layer are seen, the nodes after it are those one edge further from the
start. -/
theorem mem_nextLayer {g : Graph} {a depth b : Nat} {seen layer : List Nat}
    (hSeen : ∀ x, x ∈ seen ↔ ∃ d ≤ depth, g.Apart a d x)
    (hLayer : ∀ x, x ∈ layer ↔ g.Apart a depth x) :
    b ∈ g.nextLayer seen layer ↔ g.Apart a (depth + 1) b := by
  simp only [nextLayer, List.mem_eraseDups, List.mem_filter, List.mem_flatMap,
    ← OrderedSet.mem_def, mem_neighbors, Bool.not_eq_true', List.contains_eq_mem,
    decide_eq_false_iff_not]
  constructor
  · rintro ⟨⟨x, hx, hJoined⟩, hNew⟩
    refine ⟨.next ((hLayer x).1 hx).1 hJoined, ?_⟩
    intro k hk hWalk
    obtain ⟨d, hd, hApart⟩ := hWalk.exists_apart
    exact hNew ((hSeen b).2 ⟨d, by omega, hApart⟩)
  · intro hApart
    obtain ⟨x, hx, hJoined⟩ := hApart.last
    refine ⟨⟨x, (hLayer x).2 hx, hJoined⟩, ?_⟩
    intro hOld
    obtain ⟨d, hd, hCloser⟩ := (hSeen b).1 hOld
    have hSame := hCloser.unique hApart
    omega

/-- With the nodes after a layer, all nodes up to one edge further are seen. -/
theorem mem_append_nextLayer {g : Graph} {a depth b : Nat} {seen layer : List Nat}
    (hSeen : ∀ x, x ∈ seen ↔ ∃ d ≤ depth, g.Apart a d x)
    (hLayer : ∀ x, x ∈ layer ↔ g.Apart a depth x) :
    b ∈ seen ++ g.nextLayer seen layer ↔ ∃ d ≤ depth + 1, g.Apart a d b := by
  rw [List.mem_append, hSeen, mem_nextLayer hSeen hLayer]
  constructor
  · rintro (⟨d, hd, hApart⟩ | hApart)
    · exact ⟨d, by omega, hApart⟩
    · exact ⟨depth + 1, Nat.le_refl _, hApart⟩
  · rintro ⟨d, hd, hApart⟩
    by_cases hNew : d = depth + 1
    · exact .inr (hNew ▸ hApart)
    · exact .inl ⟨d, by omega, hApart⟩

theorem layers_succ (g : Graph) (reach depth : Nat) (seen : List Nat) {layer : List Nat}
    (h : layer.isEmpty = false) :
    g.layers (reach + 1) depth seen layer = layer.map (·, depth) ++
      g.layers reach (depth + 1) (seen ++ g.nextLayer seen layer) (g.nextLayer seen layer) := by
  rw [layers, h]
  rfl

theorem lookup_map_pair (layer : List Nat) (depth b : Nat) :
    (layer.map (·, depth)).lookup b = if b ∈ layer then some depth else none := by
  induction layer with
  | nil => rfl
  | cons x rest ih =>
      by_cases h : b = x
      · simp [h]
      · simp [h, List.lookup_cons, beq_eq_false_iff_ne.mpr h, ih]

/-- From a layer on, the search finds the nodes at its depth or further away, up to its reach. -/
theorem lookup_layers {g : Graph} {a reach depth : Nat} {seen layer : List Nat}
    (hSeen : ∀ x, x ∈ seen ↔ ∃ d ≤ depth, g.Apart a d x)
    (hLayer : ∀ x, x ∈ layer ↔ g.Apart a depth x) (b d : Nat) :
    (g.layers reach depth seen layer).lookup b = some d ↔
      depth ≤ d ∧ d ≤ depth + reach ∧ g.Apart a d b := by
  induction reach generalizing depth seen layer with
  | zero =>
      rw [layers, lookup_map_pair]
      by_cases hb : b ∈ layer
      · rw [if_pos hb, ((hLayer b).1 hb).iff_eq, Option.some.injEq]
        omega
      · rw [if_neg hb]
        refine ⟨fun h => (Option.some_ne_none _ h.symm).elim, ?_⟩
        rintro ⟨hLow, hHigh, hApart⟩
        have hDepth : d = depth := by omega
        exact absurd ((hLayer b).2 (hDepth ▸ hApart)) hb
  | succ reach ih =>
      cases hEmpty : layer.isEmpty with
      | true =>
          -- no node lies at this depth, so none lies further away
          rw [layers, hEmpty]
          refine ⟨fun h => (Option.some_ne_none _ h.symm).elim, ?_⟩
          rintro ⟨hLow, _, hApart⟩
          obtain ⟨x, hx⟩ := hApart.exists_nearer hLow
          rw [← hLayer, List.isEmpty_iff.1 hEmpty] at hx
          cases hx
      | false =>
          have hNext : ∀ x, x ∈ g.nextLayer seen layer ↔ g.Apart a (depth + 1) x :=
            fun x => mem_nextLayer hSeen hLayer
          have hRest := ih (fun x => mem_append_nextLayer hSeen hLayer) hNext
          rw [layers_succ g reach depth seen hEmpty, List.lookup_append, lookup_map_pair]
          by_cases hb : b ∈ layer
          · rw [if_pos hb, ((hLayer b).1 hb).iff_eq, Option.some_or, Option.some.injEq]
            omega
          · rw [if_neg hb, Option.none_or]
            refine hRest.trans ?_
            constructor
            · rintro ⟨hLow, hHigh, hApart⟩
              exact ⟨by omega, by omega, hApart⟩
            · rintro ⟨hLow, hHigh, hApart⟩
              have hNot : d ≠ depth := fun h => hb ((hLayer b).2 (h ▸ hApart))
              exact ⟨by omega, by omega, hApart⟩

/-- How many layers a search looks at. -/
def reachOf (g : Graph) (limit : Option Int) : Nat :=
  limit.elim g.nodes.length fun l => min l.toNat g.nodes.length

theorem apart_zero_iff {g : Graph} {a x : Nat} : g.Apart a 0 x ↔ x = a := by
  constructor
  · rintro ⟨hWalk, _⟩
    cases hWalk
    rfl
  · rintro rfl
    exact ⟨.here x, fun k hk => absurd hk (Nat.not_lt_zero k)⟩

/-- At the start the only layer is the node itself. -/
theorem mem_start_iff (g : Graph) (a x : Nat) : x ∈ [a] ↔ g.Apart a 0 x := by
  rw [List.mem_singleton, apart_zero_iff]

/-- At the start the node itself is all that is seen. -/
theorem mem_start_iff_exists (g : Graph) (a x : Nat) : x ∈ [a] ↔ ∃ d ≤ 0, g.Apart a d x := by
  rw [mem_start_iff g]
  constructor
  · intro h
    exact ⟨0, Nat.le_refl 0, h⟩
  · rintro ⟨d, hd, hApart⟩
    cases Nat.le_zero.1 hd
    exact hApart

/-- The search finds a node exactly if a walk within its reach leads there, and finds the length
of a shortest one. -/
theorem lookup_distancesFrom (g : Graph) (a b d : Nat) (limit : Option Int) :
    (g.distancesFrom a limit).lookup b = some d ↔ d ≤ g.reachOf limit ∧ g.Apart a d b := by
  rw [distancesFrom, ← reachOf, lookup_layers (mem_start_iff_exists g a) (mem_start_iff g a)]
  constructor
  · rintro ⟨_, hHigh, hApart⟩
    exact ⟨by omega, hApart⟩
  · rintro ⟨hHigh, hApart⟩
    exact ⟨Nat.zero_le d, by omega, hApart⟩

/-- The limit counts from both ends alike, so distances do not depend on where one starts. -/
theorem lookup_distancesFrom_comm (g : Graph) (a b : Nat) (limit : Option Int) :
    (g.distancesFrom a limit).lookup b = (g.distancesFrom b limit).lookup a := by
  apply Option.ext
  intro d
  rw [lookup_distancesFrom, lookup_distancesFrom]
  exact and_congr_right fun _ => ⟨Apart.symm, Apart.symm⟩

end ChangeSplit.Graph

namespace ChangeSplit

theorem structuralTier?_comm (a b : Node) : structuralTier? a b = structuralTier? b a := by
  have hShared {x y : Option String} :
      (x.isSome && decide (x = y)) = (y.isSome && decide (y = x)) := by
    by_cases h : x = y
    · rw [h]
    · simp [h, Ne.symm h]
  simp only [structuralTier?, hShared (x := a.member), hShared (x := a.owner),
    hShared (x := a.package), eq_comm (a := a.id)]

theorem Graph.nodeDistance?_comm (g : Graph) (a b : Node) (limit : Option Int) :
    g.nodeDistance? a b limit = g.nodeDistance? b a limit := by
  rw [nodeDistance?, nodeDistance?, distance?, distance?, structuralTier?_comm,
    lookup_distancesFrom_comm]

theorem nearer_comm (x y : Option Nat) : nearer x y = nearer y x := by
  cases x <;> cases y <;> simp [nearer, Nat.min_comm]

/-- The nearer of two distances is one of them, and no further than either. -/
theorem nearer_eq_some_iff {x y : Option Nat} {d : Nat} :
    nearer x y = some d ↔
      (x = some d ∨ y = some d) ∧ (∀ e, x = some e → d ≤ e) ∧ (∀ e, y = some e → d ≤ e) := by
  cases x <;> cases y <;> simp [nearer] <;> omega

end ChangeSplit
