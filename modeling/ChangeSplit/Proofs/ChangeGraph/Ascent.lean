import ChangeSplit.Proofs.ChangeGraph.Justification
import ChangeSplit.Proofs.ChangeGraph.Record

/-! The walk from the owner of a call up through what it extends. Each step resolves a name in
another file, and classes may extend each other in a circle, so nothing in the sources bounds the
walk. It ends because it passes no type twice and only ever meets types that have nodes. It stops at
the first type on the way that declares the method. -/

namespace ChangeSplit

/-- Of the entities of a type, only the type itself is one. -/
theorem Java.Subject.eq_typeEntity_of_isType {s : Subject} {p : Place} {e : Entity}
    (h : e ∈ s.entitiesOfType p) (hType : e.kind.isType = true) : e = s.typeEntity p := by
  rcases List.mem_cons.1 h with rfl | hMember
  · rfl
  · obtain ⟨m, _, he⟩ := List.mem_flatMap.1 hMember
    split at he
    case isTrue =>
      obtain ⟨d, _, rfl⟩ := List.mem_map.1 he
      cases hType
    case isFalse =>
      split at he
      case isTrue =>
        rw [List.mem_singleton.1 he] at hType
        cases hType
      case isFalse =>
        split at he
        case isTrue =>
          rw [List.mem_singleton.1 he] at hType
          cases hType
        case isFalse => cases he

namespace ChangeGraph

/-- A state in which the builder can be: a graph that was formed step by step, with whatever edges
and notes came since. -/
def Reached (g : ChangeGraph) : Prop :=
  ∃ names placed, Formed names IsDeclared placed ∧ g.pool = placed.pool ∧
    g.graph.nodes = placed.graph.nodes

theorem reached_of_build {rootPath : String} {root : Folder} {path : List String}
    {files : List FileChange} {g : ChangeGraph} (h : build rootPath root path files = .ok g) :
    g.Reached := by
  obtain ⟨placed, n, hFormed, rfl⟩ := exists_formed_of_build h
  exact ⟨_, placed, hFormed, rfl, wire_nodes placed⟩

section Walk

variable (g : ChangeGraph) (r : Revision) (name : String) (arity : Nat)

/-- The walk up from a type, as it goes on until it ends by itself. Types in `seen` were passed. It
is counted how often the walk looks at where it is, be it only to end there. -/
inductive Ascends : List String → Option String → Nat → List PooledEntity → Prop where
  | ended (seen : List String) : Ascends seen none 1 []
  | closed {seen : List String} {type : String} (hOver : type = "" ∨ type ∈ seen) :
      Ascends seen (some type) 1 []
  | found {seen : List String} {type : String} (hNew : ¬ (type = "" ∨ type ∈ seen))
      (hSome : g.pool.methodsNamed r type name arity ≠ []) :
      Ascends seen (some type) 1 (g.pool.methodsNamed r type name arity)
  | up {seen : List String} {type : String} {steps : Nat} {found : List PooledEntity}
      (hNew : ¬ (type = "" ∨ type ∈ seen)) (hNone : g.pool.methodsNamed r type name arity = [])
      (rest : Ascends (type :: seen) (g.superType? r type) steps found) :
      Ascends seen (some type) (steps + 1) found

variable (start : Option String)

/-- The type that lies a number of steps up, by what each type on the way extends. -/
def above? : Nat → Option String
  | 0 => start
  | k + 1 => (above? k).bind (g.superType? r)

/-- Whether none of the types so far declares a method with a name and a number of parameters. -/
def NoneBelow (k : Nat) : Prop :=
  ∀ j < k, ∀ t ∈ g.above? r start j, g.pool.methodsNamed r t name arity = []

/-- Whether a type is the first one on the way up that declares such a method. -/
structure FirstAbove (k : Nat) (type : String) : Prop where
  reached : g.above? r start k = some type
  declares : g.pool.methodsNamed r type name arity ≠ []
  below : g.NoneBelow r name arity start k

/-- Whether the way up ends, or comes back to where it was, and no type so far declares such a
method. -/
structure EndsBefore (k : Nat) : Prop where
  ended : g.above? r start k = none ∨ ∃ j < k, g.above? r start j = g.above? r start k
  below : g.NoneBelow r name arity start k

end Walk

/-- The names of the types that have nodes. -/
def typeNames (g : ChangeGraph) : List String :=
  (g.graph.nodes.filter (·.kind.isType)).filterMap (·.entityName?)

variable {g : ChangeGraph} {r : Revision} {name : String} {arity : Nat} {start : Option String}

theorem length_typeNames_le (g : ChangeGraph) :
    g.typeNames.length ≤ (g.graph.nodes.filter (·.kind.isType)).length :=
  List.length_filterMap_le ..

/-- What a name stands for always has a node. -/
theorem mem_typeNames_of_qualify? {u : Usage} {written type : String}
    (h : g.qualify? u written = some type) : type ∈ g.typeNames := by
  unfold qualify? at h
  split at h
  case h_2 => cases h
  case h_1 n hNode =>
    split at h
    case isFalse => cases h
    case isTrue hType =>
      obtain ⟨id, _, hFound⟩ := Option.bind_eq_some_iff.1 hNode
      have hn := (Graph.mem_of_node? hFound).1
      exact List.mem_filterMap.2 ⟨n, List.mem_filter.2 ⟨hn, hType⟩, h⟩

theorem mem_typeNames_of_superType? {type extended : String}
    (h : g.superType? r type = some extended) : extended ∈ g.typeNames := by
  obtain ⟨_, _, _, _, _, _, _, hQualifies⟩ := superType?_eq_some h
  exact mem_typeNames_of_qualify? hQualifies

theorem mem_typeNames_of_above? {k : Nat} {type : String} (hStart : ∀ t ∈ start, t ∈ g.typeNames)
    (h : g.above? r start k = some type) : type ∈ g.typeNames := by
  cases k with
  | zero => exact hStart type h
  | succ k =>
      obtain ⟨t, _, hSuper⟩ := Option.bind_eq_some_iff.1 h
      exact mem_typeNames_of_superType? hSuper

/-- A declared type has a name. -/
theorem IsDeclared.qualifiedName_ne {e : Entity} (h : IsDeclared e) (hType : e.kind.isType = true) :
    e.qualifiedName ≠ "" := by
  obtain ⟨content, path, unit, revision, fileIndex, hParse, he⟩ := h
  rcases List.mem_append.1 he with he | he
  · obtain ⟨t, _, rfl⟩ := List.mem_map.1 he
    cases hType
  · obtain ⟨p, hp, he⟩ := List.mem_flatMap.1 he
    rw [Java.Subject.eq_typeEntity_of_isType he hType]
    exact Java.SourceUnit.typeName_ne_empty hParse hp

/-- No type that has a node is without a name. -/
theorem Reached.ne_of_mem_typeNames (h : g.Reached) {type : String} (hType : type ∈ g.typeNames) :
    type ≠ "" := by
  obtain ⟨names, placed, hFormed, _, hNodes⟩ := h
  obtain ⟨n, hn, hName⟩ := List.mem_filterMap.1 hType
  obtain ⟨hn, hKind⟩ := List.mem_filter.1 hn
  rw [hNodes] at hn
  have hNotHunk : n.kind ≠ .hunk := by
    intro hHunk
    rw [hHunk] at hKind
    cases hKind
  obtain ⟨e, he, _, hLabel⟩ := hFormed.exists_entity hn hNotHunk
  have hScope : n.name = e.entity.revision.scope e.entity.qualifiedName := by
    rw [hLabel]
    rfl
  rw [Node.entityName?_of_scope hScope] at hName
  rw [← Option.some.inj hName]
  refine (hFormed.declared_of_mem he).qualifiedName_ne ?_
  rw [hLabel] at hKind
  exact hKind

/-- There are no more types with nodes than entities. -/
theorem Reached.length_typeNames_le (h : g.Reached) :
    g.typeNames.length ≤ g.pool.entities.length := by
  obtain ⟨names, placed, hFormed, hPool, hNodes⟩ := h
  have hTypes : (g.graph.nodes.filter (·.kind.isType)).length ≤ g.pool.entities.length := by
    rw [hPool, hNodes, ← hFormed.stands.length_eq]
    refine (List.monotone_filter_right _ fun n hType => ?_).length_le
    cases hKind : n.kind <;> simp_all [NodeKind.isType]
  exact Nat.le_trans g.length_typeNames_le hTypes

section Step

variable {fuel : Nat} {seen : List String} {type : String}

theorem methodsFrom_closed (hOver : type = "" ∨ type ∈ seen) :
    g.methodsFrom r name arity (fuel + 1) seen (some type) = [] := by
  rw [methodsFrom, if_pos (by simpa using hOver)]

theorem methodsFrom_found (hNew : ¬ (type = "" ∨ type ∈ seen))
    (hSome : g.pool.methodsNamed r type name arity ≠ []) :
    g.methodsFrom r name arity (fuel + 1) seen (some type) =
      g.pool.methodsNamed r type name arity := by
  rw [methodsFrom, if_neg (by simpa using hNew)]
  split
  case h_1 hNone => exact absurd hNone hSome
  case h_2 => rfl

theorem methodsFrom_up (hNew : ¬ (type = "" ∨ type ∈ seen))
    (hNone : g.pool.methodsNamed r type name arity = []) :
    g.methodsFrom r name arity (fuel + 1) seen (some type) =
      g.methodsFrom r name arity fuel (type :: seen) (g.superType? r type) := by
  rw [methodsFrom, if_neg (by simpa using hNew), hNone]

end Step

/-- With enough fuel the walk is one that ends by itself. The induction is on the fuel: each step
passes one more of the types that have nodes, and no type is passed twice. -/
theorem ascends_methodsFrom {fuel : Nat} {seen : List String} (hNodup : seen.Nodup)
    (hSeen : seen ⊆ g.typeNames) (hStart : ∀ t ∈ start, t ∈ g.typeNames)
    (hFuel : g.typeNames.length + 1 ≤ seen.length + fuel) :
    ∃ steps, seen.length + steps ≤ g.typeNames.length + 1 ∧
      g.Ascends r name arity seen start steps (g.methodsFrom r name arity fuel seen start) := by
  have hPassed : seen.length ≤ g.typeNames.length := (hNodup.subperm hSeen).length_le
  induction fuel generalizing seen start with
  | zero => omega
  | succ fuel ih =>
      cases start with
      | none => exact ⟨1, by omega, .ended seen⟩
      | some type =>
          by_cases hOver : type = "" ∨ type ∈ seen
          · rw [methodsFrom_closed hOver]
            exact ⟨1, by omega, .closed hOver⟩
          · by_cases hNone : g.pool.methodsNamed r type name arity = []
            · have hTypes : type :: seen ⊆ g.typeNames :=
                List.cons_subset.2 ⟨hStart type rfl, hSeen⟩
              have hNext : (type :: seen).Nodup :=
                List.nodup_cons.2 ⟨fun hMem => hOver (.inr hMem), hNodup⟩
              have hLength := (hNext.subperm hTypes).length_le
              rw [methodsFrom_up hOver hNone]
              have hUp : ∀ t ∈ g.superType? r type, t ∈ g.typeNames :=
                fun t ht => mem_typeNames_of_superType? ht
              obtain ⟨steps, hSteps, hRest⟩ := ih hNext hTypes hUp
                (by rw [List.length_cons]; omega) hLength
              rw [List.length_cons] at hSteps
              exact ⟨steps + 1, by omega, .up hOver hNone hRest⟩
            · rw [methodsFrom_found hOver hNone]
              exact ⟨1, by omega, .found hOver hNone⟩

section Outcome

theorem above?_succ (k : Nat) :
    g.above? r start (k + 1) = g.above? r (start.bind (g.superType? r)) k := by
  induction k with
  | zero => rfl
  | succ k ih => rw [above?, ih, above?]

/-- Once the way up has ended, there is nothing further up. -/
theorem above?_add_eq_none {k : Nat} (h : g.above? r start k = none) (n : Nat) :
    g.above? r start (k + n) = none := by
  induction n with
  | zero => exact h
  | succ n ih => rw [← Nat.add_assoc, above?, ih, Option.bind_none]

/-- Where the way up has come back to, it goes on as it did before. -/
theorem above?_add_congr {j k : Nat} (h : g.above? r start j = g.above? r start k) (n : Nat) :
    g.above? r start (j + n) = g.above? r start (k + n) := by
  induction n with
  | zero => exact h
  | succ n ih => rw [← Nat.add_assoc, ← Nat.add_assoc, above?, ih, above?]

theorem NoneBelow.up {type : String} (hNone : g.pool.methodsNamed r type name arity = []) {k : Nat}
    (h : g.NoneBelow r name arity (g.superType? r type) k) :
    g.NoneBelow r name arity (some type) (k + 1) := by
  intro j hj t ht
  cases j with
  | zero =>
      obtain rfl := Option.some.inj ht
      exact hNone
  | succ j =>
      rw [above?_succ, Option.bind_some] at ht
      exact h j (Nat.lt_of_succ_lt_succ hj) t ht

/-- The first type that declares a method is told by the way up alone. -/
theorem FirstAbove.unique {k k' : Nat} {type type' : String}
    (h : g.FirstAbove r name arity start k type) (h' : g.FirstAbove r name arity start k' type') :
    type = type' := by
  have hSame : k = k' := by
    by_contra hNe
    rcases Nat.lt_or_gt_of_ne hNe with hLt | hLt
    · exact h.declares (h'.below k hLt type h.reached)
    · exact h'.declares (h.below k' hLt type' h'.reached)
  rw [hSame] at h
  exact Option.some.inj (h.reached.symm.trans h'.reached)

/-- If the way up ends or closes before any type declares a method, none further up does. -/
theorem EndsBefore.not_firstAbove {k m : Nat} {type : String}
    (h : g.EndsBefore r name arity start m) : ¬ g.FirstAbove r name arity start k type := by
  intro hFirst
  have hLe : m ≤ k := by
    by_contra hNot
    exact hFirst.declares (h.below k (Nat.lt_of_not_le hNot) type hFirst.reached)
  rcases h.ended with hEnd | ⟨j, hj, hBack⟩
  · have hNone := above?_add_eq_none hEnd (k - m)
    rw [Nat.add_sub_cancel' hLe, hFirst.reached] at hNone
    cases hNone
  · -- the same type lies further down, where the way came by before
    have hSame := above?_add_congr hBack (k - m)
    rw [Nat.add_sub_cancel' hLe, hFirst.reached] at hSame
    exact hFirst.declares (hFirst.below _ (by omega) type hSame)

/-- What a walk finds, if it passed none of the types on the way up before: the methods of the first
type that declares any, or nothing because the way up ends or comes back to a type that was
passed. -/
theorem Ascends.outcome {seen : List String} {steps : Nat} {found : List PooledEntity}
    (h : g.Ascends r name arity seen start steps found)
    (hNamed : ∀ k, g.above? r start k ≠ some "") :
    (∃ k type, g.FirstAbove r name arity start k type ∧
      found = g.pool.methodsNamed r type name arity) ∨
    (found = [] ∧ ∃ k, g.NoneBelow r name arity start k ∧
      (g.above? r start k = none ∨ (∃ t ∈ seen, g.above? r start k = some t) ∨
        ∃ j < k, g.above? r start j = g.above? r start k)) := by
  have hZero {start : Option String} : g.NoneBelow r name arity start 0 :=
    fun j hj => absurd hj (Nat.not_lt_zero j)
  induction h with
  | ended seen => exact .inr ⟨rfl, 0, hZero, .inl rfl⟩
  | @closed seen type hOver =>
      rcases hOver with rfl | hMem
      · exact absurd rfl (hNamed 0)
      · exact .inr ⟨rfl, 0, hZero, .inr (.inl ⟨type, hMem, rfl⟩)⟩
  | @found seen type hNew hSome => exact .inl ⟨0, type, ⟨rfl, hSome, hZero⟩, rfl⟩
  | @up seen type steps found hNew hNone rest ih =>
      have hShift (k : Nat) : g.above? r (some type) (k + 1) =
          g.above? r (g.superType? r type) k := above?_succ k
      rcases ih fun k => by rw [← hShift]; exact hNamed (k + 1) with
        ⟨k, top, hFirst, hFound⟩ | ⟨hFound, k, hBelow, hOver⟩
      · exact .inl ⟨k + 1, top,
          ⟨(hShift k).trans hFirst.reached, hFirst.declares, hFirst.below.up hNone⟩, hFound⟩
      · refine .inr ⟨hFound, k + 1, hBelow.up hNone, ?_⟩
        rw [hShift]
        rcases hOver with hEnd | ⟨t, ht, hReached⟩ | ⟨j, hj, hBack⟩
        · exact .inl hEnd
        · rcases List.mem_cons.1 ht with rfl | ht
          · exact .inr (.inr ⟨0, Nat.succ_pos k, hReached.symm⟩)
          · exact .inr (.inl ⟨t, ht, hReached⟩)
        · exact .inr (.inr ⟨j + 1, Nat.succ_lt_succ hj, (hShift j).trans hBack⟩)

end Outcome

/-- In every state of the builder, the walk for the targets of a call looks at no more than one type
for each node of a type, and once more to end. It finds the methods of the first type on the way up
that declares any, and it finds none just if the way up ends or closes before there is such a
type. -/
theorem callTargets_nearest (h : g.Reached) (u : Usage) {c : CallRef} {owner : String}
    (hOwner : c.owner = some owner) :
    let start := g.qualify? u owner
    (∃ steps ≤ (g.graph.nodes.filter (·.kind.isType)).length + 1,
      g.Ascends u.revision c.name c.arity [] start steps (g.callTargets u c)) ∧
    (∀ k type, g.FirstAbove u.revision c.name c.arity start k type →
      g.callTargets u c = g.pool.methodsNamed u.revision type c.name c.arity) ∧
    (g.callTargets u c ≠ [] ↔ ∃ k type, g.FirstAbove u.revision c.name c.arity start k type) ∧
    (g.callTargets u c = [] ↔ ∃ k, g.EndsBefore u.revision c.name c.arity start k) := by
  intro start
  have hStart : ∀ t ∈ start, t ∈ g.typeNames := fun t ht => mem_typeNames_of_qualify? ht
  have hFuel :
      g.typeNames.length + 1 ≤ ([] : List String).length + (g.pool.entities.length + 2) := by
    have hLength := h.length_typeNames_le
    rw [List.length_nil]
    omega
  obtain ⟨steps, hSteps, hWalk⟩ : ∃ steps, ([] : List String).length + steps ≤
      g.typeNames.length + 1 ∧ g.Ascends u.revision c.name c.arity [] start steps
        (g.methodsFrom u.revision c.name c.arity (g.pool.entities.length + 2) [] start) :=
    ascends_methodsFrom List.nodup_nil (List.nil_subset _) hStart hFuel
  have hTargets : g.callTargets u c = g.methodsFrom u.revision c.name c.arity
      (g.pool.entities.length + 2) [] start := by
    rw [callTargets, hOwner]
  rw [hTargets]
  have hNamed (k : Nat) : g.above? u.revision start k ≠ some "" := fun hEmpty =>
    h.ne_of_mem_typeNames (mem_typeNames_of_above? hStart hEmpty) rfl
  refine ⟨⟨steps, ?_, hWalk⟩, ?_⟩
  · have hLength := g.length_typeNames_le
    rw [List.length_nil] at hSteps
    omega
  rcases hWalk.outcome hNamed with ⟨k, type, hFirst, hFound⟩ | ⟨hFound, k, hBelow, hOver⟩
  · rw [hFound]
    refine ⟨fun k' type' hFirst' => by rw [hFirst.unique hFirst'], ?_, ?_⟩
    · exact iff_of_true hFirst.declares ⟨k, type, hFirst⟩
    · refine iff_of_false hFirst.declares ?_
      rintro ⟨m, hEnds⟩
      exact hEnds.not_firstAbove hFirst
  · have hEnds : g.EndsBefore u.revision c.name c.arity start k := by
      refine ⟨hOver.imp_right fun hBack => hBack.resolve_left ?_, hBelow⟩
      rintro ⟨t, ht, _⟩
      cases ht
    rw [hFound]
    refine ⟨fun k' type' hFirst => absurd hFirst hEnds.not_firstAbove, ?_, ?_⟩
    · refine iff_of_false (fun hNot => hNot rfl) ?_
      rintro ⟨k', type', hFirst⟩
      exact hEnds.not_firstAbove hFirst
    · exact iff_of_true rfl ⟨k, hEnds⟩

/-- Three classes that extend each other in a circle. The first names the second one of its package,
the second one imports the third, and the third gives the full name of the first. -/
def extendsCircle : Folder := ⟨[
  (["current", "A.java"],
    Utf8.encode "package p;\nclass A extends B\x7b\nvoid f()\x7bg();h();\x7d\n\x7d"),
  (["current", "B.java"], Utf8.encode "package p;\nimport q.C;\nclass B extends C\x7b\x7d"),
  (["current", "C.java"],
    Utf8.encode "package q;\nclass C extends p.A\x7b\nvoid g()\x7b\x7d\n\x7d")]⟩

/-- A change of all three. -/
def circleChange : List FileChange := [
  { index := 0, currentPath := some "A.java"
    hunks := [{ index := 0, current := ⟨3, 3, ["void f()\x7bg();h();\x7d"]⟩ }] },
  { index := 1, currentPath := some "B.java"
    hunks := [{ index := 0, current := ⟨3, 3, ["class B extends C\x7b\x7d"]⟩ }] },
  { index := 2, currentPath := some "C.java"
    hunks := [{ index := 0, current := ⟨3, 3, ["void g()\x7b\x7d"]⟩ }] }]

/-- Of the two calls, one is found two classes up, and the other one is looked for in the whole
circle. -/
theorem callTargets_nearest_extendsCircle :
    ∃ g, build "" extendsCircle [] circleChange = .ok g ∧
      g.superType? .current "p.A" = some "p.B" ∧ g.superType? .current "p.B" = some "q.C" ∧
      g.superType? .current "q.C" = some "p.A" ∧
      (g.callTargets ⟨.current, 0, "p"⟩ ⟨some "A", "g", 0⟩).map (·.entity.key) =
        ["current:q.C.g()"] ∧
      (∃ k type, g.FirstAbove .current "g" 0 (g.qualify? ⟨.current, 0, "p"⟩ "A") k type) ∧
      ∃ k, g.EndsBefore .current "h" 0 (g.qualify? ⟨.current, 0, "p"⟩ "A") k := by
  have hTargets : ∃ g ∈ (build "" extendsCircle [] circleChange).toOption.toList,
      (g.superType? .current "p.A" = some "p.B" ∧ g.superType? .current "p.B" = some "q.C" ∧
        g.superType? .current "q.C" = some "p.A" ∧
        (g.callTargets ⟨.current, 0, "p"⟩ ⟨some "A", "g", 0⟩).map (·.entity.key) =
          ["current:q.C.g()"]) ∧
      (g.callTargets ⟨.current, 0, "p"⟩ ⟨some "A", "h", 0⟩).map (·.entity.key) = [] := by
    decide +kernel
  obtain ⟨g, hg, ⟨hA, hB, hC, hFound⟩, hNone⟩ := hTargets
  have hReached := reached_of_build (mem_toOption_iff.1 hg)
  obtain ⟨-, -, hFirst, -⟩ :=
    callTargets_nearest hReached ⟨.current, 0, "p"⟩ (c := ⟨some "A", "g", 0⟩) rfl
  obtain ⟨-, -, -, hEnds⟩ :=
    callTargets_nearest hReached ⟨.current, 0, "p"⟩ (c := ⟨some "A", "h", 0⟩) rfl
  refine ⟨g, mem_toOption_iff.1 hg, hA, hB, hC, hFound, hFirst.1 fun hEmpty => ?_,
    hEnds.1 (List.map_eq_nil_iff.1 hNone)⟩
  rw [hEmpty] at hFound
  cases hFound

end ChangeGraph

end ChangeSplit
