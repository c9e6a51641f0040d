import ChangeSplit.Proofs.ChangeGraph.Apart

/-! Names are looked up in one revision. Nothing that is known of the other revision is ever found,
so a name leads to the same node if only its own revision is known, but for the number. -/

namespace ChangeSplit

/-- The entity with its node under another number. -/
def PooledEntity.renumber (f : Nat → Nat) (e : PooledEntity) : PooledEntity :=
  { e with node := e.node.map f }

/-- The hunk with the nodes that it touched under other numbers. -/
def PooledHunk.renumber (f : Nat → Nat) (h : PooledHunk) : PooledHunk :=
  { h with node := h.node.map f, anchors := h.anchors.map f }

theorem PooledEntity.find?_renumber (f : Nat → Nat) (test : PooledEntity → Bool)
    (hTest : ∀ e, test (e.renumber f) = test e) (entities : List PooledEntity) :
    (entities.map (·.renumber f)).find? test = (entities.find? test).map (·.renumber f) := by
  have hSame : test ∘ (·.renumber f) = test := funext hTest
  rw [List.find?_map, hSame]

theorem PooledHunk.node_renumber (f : Nat → Nat) (h : PooledHunk) :
    (h.renumber f).node = h.node.map f := rfl

theorem PooledHunk.bind_node_renumber (f : Nat → Nat) (found : Option PooledHunk) :
    (found.map (·.renumber f)).bind (·.node) = (found.bind (·.node)).map f := by
  cases found with
  | none => rfl
  | some h => exact h.node_renumber f

theorem PooledHunk.findSome?_node_renumber (f : Nat → Nat) (test : String → Bool)
    (found : List (String × PooledHunk)) :
    (found.map fun e => (e.1, e.2.renumber f)).findSome?
        (fun e => if test e.1 then e.2.node else none) =
      (found.findSome? fun e => if test e.1 then e.2.node else none).map f := by
  rw [List.findSome?_map, List.map_findSome?]
  congr 1
  funext e
  by_cases hTest : test e.1 = true <;> simp [hTest, node_renumber]

namespace Pool

/-- The number of hunks of a revision before a place in a pool. -/
def rank (p : Pool) (r : Revision) (place : Nat) : Nat :=
  ((p.hunks.take place).filter (·.revision = r)).length

/-- What is known of one revision, with nodes under other numbers. -/
def part (p : Pool) (r : Revision) (f : Nat → Nat) : Pool where
  entities := (p.entities.filter (·.entity.revision = r)).map (·.renumber f)
  hunks := (p.hunks.filter (·.revision = r)).map (·.renumber f)
  importOwners := (p.importOwners.filter (·.revision = r)).map fun o =>
    { o with hunk := p.rank r o.hunk }

variable {p : Pool} {r : Revision} {f : Nat → Nat} {place : Nat}

theorem filter_entities_part (p : Pool) {test : PooledEntity → Bool}
    (hTest : ∀ e, test e = true → e.entity.revision = r)
    (hNode : ∀ e, test (e.renumber f) = test e) :
    (p.part r f).entities.filter test = (p.entities.filter test).map (·.renumber f) := by
  rw [part, List.filter_map, List.filter_filter]
  congr 1
  apply List.filter_congr
  intro e _
  show (test (e.renumber f) && decide (e.entity.revision = r)) = test e
  rw [hNode]
  cases hCase : test e with
  | false => rfl
  | true => simp [hTest _ hCase]

theorem find?_part (p : Pool) (kind : NodeKind) (r : Revision) (f : Nat → Nat) (name : String) :
    (p.part r f).find? kind r name = (p.find? kind r name).map (·.renumber f) := by
  rw [find?, find?, ← List.head?_filter, ← List.head?_filter, List.filter_reverse,
    List.filter_reverse, ← List.head?_map, List.map_reverse, filter_entities_part]
  · intro e he
    simp only [Bool.and_eq_true, decide_eq_true_eq] at he
    exact (Revision.scope_inj he.2).1
  · exact fun _ => rfl

theorem methodsNamed_part (p : Pool) (r : Revision) (f : Nat → Nat) (owner name : String)
    (arity : Nat) :
    (p.part r f).methodsNamed r owner name arity =
      (p.methodsNamed r owner name arity).map (·.renumber f) := by
  unfold methodsNamed
  split
  case isTrue => rfl
  case isFalse =>
    apply filter_entities_part
    · intro e he
      simp only [Bool.and_eq_true, decide_eq_true_eq] at he
      exact he.1.1.1.2
    · exact fun _ => rfl

theorem fileImports_part (p : Pool) (r : Revision) (f : Nat → Nat) (fileIndex : Int) :
    (p.part r f).fileImports r fileIndex = (p.fileImports r fileIndex).map (·.renumber f) := by
  unfold fileImports
  apply filter_entities_part
  · intro e he
    simp only [Bool.and_eq_true, decide_eq_true_eq] at he
    exact he.1.2
  · exact fun _ => rfl

theorem values_ofKind_part (p : Pool) (r : Revision) (f : Nat → Nat) (kind : NodeKind) :
    ((p.part r f).ofKind kind).values =
      ((p.ofKind kind).values.filter (·.entity.revision = r)).map (·.renumber f) := by
  have hTest : ∀ a b : PooledEntity, a.entity.key = b.entity.key →
      decide (a.entity.revision = r) = decide (b.entity.revision = r) := by
    intro a b hKey
    rw [(Revision.scope_inj hKey).1]
  have hFilter : (p.part r f).entities.filter (·.entity.kind = kind) =
      ((p.entities.filter (·.entity.kind = kind)).filter (·.entity.revision = r)).map
        (·.renumber f) := by
    rw [part, List.filter_map, List.filter_filter, List.filter_filter]
    congr 2
    funext e
    exact Bool.and_comm _ _
  rw [ofKind, ofKind, Table.filter_values_foldl_put hTest, hFilter,
    Table.foldl_put_map (PooledEntity.renumber f) (fun e => e.entity.key) _ fun _ => rfl,
    Table.values_map]

theorem values_hunkTable_part (p : Pool) (r : Revision) (f : Nat → Nat) :
    (p.part r f).hunkTable.values =
      (p.hunkTable.values.filter (·.revision = r)).map (·.renumber f) := by
  have hTest : ∀ a b : PooledHunk, a.key = b.key →
      decide (a.revision = r) = decide (b.revision = r) := by
    intro a b hKey
    rw [(Revision.scope_inj hKey).1]
  rw [hunkTable, hunkTable, Table.filter_values_foldl_put hTest]
  dsimp only [part]
  rw [Table.foldl_put_map (PooledHunk.renumber f) PooledHunk.key _ fun _ => rfl,
    Table.values_map]

/-- A hunk of the revision stands in the part at its rank. -/
theorem getElem?_hunks_part (f : Nat → Nat) {h : PooledHunk} (hHunk : p.hunks[place]? = some h)
    (hr : h.revision = r) : (p.part r f).hunks[p.rank r place]? = some (h.renumber f) := by
  have hFilter (hunks : List PooledHunk) (place : Nat) (hHunk : hunks[place]? = some h) :
      (hunks.filter (·.revision = r))[((hunks.take place).filter (·.revision = r)).length]? =
        some h := by
    induction hunks generalizing place with
    | nil => cases hHunk
    | cons first rest ih =>
        cases place with
        | zero =>
            cases hHunk
            simp [hr]
        | succ place =>
            have hRest := ih place hHunk
            by_cases hFirst : first.revision = r <;> simpa [hFirst] using hRest
  rw [part, List.getElem?_map, rank, hFilter _ _ hHunk]
  rfl

theorem Owned.getElem?_part (h : p.Owned) (f : Nat → Nat) {o : ImportOwner}
    (ho : o ∈ p.importOwners) (hr : o.revision = r) :
    (p.part r f).hunks[p.rank r o.hunk]? = (p.hunks[o.hunk]?).map (·.renumber f) := by
  obtain ⟨hunk, hHunk, hSame⟩ := h o ho
  rw [getElem?_hunks_part f hHunk (hSame.trans hr), hHunk]
  rfl

theorem filter_importOwners_part (p : Pool) (f : Nat → Nat) {test : ImportOwner → Bool}
    (hTest : ∀ o, test o = true → o.revision = r)
    (hHunk : ∀ (o : ImportOwner) k, test { o with hunk := k } = test o) :
    (p.part r f).importOwners.filter test =
      (p.importOwners.filter test).map fun o => { o with hunk := p.rank r o.hunk } := by
  rw [part, List.filter_map, List.filter_filter]
  congr 1
  apply List.filter_congr
  intro o _
  show (test { o with hunk := p.rank r o.hunk } && decide (o.revision = r)) = test o
  rw [hHunk]
  cases hCase : test o with
  | false => rfl
  | true => simp [hTest _ hCase]

theorem Owned.importingHunk?_part (h : p.Owned) (r : Revision) (f : Nat → Nat) (name : String) :
    (p.part r f).importingHunk? r name = (p.importingHunk? r name).map (·.renumber f) := by
  have hOwner : (p.part r f).importOwners.reverse.find?
      (fun o => decide (o.revision = r) && decide (o.imported = name)) =
      (p.importOwners.reverse.find?
        fun o => decide (o.revision = r) && decide (o.imported = name)).map
          fun o => { o with hunk := p.rank r o.hunk } := by
    rw [← List.head?_filter, ← List.head?_filter, List.filter_reverse, List.filter_reverse,
      ← List.head?_map, List.map_reverse, filter_importOwners_part]
    · intro o ho
      simp only [Bool.and_eq_true, decide_eq_true_eq] at ho
      exact ho.1
    · exact fun _ _ => rfl
  rw [importingHunk?, importingHunk?, hOwner]
  cases hFound : p.importOwners.reverse.find?
      fun o => decide (o.revision = r) && decide (o.imported = name) with
  | none => rfl
  | some o =>
      have hTest := List.find?_some hFound
      simp only [Bool.and_eq_true, decide_eq_true_eq] at hTest
      exact h.getElem?_part f (List.mem_reverse.1 (List.mem_of_find?_eq_some hFound)) hTest.1

/-- The hunks of imported names under these names. -/
def underNames (p : Pool) (owners : List ImportOwner) (t : Table String PooledHunk) :
    Table String PooledHunk :=
  owners.foldl (fun t o =>
    match p.hunks[o.hunk]? with
    | some h => t.put o.imported h
    | none => t) t

theorem Owned.underNames_part (h : p.Owned) (f : Nat → Nat) {owners : List ImportOwner}
    (hOwners : ∀ o ∈ owners, o ∈ p.importOwners ∧ o.revision = r) (t : Table String PooledHunk) :
    (p.part r f).underNames (owners.map fun o => { o with hunk := p.rank r o.hunk })
      (t.map (·.renumber f)) = (p.underNames owners t).map (·.renumber f) := by
  induction owners generalizing t with
  | nil => rfl
  | cons o rest ih =>
      obtain ⟨ho, hr⟩ := hOwners o (List.mem_cons_self ..)
      have hRest := ih fun o ho => hOwners o (List.mem_cons_of_mem _ ho)
      rw [List.map_cons, underNames, List.foldl_cons, underNames, List.foldl_cons]
      dsimp only
      rw [h.getElem?_part f ho hr]
      cases p.hunks[o.hunk]? with
      | none => exact hRest t
      | some hunk =>
          dsimp only [Option.map_some]
          rw [← Table.map_put]
          exact hRest _

theorem Owned.fileImportingHunks_part (h : p.Owned) (r : Revision) (f : Nat → Nat)
    (fileIndex : Int) :
    (p.part r f).fileImportingHunks r fileIndex =
      (p.fileImportingHunks r fileIndex).map fun e => (e.1, e.2.renumber f) := by
  have hOwn : (p.part r f).importOwners.filter
      (fun o => decide (o.revision = r) && decide (o.fileIndex = fileIndex)) =
      (p.importOwners.filter fun o =>
        decide (o.revision = r) && decide (o.fileIndex = fileIndex)).map
          fun o => { o with hunk := p.rank r o.hunk } := by
    rw [filter_importOwners_part]
    · intro o ho
      simp only [Bool.and_eq_true, decide_eq_true_eq] at ho
      exact ho.1
    · exact fun _ _ => rfl
  have hOwners : ∀ o ∈ p.importOwners.filter
      (fun o => decide (o.revision = r) && decide (o.fileIndex = fileIndex)),
      o ∈ p.importOwners ∧ o.revision = r := by
    intro o ho
    obtain ⟨ho, hTest⟩ := List.mem_filter.1 ho
    simp only [Bool.and_eq_true, decide_eq_true_eq] at hTest
    exact ⟨ho, hTest.1⟩
  have hTable := h.underNames_part f hOwners {}
  rw [← hOwn] at hTable
  have hEntries := congrArg Table.entries hTable
  show sortBy _ ((p.part r f).underNames _ {}).entries =
    (sortBy _ (p.underNames _ {}).entries).map _
  exact (congrArg _ hEntries).trans (sortBy_map (fun _ _ => rfl) _)

end Pool

namespace ChangeGraph

/-- Whether a graph of a change is the part of another one that belongs to a revision. What there
was to note does not count. -/
structure IsPart (r : Revision) (g h : ChangeGraph) : Prop where
  graph : h.graph = g.graph.part r
  pool : h.pool = g.pool.part r (g.graph.rank r)

variable {g h : ChangeGraph} {r : Revision} {u : Usage}

theorem Apart.mem_numbers_of_hunk (hApart : Apart g) {hunk : PooledHunk} {id : Nat}
    (hHunk : hunk ∈ g.pool.hunks) (hNode : hunk.node = some id) :
    id ∈ g.graph.numbers hunk.revision :=
  (hApart.hunks hunk hHunk).mem_of_node hNode

/-- Names of types lead to nodes of the revision in which they are used. -/
theorem Apart.mem_numbers_of_typeNodeId? (hApart : Apart g) {name : String} {id : Nat}
    (hFound : g.typeNodeId? u name = some id) : id ∈ g.graph.numbers u.revision := by
  rcases typeNodeId?_cases hFound with ⟨type, e, hDeclared, hNode, _⟩ | ⟨e, he, hNode⟩ |
    ⟨_, o, ho, hr, _, hunk, hHunk, hNode⟩
  · obtain ⟨he, _, hr, _⟩ := declaredType?_eq_some hDeclared
    rw [← hr]
    exact hApart.entities e he id hNode
  · obtain ⟨he, hTest⟩ := List.mem_filter.1 he
    simp only [Bool.and_eq_true, decide_eq_true_eq] at hTest
    rw [← hTest.1.2]
    exact hApart.entities e he id hNode
  · obtain ⟨hunk', hHunk', hSame⟩ := hApart.owned o ho
    rw [hHunk] at hHunk'
    cases hHunk'
    rw [← hr, ← hSame]
    exact hApart.mem_numbers_of_hunk (List.mem_of_getElem? hHunk) hNode

namespace IsPart

theorem find?_pool (hPart : IsPart r g h) (kind : NodeKind) (name : String) :
    h.pool.find? kind r name = (g.pool.find? kind r name).map (·.renumber (g.graph.rank r)) := by
  rw [hPart.pool, Pool.find?_part]

theorem declaredType? (hPart : IsPart r g h) (name : String) :
    h.declaredType? r name = (g.declaredType? r name).map (·.renumber (g.graph.rank r)) := by
  rw [ChangeGraph.declaredType?, hPart.find?_pool, hPart.find?_pool, ChangeGraph.declaredType?]
  cases g.pool.find? .classType r name <;> rfl

theorem typeNodeId? (hPart : IsPart u.revision g h) (hApart : Apart g) (name : String) :
    h.typeNodeId? u name = (g.typeNodeId? u name).map (g.graph.rank u.revision) := by
  unfold ChangeGraph.typeNodeId?
  dsimp only
  rw [hPart.declaredType?, hPart.declaredType?, hPart.pool, hApart.owned.importingHunk?_part,
    Pool.fileImports_part, hApart.owned.fileImportingHunks_part, PooledHunk.bind_node_renumber,
    PooledHunk.findSome?_node_renumber _ (·.endsWith ("." ++ name)),
    PooledEntity.find?_renumber _ (·.entity.name = name) fun _ => rfl,
    PooledEntity.find?_renumber _ (·.entity.name.endsWith ("." ++ name)) fun _ => rfl]
  -- whatever stops the search in the graph stops it in the part
  cases g.declaredType? u.revision name with
  | some e => rfl
  | none =>
  cases (g.pool.importingHunk? u.revision name).bind (·.node) with
  | some id => rfl
  | none =>
  cases (g.pool.fileImports u.revision u.fileIndex).find? (·.entity.name = name) with
  | some e => rfl
  | none =>
  generalize (decide (u.package ≠ "") && !name.toList.contains '.') = plain
  have hNeighbor (found : Option PooledEntity) :
      (if plain then found.map (·.renumber (g.graph.rank u.revision)) else none) =
        (if plain then found else none).map (·.renumber (g.graph.rank u.revision)) := by
    cases plain <;> rfl
  dsimp only [Option.map_none]
  rw [hNeighbor]
  cases (if plain then g.declaredType? u.revision (u.package ++ "." ++ name) else none) with
  | some e => rfl
  | none =>
  cases (g.pool.fileImportingHunks u.revision u.fileIndex).findSome?
      fun e => if e.1.endsWith ("." ++ name) then e.2.node else none with
  | some id => rfl
  | none =>
  cases (g.pool.fileImports u.revision u.fileIndex).find?
    (·.entity.name.endsWith ("." ++ name)) <;> rfl

theorem typeNode? (hPart : IsPart u.revision g h) (hApart : Apart g) (name : String) :
    h.typeNode? u name = (g.typeNode? u name).map (·.renumber (g.graph.rank u.revision)) := by
  rw [ChangeGraph.typeNode?, hPart.typeNodeId? hApart, ChangeGraph.typeNode?, hPart.graph]
  cases hFound : g.typeNodeId? u name with
  | none => rfl
  | some id => exact hApart.built.node?_part (hApart.mem_numbers_of_typeNodeId? hFound)

theorem qualify? (hPart : IsPart u.revision g h) (hApart : Apart g) (name : String) :
    h.qualify? u name = g.qualify? u name := by
  rw [ChangeGraph.qualify?, hPart.typeNode? hApart, ChangeGraph.qualify?]
  cases g.typeNode? u name <;> rfl

theorem superType? (hPart : IsPart r g h) (hApart : Apart g) (name : String) :
    h.superType? r name = g.superType? r name := by
  rw [ChangeGraph.superType?, hPart.find?_pool, ChangeGraph.superType?]
  cases hFound : g.pool.find? .classType r name with
  | none => rfl
  | some e =>
      obtain ⟨_, _, rfl, _⟩ := find?_eq_some hFound
      have hQualify (superClass : String) :
          h.qualify? e.entity.usage superClass = g.qualify? e.entity.usage superClass :=
        IsPart.qualify? (u := e.entity.usage) hPart hApart superClass
      simp only [Option.map_some, Option.bind_some, PooledEntity.renumber, hQualify]

theorem methodsFrom (hPart : IsPart r g h) (hApart : Apart g) (name : String) (arity fuel : Nat)
    (seen : List String) (type : Option String) :
    h.methodsFrom r name arity fuel seen type =
      (g.methodsFrom r name arity fuel seen type).map (·.renumber (g.graph.rank r)) := by
  induction fuel generalizing seen type with
  | zero => rfl
  | succ fuel ih =>
      cases type with
      | none => rfl
      | some type =>
          rw [ChangeGraph.methodsFrom, hPart.pool, Pool.methodsNamed_part, hPart.superType? hApart,
            ih, ChangeGraph.methodsFrom]
          split
          case isTrue => rfl
          case isFalse => cases g.pool.methodsNamed r type name arity <;> rfl

end IsPart

/-- The number of entities of a revision that were not passed on the way up. -/
def ahead (g : ChangeGraph) (r : Revision) (seen : List String) : Nat :=
  (g.pool.entities.filter fun e =>
    e.entity.revision = r && !seen.contains e.entity.qualifiedName).length

theorem ahead_lt {seen : List String} {type superType : String}
    (hSuper : g.superType? r type = some superType) (hNew : seen.contains type = false) :
    g.ahead r (type :: seen) < g.ahead r seen := by
  obtain ⟨e, hFound, _⟩ := Option.bind_eq_some_iff.1 hSuper
  obtain ⟨he, _, hr, hName⟩ := find?_eq_some hFound
  have hFilter : g.ahead r (type :: seen) = ((g.pool.entities.filter fun e =>
      e.entity.revision = r && !seen.contains e.entity.qualifiedName).filter fun e =>
        e.entity.qualifiedName ≠ type).length := by
    rw [ahead, List.filter_filter]
    congr 2
    funext e
    by_cases hType : e.entity.qualifiedName = type <;> simp [hType]
  rw [hFilter, ahead, List.length_filter_lt_length_iff_exists]
  have hAhead : type ∉ seen := by simpa using hNew
  exact ⟨e, List.mem_filter.2 ⟨he, by simp [hr, hName, hAhead]⟩, by simp [hName]⟩

/-- More steps than there are entities ahead make no difference on the way up. -/
theorem methodsFrom_succ (name : String) (arity fuel : Nat) (seen : List String)
    (type : Option String) (hFuel : g.ahead r seen < fuel) :
    g.methodsFrom r name arity (fuel + 1) seen type =
      g.methodsFrom r name arity fuel seen type := by
  induction fuel generalizing seen type with
  | zero => omega
  | succ fuel ih =>
      cases type with
      | none => rfl
      | some type =>
          rw [methodsFrom, methodsFrom]
          split
          case isTrue => rfl
          case isFalse hNew =>
            simp only [Bool.or_eq_true, decide_eq_true_eq, not_or, Bool.not_eq_true] at hNew
            cases g.pool.methodsNamed r type name arity with
            | cons m rest => rfl
            | nil =>
                cases hSuper : g.superType? r type with
                | none => cases fuel <;> rfl
                | some superType =>
                    have hLess := ahead_lt hSuper hNew.2
                    exact ih (type :: seen) _ (by omega)

theorem methodsFrom_of_lt {name : String} {arity fuel fuel' : Nat} {type : Option String}
    (hFuel : g.ahead r [] < fuel) (hLe : fuel ≤ fuel') :
    g.methodsFrom r name arity fuel' [] type = g.methodsFrom r name arity fuel [] type := by
  induction hLe with
  | refl => rfl
  | step hLe ih => exact (methodsFrom_succ name arity _ [] type (hFuel.trans_le hLe)).trans ih

namespace IsPart

theorem callTargets (hPart : IsPart u.revision g h) (hApart : Apart g) (c : CallRef) :
    h.callTargets u c = (g.callTargets u c).map (·.renumber (g.graph.rank u.revision)) := by
  unfold ChangeGraph.callTargets
  cases c.owner with
  | none => rfl
  | some owner =>
      -- the part knows of fewer entities, but of all that the way up can lead through
      have hAhead : g.ahead u.revision [] = h.pool.entities.length := by
        simp [ahead, hPart.pool, Pool.part]
      have hLength : h.pool.entities.length ≤ g.pool.entities.length := by
        rw [← hAhead]
        exact List.length_filter_le _ _
      dsimp only
      rw [hPart.qualify? hApart, hPart.methodsFrom hApart]
      congr 1
      exact (methodsFrom_of_lt (by omega) (by omega)).symm

theorem usedField? (hPart : IsPart u.revision g h) (hApart : Apart g) (use : String) :
    h.usedField? u use = (g.usedField? u use).map (·.renumber (g.graph.rank u.revision)) := by
  simp only [ChangeGraph.usedField?, hPart.qualify? hApart, hPart.find?_pool]

end IsPart

end ChangeGraph

end ChangeSplit
