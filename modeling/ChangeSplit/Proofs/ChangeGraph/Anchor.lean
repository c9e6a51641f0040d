import ChangeSplit.ChangeGraph.Build
import ChangeSplit.Proofs.ChangeGraph.Build
import ChangeSplit.Proofs.ChangeGraph.Placement
import ChangeSplit.Proofs.ChangeGraph.Wiring
import ChangeSplit.Proofs.Java.Anchor
import ChangeSplit.Proofs.Java.Identity

/-! Placing a hunk never misses a declaration. Once a source was taken in there is a node for all
that its declarations declare, and nodes are never taken away. -/

namespace ChangeSplit

/-- A graph with more nodes and more marks than another has at least. -/
def Graph.Keeps (g g' : Graph) : Prop :=
  ∀ n ∈ g.nodes, ∃ m ∈ g'.nodes, m.toNodeLabel = n.toNodeLabel ∧ m.id = n.id

namespace Graph.Keeps

variable {g g' g'' : Graph}

theorem refl (g : Graph) : g.Keeps g := fun n hn => ⟨n, hn, rfl, rfl⟩

theorem trans (h : g.Keeps g') (h' : g'.Keeps g'') : g.Keeps g'' := by
  intro n hn
  obtain ⟨m, hm, hLabel, hId⟩ := h n hn
  obtain ⟨k, hk, hLabel', hId'⟩ := h' m hm
  exact ⟨k, hk, hLabel'.trans hLabel, hId'.trans hId⟩

theorem mark (g : Graph) (id : Nat) (hunk : String) : g.Keeps (g.mark id hunk) :=
  fun _ hn => exists_mem_mark hn id hunk

theorem addNode {label : NodeLabel} {n : Node} (h : g.addNode label = .ok (g', n)) :
    g.Keeps g' := by
  obtain ⟨_, _, rfl⟩ := addNode_eq_ok h
  exact fun m hm => ⟨m, List.mem_append_left _ hm, rfl, rfl⟩

theorem isSome_find? (h : g.Keeps g') {kind : NodeKind} {name : String}
    (hFound : (g.find? kind name).isSome = true) : (g'.find? kind name).isSome = true := by
  obtain ⟨n, hn, hTest⟩ := List.find?_isSome.1 hFound
  obtain ⟨m, hm, hLabel, _⟩ := h n hn
  apply List.find?_isSome.2
  refine ⟨m, hm, ?_⟩
  rw [hLabel]
  exact hTest

end Graph.Keeps

namespace ChangeGraph

open Java

variable {covered : List Place} {a : Place}

/-- Only what a covered place is put down to counts, and something counts if there is any. -/
theorem anchorsOf_cases (covered : List Place) :
    (∀ a ∈ anchorsOf covered, ∃ p ∈ covered, p.anchor? = some a) ∧
      (anchorsOf covered = [] → covered.filterMap Place.anchor? = []) := by
  have hFold : ∀ (places found : List Place),
      (∀ a ∈ places.foldl (fun found p =>
        if found.any (samePlace p) then found else found ++ [p]) found,
          a ∈ found ∨ a ∈ places) ∧
        (places.foldl (fun found p =>
          if found.any (samePlace p) then found else found ++ [p]) found = [] →
            found = [] ∧ places = []) := by
    intro places
    induction places with
    | nil => exact fun found => ⟨fun a ha => .inl ha, fun h => ⟨h, rfl⟩⟩
    | cons p places ih =>
        intro found
        rw [List.foldl_cons]
        obtain ⟨hMem, hNil⟩ := ih (if found.any (samePlace p) then found else found ++ [p])
        constructor
        · intro a ha
          rcases hMem a ha with ha | ha
          · split at ha
            case isTrue => exact .inl ha
            case isFalse =>
              rcases List.mem_append.1 ha with ha | ha
              · exact .inl ha
              · exact .inr (List.mem_cons.2 (.inl (List.mem_singleton.1 ha)))
          · exact .inr (List.mem_cons_of_mem _ ha)
        · intro h
          have hNone := (hNil h).1
          split at hNone
          case isTrue hAny =>
            rw [hNone] at hAny
            cases hAny
          case isFalse => simp at hNone
  obtain ⟨hMem, hNil⟩ := hFold (covered.filterMap Place.anchor?) []
  refine ⟨fun a ha => ?_, fun h => (hNil h).2⟩
  rcases hMem a ha with ha | ha
  · cases ha
  · exact List.mem_filterMap.1 ha

theorem exists_of_mem_anchorsOf (h : a ∈ anchorsOf covered) : ∃ p ∈ covered, p.anchor? = some a :=
  (anchorsOf_cases covered).1 a h

theorem anchorsOf_eq_nil_iff : anchorsOf covered = [] ↔ ∀ p ∈ covered, p.anchor? = none := by
  constructor
  · intro h
    exact List.filterMap_eq_nil_iff.1 ((anchorsOf_cases covered).2 h)
  · intro h
    rw [anchorsOf, List.filterMap_eq_nil_iff.2 h, List.foldl_nil]

/-- A hunk is put down to places of the source that it is placed on. -/
theorem mem_everything_of_mem_anchors {s : Subject} {h : Hunk} (ha : a ∈ anchors s h) :
    a ∈ s.unit.top.everything ∧ (a.node.isA .importDeclaration = true ∨
      a.kindIs Kind.isStatement = true ∨ a.isNamedMember = true) := by
  obtain ⟨p, hp, hAnchor⟩ := exists_of_mem_anchorsOf ha
  obtain ⟨hChain, hSort⟩ := Place.anchor?_eq_some hAnchor
  have hMem : p ∈ s.unit.top.everything := by
    unfold coveredBy at hp
    split at hp
    case isTrue => cases hp
    case isFalse =>
      split at hp
      case h_1 => cases hp
      case h_2 => exact SourceUnit.mem_everything_of_mem_covered hp
  exact ⟨Place.mem_everything_of_mem_chain rfl hMem hChain, hSort⟩

/-- Whether there is a node for all that the declarations of a source declare. -/
def HasNodes (s : Subject) (g : Graph) : Prop :=
  ∀ p ∈ s.unit.top.everything, p.isNamedMember = true → ∀ i ∈ s.identities p,
    (g.find? i.kind (s.revision.scope i.qualifiedName)).isSome = true

theorem HasNodes.mono {s : Subject} {g g' : Graph} (h : HasNodes s g) (hKeeps : g.Keeps g') :
    HasNodes s g' :=
  fun p hp hNamed i hi => hKeeps.isSome_find? (h p hp hNamed i hi)

section Source

variable {path : String} {g : ChangeGraph} {e : Entity} {es : List Entity}

theorem keeps_addEntity (path : String) (g : ChangeGraph) (e : Entity) :
    g.graph.Keeps (addEntity path g e).graph := by
  unfold addEntity
  split
  case h_1 => exact .refl _
  case h_2 graph n hAdd => exact .addNode hAdd

theorem keeps_foldl_addEntity (path : String) (es : List Entity) (g : ChangeGraph) :
    g.graph.Keeps (es.foldl (addEntity path) g).graph := by
  induction es generalizing g with
  | nil => exact .refl _
  | cons e es ih => exact (keeps_addEntity path g e).trans (ih _)

theorem isSome_find?_foldl_addEntity (path : String) (g : ChangeGraph) (he : e ∈ es) :
    ((es.foldl (addEntity path) g).graph.find? e.kind e.key).isSome = true := by
  induction es generalizing g with
  | nil => cases he
  | cons d es ih =>
      rcases List.mem_cons.1 he with rfl | he
      · apply (keeps_foldl_addEntity path es (addEntity path g e)).isSome_find?
        obtain ⟨n, hn, hKind, hName⟩ := exists_node_addEntity path g e
        exact List.find?_isSome.2 ⟨n, hn, by simp [hKind, hName]⟩
      · exact ih _ he

theorem hasNodes_addSource {s : Subject} (hReadable : s.unit.Readable) (g : ChangeGraph) :
    HasNodes s (g.addSource s).graph := by
  intro p hp hNamed i hi
  obtain ⟨e, he, rfl⟩ := Subject.exists_entity_of_mem_identities hReadable hp hNamed hi
  rw [← Subject.revision_of_mem_entities he]
  exact isSome_find?_foldl_addEntity s.unit.path g he

theorem keeps_addSource (g : ChangeGraph) (s : Subject) : g.graph.Keeps (g.addSource s).graph :=
  keeps_foldl_addEntity s.unit.path s.entities g

end Source

end ChangeGraph

/-- Whether a note tells of a declaration without a node. -/
def Note.isUnanchored : Note → Bool
  | unanchored .. => true
  | _ => false

namespace ChangeGraph

open Java

/-- What holds while the hunks of some sources are placed: every declaration has its nodes, and none
was missed. -/
structure Sure (subjects : List Subject) (g : ChangeGraph) : Prop where
  nodes : ∀ s ∈ subjects, HasNodes s g.graph
  notes : ∀ n ∈ g.notes, n.isUnanchored = false

variable {subjects : List Subject} {s : Subject} {p : Placing}

theorem Sure.keeps {g g' : ChangeGraph} (h : Sure subjects g) (hKeeps : g.graph.Keeps g'.graph)
    (hNotes : g'.notes = g.notes) : Sure subjects g' :=
  ⟨fun s hs => (h.nodes s hs).mono hKeeps, fun n hn => h.notes n (hNotes ▸ hn)⟩

namespace Placing

theorem sure_touch (h : Sure subjects p.result) (n : Node) : Sure subjects (p.touch n).result :=
  h.keeps (.mark _ _ _) rfl

theorem sure_onImport (h : Sure subjects p.result) (place : Place) :
    Sure subjects (p.onImport s place).result := by
  have hClaim : Sure subjects (p.claim s (importParts s.unit place.node).1).result :=
    h.keeps (.refl _) rfl
  rw [onImport_eq]
  dsimp only
  split
  case h_1 n _ => exact sure_touch hClaim n
  case h_2 => exact hClaim

theorem isSome_nodeFor? {g : Graph} {i : Identity} {r : Revision}
    (h : (g.find? i.kind (r.scope i.qualifiedName)).isSome = true) :
    (nodeFor? g r i).isSome = true := by
  obtain ⟨n, hn⟩ := Option.isSome_iff_exists.1 h
  simp [nodeFor?, hn]

theorem sure_onEntities (h : Sure subjects p.result) {identities : List Identity}
    (hNodes : ∀ i ∈ identities,
      (p.result.graph.find? i.kind (s.revision.scope i.qualifiedName)).isSome = true) :
    Sure subjects (p.onEntities s identities).result := by
  induction identities generalizing p with
  | nil => exact h
  | cons i rest ih =>
      obtain ⟨n, hn⟩ :=
        Option.isSome_iff_exists.1 (isSome_nodeFor? (hNodes i (List.mem_cons_self ..)))
      simp only [onEntities, hn]
      have hDefined : Sure subjects (p.define i.kind (n.entityName?.getD "")).result := h
      refine ih (sure_touch hDefined n) fun j hj => ?_
      exact (Graph.Keeps.mark _ _ _).isSome_find? (hNodes j (List.mem_cons_of_mem _ hj))

theorem sure_onAnchor (h : Sure subjects p.result) (hs : s ∈ subjects) {a : Place}
    (ha : a ∈ s.unit.top.everything) (hSort : a.node.isA .importDeclaration = true ∨
      a.kindIs Kind.isStatement = true ∨ a.isNamedMember = true) :
    Sure subjects (p.onAnchor s a).result := by
  unfold onAnchor
  split
  case isTrue => exact sure_onImport h a
  case isFalse hImport =>
    split
    case isTrue => exact h
    case isFalse hStatement =>
      have hNamed := (hSort.resolve_left hImport).resolve_left hStatement
      exact sure_onEntities h (h.nodes s hs a ha hNamed)

theorem sure_onOwn (h : Sure subjects p.result) {container : Option Node} {graph : Graph} {n : Node}
    {label : NodeLabel} (hAdd : p.result.graph.addNode label = .ok (graph, n)) :
    Sure subjects (p.onOwn container graph n).result := by
  have hAdded : Sure subjects { p.result with graph } := h.keeps (.addNode hAdd) rfl
  have hTouched := sure_touch (p := ⟨{ p.result with graph }, p.settled container⟩) hAdded n
  cases container with
  | none =>
      refine ⟨hTouched.nodes, fun m hm => ?_⟩
      rcases List.mem_append.1 hm with hm | hm
      · exact hTouched.notes m hm
      · rw [List.mem_singleton.1 hm]
        rfl
  | some c => exact hTouched.keeps (.refl _) rfl

end Placing

variable {g g' : ChangeGraph}

theorem sure_anchored (h : Sure subjects g) (hs : s ∈ subjects) (hunk : Hunk) :
    Sure subjects (anchored s g hunk).result := by
  refine List.foldlRecOn (motive := fun p : Placing => Sure subjects p.result) _ _ h ?_
  intro p hp a ha
  obtain ⟨hMem, hSort⟩ := mem_everything_of_mem_anchors ha
  exact Placing.sure_onAnchor hp hs hMem hSort

theorem sure_placeHunk (h : Sure subjects g) (hs : s ∈ subjects) {hunk : Hunk}
    (hPlace : placeHunk s g hunk = .ok g') : Sure subjects g' := by
  have hAnchored := sure_anchored h hs hunk
  rcases placeHunk_eq_ok hPlace with ⟨_, rfl⟩ | ⟨_, p, rfl, ⟨_, rfl⟩ | ⟨_, hAdd⟩⟩
  · exact h
  · exact hAnchored.keeps (.refl _) rfl
  · obtain ⟨graph, n, hNode, rfl⟩ := addHunkNode_eq_ok hAdd
    exact (Placing.sure_onOwn hAnchored hNode).keeps (.refl _) rfl

theorem notes_of_placeHunk_error (h : Sure subjects g) (hs : s ∈ subjects) {hunk : Hunk}
    {e : Blocked} (hPlace : placeHunk s g hunk = .error e) :
    ∀ n ∈ e.notes, n.isUnanchored = false := by
  rw [(addHunkNode_eq_error (placeHunk_eq_error hPlace).2.2).1]
  exact (sure_anchored h hs hunk).notes

section Build

variable {all : List (Subject × FileChange)} {e : Blocked}

theorem sure_placeAll (h : Sure (all.map (·.1)) g) (hPlace : placeAll all g = .ok g') :
    Sure (all.map (·.1)) g' :=
  placeAll_invariant h hPlace fun _ ht _ _ _ _ hg hStep =>
    sure_placeHunk hg (List.mem_map_of_mem ht) hStep

theorem notes_of_placeAll_error (h : Sure (all.map (·.1)) g) (hPlace : placeAll all g = .error e) :
    ∀ n ∈ e.notes, n.isUnanchored = false := by
  refine foldlM_error (fun e => ∀ n ∈ e.notes, n.isUnanchored = false) h hPlace
    (fun t ht g g' hg hStep => ?_) fun t ht g e hg hFail => ?_
  · exact foldlM_invariant hg hStep fun _ _ g g' hg hStep =>
      sure_placeHunk hg (List.mem_map_of_mem ht) hStep
  · exact foldlM_error (fun e => ∀ n ∈ e.notes, n.isUnanchored = false) hg hFail
      (fun _ _ g g' hg hStep => sure_placeHunk hg (List.mem_map_of_mem ht) hStep)
      fun _ _ g e hg hFail => notes_of_placeHunk_error hg (List.mem_map_of_mem ht) hFail

theorem notes_addEntity (path : String) (g : ChangeGraph) (e : Entity)
    (h : ∀ n ∈ g.notes, n.isUnanchored = false) :
    ∀ n ∈ (addEntity path g e).notes, n.isUnanchored = false := by
  unfold addEntity
  split
  case h_1 =>
    intro n hn
    rcases List.mem_append.1 hn with hn | hn
    · exact h n hn
    · rw [List.mem_singleton.1 hn]
      rfl
  case h_2 => exact h

/-- Once all sources were taken in, there is a node for all that their declarations declare. -/
theorem sure_foldl_addSource {subjects : List Subject}
    (hReadable : ∀ s ∈ subjects, s.unit.Readable) (h : ∀ n ∈ g.notes, n.isUnanchored = false) :
    Sure subjects (subjects.foldl addSource g) := by
  have hNotes (s : Subject) (g : ChangeGraph) (h : ∀ n ∈ g.notes, n.isUnanchored = false) :
      ∀ n ∈ (g.addSource s).notes, n.isUnanchored = false :=
    List.foldlRecOn (motive := fun g : ChangeGraph => ∀ n ∈ g.notes, n.isUnanchored = false) _ _ h
      fun g hg e _ => notes_addEntity s.unit.path g e hg
  have hKeeps (subjects : List Subject) (g : ChangeGraph) :
      g.graph.Keeps (subjects.foldl addSource g).graph :=
    List.foldlRecOn (motive := fun g' : ChangeGraph => g.graph.Keeps g'.graph) _ _ (.refl _)
      fun g' hg' s _ => hg'.trans (keeps_addSource g' s)
  induction subjects generalizing g with
  | nil => exact ⟨List.forall_mem_nil _, h⟩
  | cons s subjects ih =>
      have hRest := ih (fun t ht => hReadable t (List.mem_cons_of_mem _ ht)) (hNotes s g h)
      refine ⟨fun t ht => ?_, hRest.notes⟩
      rcases List.mem_cons.1 ht with rfl | ht
      · exact (hasNodes_addSource (hReadable t (List.mem_cons_self ..)) g).mono (hKeeps subjects _)
      · exact hRest.nodes t ht

theorem readable_of_mem_readable {folderPath : String} {sources : List ChangedSource}
    {t : Subject × FileChange} (h : t ∈ readable folderPath sources) : t.1.unit.Readable := by
  obtain ⟨source, _, hRead⟩ := List.mem_filterMap.1 h
  obtain ⟨subject, hSubject, rfl⟩ := Option.map_eq_some_iff.1 hRead
  unfold ChangedSource.subject at hSubject
  cases hParse : SourceUnit.parse source.content (source.shownPath folderPath) with
  | error e =>
      rw [hParse] at hSubject
      cases hSubject
  | ok unit =>
      rw [hParse] at hSubject
      cases hSubject
      exact SourceUnit.readable_of_parse hParse

/-- What there was to note when a graph was built, or when it could not be. -/
def notesOf : Except Fault ChangeGraph → List Note
  | .ok g => g.notes
  | .error e => e.notes

/-- No declaration that a hunk touches is without a node. -/
theorem notes_build (rootPath : String) (root : Folder) (path : List String)
    (files : List FileChange) :
    ∀ n ∈ notesOf (build rootPath root path files), n.isUnanchored = false := by
  rw [build_eq]
  have hAhead : ∀ n ∈ notesAhead rootPath root path files, n.isUnanchored = false := by
    intro n hn
    rcases List.mem_cons.1 hn with rfl | hn
    · rfl
    · obtain ⟨source, _, hSkipped⟩ := List.mem_filterMap.1 hn
      split at hSkipped
      case h_1 => cases hSkipped
      case h_2 =>
        cases hSkipped
        rfl
  have hDeclared : Sure ((subjectsIn rootPath root path files).map (·.1))
      (declared (subjectsIn rootPath root path files) (notesAhead rootPath root path files)) := by
    refine sure_foldl_addSource (fun s hs => ?_) hAhead
    obtain ⟨t, ht, rfl⟩ := List.mem_map.1 hs
    exact readable_of_mem_readable ht
  split
  case isFalse => exact List.forall_mem_nil _
  case isTrue =>
    split
    case h_1 e hError => exact notes_of_placeAll_error hDeclared hError
    case h_2 placed hPlaced =>
      intro n hn
      rcases List.mem_append.1 hn with hn | hn
      · exact (sure_placeAll hDeclared hPlaced).notes n hn
      · rw [List.mem_singleton.1 hn]
        rfl

end Build

/-- The declarations of a source that can be named are the same whichever way they are looked for,
and so are their names. -/
structure Agrees (s : Subject) : Prop where
  /-- Looking for types from above finds those found from below, in the order of the source. -/
  types : s.unit.types = s.unit.top.everything.filter fun p => p.isNamedMember && p.isType
  /-- The types and their own members are all declarations found from below, each of them once. -/
  members : (s.unit.types.flatMap Place.withOwnMembers).Perm
    (s.unit.top.everything.filter Place.isNamedMember)
  entities : ∀ p ∈ s.unit.top.everything, p.isNamedMember = true → ∀ i ∈ s.identities p,
    ∃ e ∈ s.entities, Identity.of e = i
  /-- Once the source was taken in, whatever declaration is reached from a place has its nodes. -/
  nodes : ∀ g : ChangeGraph, ∀ p ∈ s.unit.top.everything, ∀ d,
    (d ∈ p.enclosingMembers ∨ p.anchor? = some d ∧ d.node.isA .importDeclaration = false ∧
      d.kindIs Kind.isStatement = false) →
    ∀ i ∈ s.identities d,
      ((g.addSource s).graph.find? i.kind (s.revision.scope i.qualifiedName)).isSome = true

theorem agrees_of_readable (h : s.unit.Readable) : Agrees s where
  types := h.types_eq
  members := h.perm_types
  entities _ hp hNamed _ hi := Subject.exists_entity_of_mem_identities h hp hNamed hi
  nodes g p hp d hd i hi := by
    have hDeclaration : d ∈ p.chain ∧ d.isNamedMember = true := by
      rcases hd with hEncloses | ⟨hAnchor, hImport, hStatement⟩
      · exact Place.mem_chain_of_mem_enclosingMembers hEncloses
      · obtain ⟨hChain, hSort⟩ := Place.anchor?_eq_some hAnchor
        rw [hImport, hStatement] at hSort
        exact ⟨hChain, by simpa using hSort⟩
    have hMem := Place.mem_everything_of_mem_chain rfl hp hDeclaration.1
    exact hasNodes_addSource h g d hMem hDeclaration.2 i hi

/-- Looking up from a place and going down from the types of a source agree on its declarations and
on their names. So a hunk never touches a declaration for which there is no node. -/
theorem declarations_agree :
    (∀ source path unit r fileIndex, SourceUnit.parse source path = .ok unit →
      Agrees (.ofUnit unit r fileIndex)) ∧
    ∀ rootPath root path files, ∀ n ∈ notesOf (build rootPath root path files),
      n.isUnanchored = false := by
  constructor
  · intro source path unit r fileIndex hParse
    exact agrees_of_readable (SourceUnit.readable_of_parse hParse)
  · exact notes_build

/-- A class with a class in a method, which cannot be named, and an enumeration with a constant that
has a body of its own. -/
def nestedTypes : String :=
  "class A\x7bint x,y;void f()\x7bclass L\x7bint z;\x7d\x7denum E\x7bC\x7bint w;\x7d;int v;\x7d\x7d"

/-- Two types and four members of them can be named. -/
theorem declarations_agree_nestedTypes :
    ∃ unit, SourceUnit.parse (Utf8.encode nestedTypes) "A.java" = .ok unit ∧
      Agrees (.ofUnit unit .current 0) ∧
      unit.types.map (unit.typeName ·) = ["A", "A.E"] ∧
      (unit.top.everything.filter Place.isNamedMember).length = 6 := by
  have hUnit : ∃ unit ∈ (SourceUnit.parse (Utf8.encode nestedTypes) "A.java").toOption.toList,
      unit.types.map (unit.typeName ·) = ["A", "A.E"] ∧
        (unit.top.everything.filter Place.isNamedMember).length = 6 := by
    decide +kernel
  obtain ⟨unit, hUnit, hTypes, hCount⟩ := hUnit
  have hParse := mem_toOption_iff.1 hUnit
  exact ⟨unit, hParse, declarations_agree.1 _ _ _ _ _ hParse, hTypes, hCount⟩

end ChangeGraph

end ChangeSplit
