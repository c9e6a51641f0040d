import ChangeSplit.Proofs.ChangeGraph.Placement
import ChangeSplit.Proofs.Collection.Traversal

/-! Notes are only ever written. What becomes of the graph and of the pool does not depend on what
there was to note before. -/

namespace ChangeSplit.ChangeGraph

open Java

/-- Whether two graphs of a change differ in their notes only. -/
def Alike (g h : ChangeGraph) : Prop := ∃ notes, h = { g with notes }

variable {g h : ChangeGraph} {s : Subject}

namespace Alike

theorem graph (hAlike : Alike g h) : h.graph = g.graph := by
  obtain ⟨_, rfl⟩ := hAlike
  rfl

theorem pool (hAlike : Alike g h) : h.pool = g.pool := by
  obtain ⟨_, rfl⟩ := hAlike
  rfl

theorem addEntity (hAlike : Alike g h) (path : String) (e : Entity) :
    Alike (addEntity path g e) (addEntity path h e) := by
  obtain ⟨notes, rfl⟩ := hAlike
  unfold ChangeGraph.addEntity
  cases g.graph.addNode (labelOf e) with
  | error d => exact ⟨_, rfl⟩
  | ok added => exact ⟨_, rfl⟩

theorem addSource (hAlike : Alike g h) (s : Subject) : Alike (g.addSource s) (h.addSource s) := by
  unfold ChangeGraph.addSource
  generalize s.entities = entities
  induction entities generalizing g h with
  | nil => exact hAlike
  | cons e rest ih => exact ih (hAlike.addEntity s.unit.path e)

theorem declared (subjects : List (Subject × FileChange)) (notes notes' : List Note) :
    Alike (declared subjects notes) (declared subjects notes') := by
  unfold ChangeGraph.declared
  generalize subjects.map (·.1) = sources
  have hStart : Alike { notes } { notes := notes' } := ⟨_, rfl⟩
  generalize ({ notes } : ChangeGraph) = g at hStart ⊢
  generalize ({ notes := notes' } : ChangeGraph) = h at hStart ⊢
  induction sources generalizing g h with
  | nil => exact hStart
  | cons s rest ih => exact ih _ _ (hStart.addSource s)

end Alike

/-- Whether two graphs with the same hunk being placed on them differ in their notes only. -/
def Placing.Alike (p q : Placing) : Prop :=
  ∃ notes, q = { p with result := { p.result with notes } }

namespace Placing.Alike

variable {p q : Placing}

theorem onImport (hAlike : p.Alike q) (place : Place) :
    (p.onImport s place).Alike (q.onImport s place) := by
  obtain ⟨notes, rfl⟩ := hAlike
  rw [onImport_eq, onImport_eq]
  dsimp only
  have hGraph (imported : String) : (Placing.claim { p with result := { p.result with notes } } s
      imported).result.graph = (p.claim s imported).result.graph := rfl
  rw [hGraph]
  split
  case h_1 n hFound => exact ⟨notes, rfl⟩
  case h_2 => exact ⟨notes, rfl⟩

theorem onEntities (hAlike : p.Alike q) (identities : List Identity) :
    (p.onEntities s identities).Alike (q.onEntities s identities) := by
  induction identities generalizing p q with
  | nil => exact hAlike
  | cons i rest ih =>
      obtain ⟨notes, rfl⟩ := hAlike
      unfold Placing.onEntities
      cases nodeFor? p.result.graph s.revision i with
      | none => exact ⟨_, rfl⟩
      | some n => exact ih ⟨notes, rfl⟩

theorem onAnchor (hAlike : p.Alike q) (place : Place) :
    (p.onAnchor s place).Alike (q.onAnchor s place) := by
  unfold Placing.onAnchor
  split
  case isTrue => exact hAlike.onImport place
  case isFalse =>
    split
    case isTrue =>
      obtain ⟨notes, rfl⟩ := hAlike
      exact ⟨notes, rfl⟩
    case isFalse => exact hAlike.onEntities _

theorem finish (hAlike : p.Alike q) : p.finish.Alike q.finish := by
  obtain ⟨notes, rfl⟩ := hAlike
  exact ⟨notes, rfl⟩

theorem onOwn (hAlike : p.Alike q) (container : Option Node) (graph : Graph) (n : Node) :
    (p.onOwn container graph n).Alike (q.onOwn container graph n) := by
  obtain ⟨notes, rfl⟩ := hAlike
  cases container with
  | none => exact ⟨_, rfl⟩
  | some c => exact ⟨notes, rfl⟩

theorem addHunkNode (hAlike : p.Alike q) {places : List Place} {p' : Placing}
    (hAdd : addHunkNode s places p = .ok p') :
    ∃ q', addHunkNode s places q = .ok q' ∧ p'.Alike q' := by
  obtain ⟨graph, n, hNode, rfl⟩ := addHunkNode_eq_ok hAdd
  have hOwn := hAlike.onOwn (containerFor? s p.result.graph places) graph n
  obtain ⟨notes, rfl⟩ := hAlike
  exact ⟨_, addHunkNode_of_addNode hNode, hOwn⟩

end Placing.Alike

theorem Alike.anchored (hAlike : Alike g h) (s : Subject) (hunk : Hunk) :
    (anchored s g hunk).Alike (anchored s h hunk) := by
  have hStart : Placing.Alike ⟨g, pooled s hunk⟩ ⟨h, pooled s hunk⟩ := by
    obtain ⟨notes, rfl⟩ := hAlike
    exact ⟨notes, rfl⟩
  unfold ChangeGraph.anchored
  generalize (⟨g, pooled s hunk⟩ : Placing) = p at hStart ⊢
  generalize (⟨h, pooled s hunk⟩ : Placing) = q at hStart ⊢
  generalize anchors s hunk = places
  induction places generalizing p q with
  | nil => exact hStart
  | cons place rest ih => exact ih _ _ (hStart.onAnchor place)

/-- A hunk that can be placed can be placed whatever there was to note. -/
theorem Alike.placeHunk (hAlike : Alike g h) {hunk : Hunk} {g' : ChangeGraph}
    (hPlace : placeHunk s g hunk = .ok g') : ∃ h', placeHunk s h hunk = .ok h' ∧ Alike g' h' := by
  have hAnchored := hAlike.anchored s hunk
  rcases placeHunk_eq_ok hPlace with ⟨hNil, rfl⟩ | ⟨hNe, p, rfl, ⟨hTaken, rfl⟩ | ⟨hNone, hAdd⟩⟩
  · exact ⟨h, placeHunk_of_nil hNil h, hAlike⟩
  · refine ⟨_, ?_, hAnchored.finish⟩
    obtain ⟨notes, hSame⟩ := hAnchored
    rw [placeHunk_of_ne_nil hNe, hSame, if_neg (by simpa using hTaken)]
  · obtain ⟨q, hAdd', hOwn⟩ := hAnchored.addHunkNode hAdd
    refine ⟨_, ?_, hOwn.finish⟩
    obtain ⟨notes, hSame⟩ := hAnchored
    rw [placeHunk_of_ne_nil hNe, hAdd', hSame, if_pos (by simpa using hNone)]
    rfl

theorem Alike.placeAll {subjects : List (Subject × FileChange)} (hAlike : Alike g h)
    {g' : ChangeGraph} (hPlace : placeAll subjects g = .ok g') :
    ∃ h', placeAll subjects h = .ok h' ∧ Alike g' h' := by
  refine foldlM_follow hAlike hPlace fun t _ g g' h hg hHunks => ?_
  exact foldlM_follow hg hHunks fun hunk _ g g' h hg hStep => hg.placeHunk hStep

section Wire

variable (g) (notes : List Note)

theorem methodsFrom_notes (r : Revision) (name : String) (arity fuel : Nat) (seen : List String)
    (type : Option String) :
    methodsFrom { g with notes } r name arity fuel seen type =
      g.methodsFrom r name arity fuel seen type := by
  induction fuel generalizing seen type with
  | zero => rfl
  | succ fuel ih =>
      cases type with
      | none => rfl
      | some type =>
          rw [methodsFrom, methodsFrom, ih]
          rfl

theorem callLinks_notes (source : Nat) (u : Usage) (f : Facts) :
    callLinks { g with notes } source u f = g.callLinks source u f := by
  have hTargets (c : CallRef) : callTargets { g with notes } u c = g.callTargets u c := by
    unfold callTargets
    cases c.owner with
    | none => rfl
    | some owner => exact methodsFrom_notes g notes _ _ _ _ _ _
  unfold callLinks
  simp only [hTargets]

theorem links_notes : links { g with notes } = g.links := by
  have hEntity : entityLinks { g with notes } = g.entityLinks := by
    funext e
    unfold entityLinks
    simp only [callLinks_notes]
    rfl
  have hHunk : hunkLinks { g with notes } = g.hunkLinks := by
    funext h
    unfold hunkLinks
    simp only [callLinks_notes]
    rfl
  unfold links
  rw [hEntity, hHunk]

end Wire

theorem Alike.wire (hAlike : Alike g h) : g.wire.Alike h.wire := by
  obtain ⟨notes, rfl⟩ := hAlike
  refine ⟨notes, ?_⟩
  unfold ChangeGraph.wire
  rw [links_notes]

end ChangeSplit.ChangeGraph
