import ChangeSplit.Proofs.Graph.Search
import Mathlib.Data.List.Induction

/-! A graph as it is drawn by one operation after another, with nodes among them that are refused.
Whatever the order, names, numbers, marks and the lists of edges agree with each other, and all of
them can be read off the operations. A node that is refused leaves no trace, also not in the numbers
that come later. -/

namespace ChangeSplit

namespace Node

@[simp] theorem id_mark (n : Node) (hunk : String) : (n.mark hunk).id = n.id := rfl

@[simp] theorem marks_mark (n : Node) (hunk : String) :
    (n.mark hunk).marks = n.marks.insert hunk := rfl

@[simp] theorem lastMark_mark (n : Node) (hunk : String) :
    (n.mark hunk).lastMark = some hunk := rfl

@[simp] theorem toNodeLabel_mark (n : Node) (hunk : String) :
    (n.mark hunk).toNodeLabel = n.toNodeLabel := rfl

end Node

namespace Graph

/-- An operation on a graph. Nodes that are there already are given by number. -/
inductive Operation where
  | addNode (label : NodeLabel)
  | addEdge (source target : Nat) (kind : EdgeKind)
  | mark (id : Nat) (hunk : String)
deriving DecidableEq, Repr

namespace Operation

/-- The nodes that must be there for an operation. -/
def needs : Operation → List Nat
  | addNode _ => []
  | addEdge source target _ => [source, target]
  | mark id _ => [id]

/-- The node that an operation offers. -/
def label? : Operation → Option NodeLabel
  | addNode label => some label
  | _ => none

/-- The edge that an operation draws. -/
def link? : Operation → Option ChangeGraph.Link
  | addEdge source target kind => some ⟨source, target, kind⟩
  | _ => none

/-- The hunk by which an operation marks a node. -/
def hunk? (id : Nat) : Operation → Option String
  | mark id' hunk => if id' = id then some hunk else none
  | _ => none

end Operation

/-- A graph after an operation. If a node is refused, the graph is as it was. -/
def perform (g : Graph) : Operation → Graph
  | .addNode label =>
    match g.addNode label with
    | .ok (g', _) => g'
    | .error _ => g
  | .addEdge source target kind => g.addEdge source target kind
  | .mark id hunk => g.mark id hunk

/-- The graph that some operations draw. -/
def draw (ops : List Operation) : Graph := ops.foldl perform {}

/-- Whether each operation finds the nodes that it needs. -/
def Fits (ops : List Operation) : Prop :=
  ∀ i, ∀ h : i < ops.length, ∀ id ∈ ops[i].needs, (draw (ops.take i)).Has id

/-- The nodes that some operations offer, refused ones included. -/
def offered (ops : List Operation) : List NodeLabel := ops.filterMap (·.label?)

/-- What the parts of a graph tell of each other. An edge is listed as a whole, and its kind is all
that its weight depends on. -/
structure Coherent (g : Graph) : Prop where
  node_ids : g.nodes.map (·.id) = List.range' 1 g.nodes.length
  edge_ids : g.edges.map (·.id) = List.range g.edges.length
  names : (g.nodes.map fun n => (n.kind, n.name)).Nodup
  find?_iff : ∀ kind name n,
    g.find? kind name = some n ↔ n ∈ g.nodes ∧ n.kind = kind ∧ n.name = name
  node?_iff : ∀ id n, g.node? id = some n ↔ n ∈ g.nodes ∧ n.id = id
  closed : ∀ e ∈ g.edges, g.Has e.source ∧ g.Has e.target
  out_iff : ∀ id e, e ∈ g.outEdges id ↔ e ∈ g.edges ∧ e.source = id
  in_iff : ∀ id e, e ∈ g.inEdges id ↔ e ∈ g.edges ∧ e.target = id
  between_iff : ∀ a b e, e ∈ g.edgesBetween a b ↔
    e ∈ g.edges ∧ (e.source = a ∧ e.target = b ∨ e.source = b ∧ e.target = a)
  once : ∀ e ∈ g.edges, g.edges.count e = 1 ∧ (g.outEdges e.source).count e = 1 ∧
    (g.inEdges e.target).count e = 1 ∧ (g.edgesBetween e.source e.target).count e = 1 ∧
    (g.edgesBetween e.target e.source).count e = 1
  out_all : (g.nodes.flatMap fun n => g.outEdges n.id).Perm g.edges
  in_all : (g.nodes.flatMap fun n => g.inEdges n.id).Perm g.edges
  touched_iff : ∀ n ∈ g.nodes, n.isTouched = true ↔ ∃ hunk, hunk ∈ n.marks
  marked_iff : ∀ n ∈ g.nodes, (∃ hunk, hunk ∈ n.marks) ↔ ∃ hunk, n.lastMark = some hunk
  last_mem : ∀ n ∈ g.nodes, ∀ hunk, n.lastMark = some hunk → hunk ∈ n.marks

/-- What a graph tells of the operations that drew it. Of all nodes that were offered with a kind
and a name, it has the first one. -/
structure Reflects (ops : List Operation) (g : Graph) : Prop where
  labels : (g.nodes.map (·.toNodeLabel)).Sublist (offered ops)
  found : ∀ kind name, (g.find? kind name).map (·.toNodeLabel) =
    (offered ops).find? fun l => l.kind = kind && l.name = name
  links : g.edges.map (·.link) = ops.filterMap (·.link?)
  marks : ∀ n ∈ g.nodes, ∀ hunk, hunk ∈ n.marks ↔ .mark n.id hunk ∈ ops
  last : ∀ n ∈ g.nodes, n.lastMark = (ops.filterMap (·.hunk? n.id)).getLast?

section Views

/-- A list is a rearrangement of its parts by the keys of its elements. -/
theorem perm_flatMap_filter {α κ : Type} [DecidableEq κ] {key : α → κ} {keys : List κ}
    (hNodup : keys.Nodup) {l : List α} (h : ∀ a ∈ l, key a ∈ keys) :
    (keys.flatMap fun k => l.filter (key · = k)).Perm l := by
  induction keys generalizing l with
  | nil =>
      cases l with
      | nil => exact .nil
      | cons a rest => cases h a List.mem_cons_self
  | cons k rest ih =>
      obtain ⟨hFirst, hRest⟩ := List.nodup_cons.1 hNodup
      have hOthers : ∀ a ∈ l.filter (fun a => !decide (key a = k)), key a ∈ rest := by
        intro a ha
        obtain ⟨hMem, hNe⟩ := List.mem_filter.1 ha
        exact (List.mem_cons.1 (h a hMem)).resolve_left (by simpa using hNe)
      have hSkip : ∀ k' ∈ rest, (l.filter fun a => !decide (key a = k)).filter (key · = k') =
          l.filter (key · = k') := by
        intro k' hk'
        rw [List.filter_filter]
        refine List.filter_congr fun a _ => ?_
        have hNe : k' ≠ k := fun hSame => hFirst (hSame ▸ hk')
        by_cases hKey : key a = k' <;> simp [hKey, hNe]
      rw [List.flatMap_cons, ← List.flatMap_congr hSkip]
      exact ((ih hRest hOthers).append_left _).trans (List.filter_append_perm _ l)

variable {g : Graph}

theorem outEdges_perm (g : Graph) (id : Nat) :
    (g.outEdges id).Perm (g.edges.filter (·.source = id)) :=
  perm_flatMap_filter (nodup_eraseDups _) fun _ he =>
    List.mem_eraseDups.2 (List.mem_map_of_mem he)

theorem inEdges_perm (g : Graph) (id : Nat) :
    (g.inEdges id).Perm (g.edges.filter (·.target = id)) :=
  perm_flatMap_filter (nodup_eraseDups _) fun _ he =>
    List.mem_eraseDups.2 (List.mem_map_of_mem he)

theorem mem_edgesBetween {a b : Nat} {e : Edge} : e ∈ g.edgesBetween a b ↔
    e ∈ g.edges ∧ (e.source = a ∧ e.target = b ∨ e.source = b ∧ e.target = a) := by
  simp [edgesBetween]

theorem has_iff_mem {id : Nat} : g.Has id ↔ id ∈ g.nodes.map (·.id) := by
  simp [Has]

/-- The edges by the node at one of their ends, if all these nodes are there. -/
theorem Built.flatMap_ends_perm (h : g.Built) {side : Edge → Nat} {view : Nat → List Edge}
    (hView : ∀ id, (view id).Perm (g.edges.filter (side · = id)))
    (hEnds : ∀ e ∈ g.edges, g.Has (side e)) :
    (g.nodes.flatMap fun n => view n.id).Perm g.edges := by
  have hParts := perm_flatMap_filter h.nodup_ids fun e he => has_iff_mem.1 (hEnds e he)
  rw [List.flatMap_map] at hParts
  exact (List.Perm.flatMap_left _ fun n _ => hView n.id).trans hParts

theorem Built.nodup_edges (h : g.Built) : g.edges.Nodup := .of_map _ h.nodup_edge_ids

theorem Built.find?_eq_some_iff (h : g.Built) {kind : NodeKind} {name : String} {n : Node} :
    g.find? kind name = some n ↔ n ∈ g.nodes ∧ n.kind = kind ∧ n.name = name := by
  constructor
  · intro hFound
    exact ⟨List.mem_of_find?_eq_some hFound, by simpa using List.find?_some hFound⟩
  · rintro ⟨hn, rfl, rfl⟩
    cases hFound : g.find? n.kind n.name with
    | none => simpa using List.find?_eq_none.1 hFound n hn
    | some m =>
        have hSame : m.kind = n.kind ∧ m.name = n.name := by simpa using List.find?_some hFound
        rw [h.eq_of_name (List.mem_of_find?_eq_some hFound) hn hSame.1 hSame.2]

theorem Built.node?_eq_some_iff (h : g.Built) {id : Nat} {n : Node} :
    g.node? id = some n ↔ n ∈ g.nodes ∧ n.id = id := by
  constructor
  · exact mem_of_node?
  · rintro ⟨hn, rfl⟩
    exact h.node?_id hn

theorem Drawn.coherent (h : g.Drawn) : g.Coherent where
  node_ids := h.built.ids
  edge_ids := h.built.edge_ids
  names := h.built.nodup_names
  find?_iff _ _ _ := h.built.find?_eq_some_iff
  node?_iff _ _ := h.built.node?_eq_some_iff
  closed := h.closed
  out_iff _ _ := mem_outEdges
  in_iff _ _ := mem_inEdges
  between_iff _ _ _ := mem_edgesBetween
  once e he := by
    have hNodup := h.built.nodup_edges
    refine ⟨List.count_eq_one_of_mem hNodup he, ?_, ?_, ?_, ?_⟩
    · rw [(outEdges_perm g e.source).count_eq, List.count_filter (by simp)]
      exact List.count_eq_one_of_mem hNodup he
    · rw [(inEdges_perm g e.target).count_eq, List.count_filter (by simp)]
      exact List.count_eq_one_of_mem hNodup he
    · exact List.count_eq_one_of_mem (hNodup.filter _) (mem_edgesBetween.2 ⟨he, by simp⟩)
    · exact List.count_eq_one_of_mem (hNodup.filter _) (mem_edgesBetween.2 ⟨he, by simp⟩)
  out_all := h.built.flatMap_ends_perm (outEdges_perm g) fun _ he => h.closed.has_source he
  in_all := h.built.flatMap_ends_perm (inEdges_perm g) fun _ he => h.closed.has_target he
  touched_iff _ hn := h.built.isTouched_iff hn
  marked_iff n hn := by
    rw [← h.built.isTouched_iff hn, Node.isTouched, Option.isSome_iff_exists]
  last_mem _ hn _ hLast := h.built.lastMark_mem hn hLast

end Views

section Steps

variable {g : Graph} {ops : List Operation} {op : Operation} {label : NodeLabel}

/-- A node is refused just if its kind and name are taken. -/
theorem addNode_eq_error_iff :
    g.addNode label = .error ⟨label.kind, label.name⟩ ↔
      ∃ n, g.find? label.kind label.name = some n := by
  cases hFound : g.find? label.kind label.name <;> simp [addNode, hFound]

/-- A node that is refused leaves the graph as it was. -/
theorem perform_of_taken {n : Node} (hTaken : g.find? label.kind label.name = some n) :
    g.perform (.addNode label) = g := by
  simp [perform, addNode, hTaken]

/-- Any other node is put at the end, under the next number. -/
theorem perform_of_fresh (hFresh : g.find? label.kind label.name = none) :
    g.perform (.addNode label) =
      ⟨g.nodes ++ [{ toNodeLabel := label, id := g.nodes.length + 1 }], g.edges⟩ := by
  simp [perform, addNode, hFresh]

theorem find?_mark (g : Graph) (id : Nat) (hunk : String) (kind : NodeKind) (name : String) :
    (g.mark id hunk).find? kind name =
      (g.find? kind name).map fun n => if n.id = id then n.mark hunk else n := by
  rw [find?, mark, List.find?_map]
  congr 2
  funext n
  by_cases hId : n.id = id <;> simp [hId]

theorem map_label_mark (g : Graph) (id : Nat) (hunk : String) :
    (g.mark id hunk).nodes.map (·.toNodeLabel) = g.nodes.map (·.toNodeLabel) := by
  rw [mark, List.map_map]
  apply List.map_congr_left
  intro n _
  by_cases hId : n.id = id <;> simp [hId]

theorem draw_concat (ops : List Operation) (op : Operation) :
    draw (ops ++ [op]) = (draw ops).perform op := by
  simp [draw]

theorem draw_append (before after : List Operation) :
    draw (before ++ after) = after.foldl perform (draw before) := by
  simp [draw]

theorem offered_concat (ops : List Operation) (op : Operation) :
    offered (ops ++ [op]) = offered ops ++ op.label?.toList := by
  rw [offered, List.filterMap_append]
  cases h : op.label? <;> simp [offered, h]

theorem fits_concat :
    Fits (ops ++ [op]) ↔ Fits ops ∧ ∀ id ∈ op.needs, (draw ops).Has id := by
  constructor
  · intro h
    constructor
    · intro i hi id hId
      have hLonger : i < (ops ++ [op]).length := by simp; omega
      have hHas := h i hLonger id (by rwa [List.getElem_append_left hi])
      rwa [List.take_append_of_le_length (Nat.le_of_lt hi)] at hHas
    · intro id hId
      simpa using h ops.length (by simp) id (by simpa using hId)
  · rintro ⟨hOps, hOp⟩ i hi id hId
    rcases Nat.lt_succ_iff_lt_or_eq.1 (by simpa using hi) with hLess | rfl
    · rw [List.getElem_append_left hLess] at hId
      rw [List.take_append_of_le_length (Nat.le_of_lt hLess)]
      exact hOps i hLess id hId
    · simpa using hOp id (by simpa using hId)

/-- What holds before any operation, and is kept by each of them, holds of every drawing. A node is
either refused or added. -/
@[elab_as_elim]
theorem draw_induction {motive : List Operation → Prop} (nil : motive [])
    (refused : ∀ ops label n, (draw ops).find? label.kind label.name = some n →
      draw (ops ++ [.addNode label]) = draw ops → motive ops → motive (ops ++ [.addNode label]))
    (added : ∀ ops label, (draw ops).find? label.kind label.name = none →
      draw (ops ++ [.addNode label]) = ⟨(draw ops).nodes ++
        [{ toNodeLabel := label, id := (draw ops).nodes.length + 1 }], (draw ops).edges⟩ →
      motive ops → motive (ops ++ [.addNode label]))
    (addEdge : ∀ ops source target kind, motive ops → motive (ops ++ [.addEdge source target kind]))
    (mark : ∀ ops id hunk, motive ops → motive (ops ++ [.mark id hunk]))
    (ops : List Operation) : motive ops := by
  induction ops using List.reverseRecOn with
  | nil => exact nil
  | append_singleton ops op ih =>
      cases op with
      | addNode label =>
          cases hFound : (draw ops).find? label.kind label.name with
          | some n =>
              have hSame := perform_of_taken hFound
              exact refused ops label n hFound (by rw [draw_concat, hSame]) ih
          | none => exact added ops label hFound (by rw [draw_concat, perform_of_fresh hFound]) ih
      | addEdge source target kind => exact addEdge ops source target kind ih
      | mark id hunk => exact mark ops id hunk ih

end Steps

section Runs

variable {ops : List Operation}

theorem Fits.drawn (h : Fits ops) : (draw ops).Drawn := by
  induction ops using draw_induction with
  | nil => exact .empty
  | refused ops label n hTaken hDraw ih =>
      rw [hDraw]
      exact ih (fits_concat.1 h).1
  | added ops label hFresh hDraw ih =>
      rw [hDraw]
      exact (ih (fits_concat.1 h).1).append label hFresh
  | addEdge ops source target kind ih =>
      obtain ⟨hOps, hEnds⟩ := fits_concat.1 h
      obtain ⟨m, hm, rfl⟩ := hEnds source (by simp [Operation.needs])
      obtain ⟨n, hn, rfl⟩ := hEnds target (by simp [Operation.needs])
      rw [draw_concat]
      exact (ih hOps).addEdge hm hn kind
  | mark ops id hunk ih =>
      rw [draw_concat]
      exact .mark id hunk (ih (fits_concat.1 h).1)

/-- The node that is found is the first one that was offered. -/
theorem find?_draw (ops : List Operation) (kind : NodeKind) (name : String) :
    ((draw ops).find? kind name).map (·.toNodeLabel) =
      (offered ops).find? fun l => l.kind = kind && l.name = name := by
  induction ops using draw_induction with
  | nil => rfl
  | refused ops label n hTaken hDraw ih =>
      rw [hDraw, offered_concat, List.find?_append, ← ih]
      by_cases hSame : label.kind = kind ∧ label.name = name
      · obtain ⟨rfl, rfl⟩ := hSame
        simp [hTaken]
      · simp [Operation.label?, hSame]
  | added ops label hFresh hDraw ih =>
      rw [hDraw, offered_concat, List.find?_append, ← ih, find?, List.find?_append, Option.map_or]
      congr 1
      by_cases hSame : label.kind = kind ∧ label.name = name <;> simp [Operation.label?, hSame]
  | addEdge ops source target kind' ih =>
      rw [draw_concat, offered_concat]
      simpa [perform, Graph.addEdge, find?, Operation.label?] using ih
  | mark ops id hunk ih =>
      rw [draw_concat, offered_concat]
      simp only [perform, find?_mark, Option.map_map, Operation.label?, Option.toList_none,
        List.append_nil, ← ih]
      congr 1
      funext n
      by_cases hId : n.id = id <;> simp [hId]

theorem labels_draw (ops : List Operation) :
    ((draw ops).nodes.map (·.toNodeLabel)).Sublist (offered ops) := by
  induction ops using draw_induction with
  | nil => exact .slnil
  | refused ops label n hTaken hDraw ih =>
      rw [hDraw, offered_concat]
      exact ih.trans (List.sublist_append_left _ _)
  | added ops label hFresh hDraw ih =>
      rw [hDraw, offered_concat, List.map_append]
      exact ih.append (.refl _)
  | addEdge ops source target kind ih =>
      rw [draw_concat, offered_concat]
      simpa [perform, Graph.addEdge, Operation.label?] using ih
  | mark ops id hunk ih =>
      rw [draw_concat, offered_concat]
      simpa [perform, map_label_mark, Operation.label?] using ih

theorem links_draw (ops : List Operation) :
    (draw ops).edges.map (·.link) = ops.filterMap (·.link?) := by
  induction ops using draw_induction with
  | nil => rfl
  | refused ops label n hTaken hDraw ih => simp [hDraw, ih, Operation.link?]
  | added ops label hFresh hDraw ih => simp [hDraw, ih, Operation.link?]
  | addEdge ops source target kind ih =>
      rw [draw_concat, List.filterMap_append, ← ih]
      simp [perform, Graph.addEdge, Operation.link?, Edge.link]
  | mark ops id hunk ih => simp [draw_concat, perform, Graph.mark, ih, Operation.link?]

theorem mem_hunks_iff {id : Nat} {hunk : String} :
    hunk ∈ ops.filterMap (·.hunk? id) ↔ .mark id hunk ∈ ops := by
  simp only [List.mem_filterMap]
  constructor
  · rintro ⟨op, hOp, hHunk⟩
    cases op with
    | mark id' hunk' =>
        simp only [Operation.hunk?, Option.ite_none_right_eq_some, Option.some.injEq] at hHunk
        obtain ⟨rfl, rfl⟩ := hHunk
        exact hOp
    | addNode label => cases hHunk
    | addEdge source target kind => cases hHunk
  · intro hMark
    exact ⟨_, hMark, by simp [Operation.hunk?]⟩

/-- Only nodes that are there are marked, and nodes never go. -/
theorem Fits.has_of_marked (h : Fits ops) {id : Nat} {hunk : String}
    (hMark : .mark id hunk ∈ ops) : (draw ops).Has id := by
  induction ops using draw_induction with
  | nil => cases hMark
  | refused ops label n hTaken hDraw ih =>
      rw [hDraw]
      exact ih (fits_concat.1 h).1 (by simpa using hMark)
  | added ops label hFresh hDraw ih =>
      obtain ⟨n, hn, rfl⟩ := ih (fits_concat.1 h).1 (by simpa using hMark)
      rw [hDraw]
      exact has_id (List.mem_append_left _ hn)
  | addEdge ops source target kind ih =>
      rw [draw_concat]
      exact ih (fits_concat.1 h).1 (by simpa using hMark)
  | mark ops id' hunk' ih =>
      obtain ⟨hOps, hOp⟩ := fits_concat.1 h
      have hHas : (draw ops).Has id := by
        rcases List.mem_append.1 hMark with hOld | hNew
        · exact ih hOps hOld
        · rw [← List.mem_singleton.1 hNew] at hOp
          exact hOp id (by simp [Operation.needs])
      obtain ⟨n, hn, rfl⟩ := hHas
      obtain ⟨m, hm, _, hId⟩ := exists_mem_mark hn id' hunk'
      rw [draw_concat]
      exact ⟨m, hm, hId⟩

/-- A node has the marks that it was given, and the last of them is kept apart. -/
theorem Fits.marks_draw (h : Fits ops) {n : Node} (hn : n ∈ (draw ops).nodes) :
    (∀ hunk, hunk ∈ n.marks ↔ hunk ∈ ops.filterMap (·.hunk? n.id)) ∧
      n.lastMark = (ops.filterMap (·.hunk? n.id)).getLast? := by
  induction ops using draw_induction generalizing n with
  | nil => cases hn
  | refused ops label m hTaken hDraw ih =>
      rw [hDraw] at hn
      simpa [Operation.hunk?] using ih (fits_concat.1 h).1 hn
  | added ops label hFresh hDraw ih =>
      obtain ⟨hOps, _⟩ := fits_concat.1 h
      rw [hDraw] at hn
      rcases List.mem_append.1 hn with hOld | hNew
      · simpa [Operation.hunk?] using ih hOps hOld
      · -- Nothing marked the new node before, since its number was not there.
        have hNone : ops.filterMap (·.hunk? n.id) = [] := by
          refine List.eq_nil_iff_forall_not_mem.2 fun hunk hHunk => ?_
          have hHas := has_iff_mem.1 (hOps.has_of_marked (mem_hunks_iff.1 hHunk))
          rw [hOps.drawn.built.ids, List.mem_singleton.1 hNew] at hHas
          simp at hHas
          omega
        rw [List.filterMap_append, hNone, List.mem_singleton.1 hNew]
        simp [Operation.hunk?]
  | addEdge ops source target kind ih =>
      rw [draw_concat] at hn
      simpa [Operation.hunk?] using ih (fits_concat.1 h).1 hn
  | mark ops id hunk ih =>
      obtain ⟨hOps, _⟩ := fits_concat.1 h
      rw [draw_concat] at hn
      obtain ⟨m, hm, ⟨rfl, hOther⟩ | ⟨rfl, rfl⟩⟩ := mem_mark_nodes hn
      · simpa [Operation.hunk?, Ne.symm hOther] using ih hOps hm
      · obtain ⟨hMarks, _⟩ := ih hOps hm
        have hOwn : (ops ++ [Operation.mark m.id hunk]).filterMap (·.hunk? m.id) =
            ops.filterMap (·.hunk? m.id) ++ [hunk] := by
          simp [Operation.hunk?]
        rw [Node.id_mark, hOwn]
        refine ⟨fun hunk' => ?_, by rw [Node.lastMark_mark, List.getLast?_concat]⟩
        rw [Node.marks_mark, OrderedSet.mem_insert, hMarks, List.mem_append, List.mem_singleton,
          or_comm]

theorem Fits.reflects (h : Fits ops) : Reflects ops (draw ops) where
  labels := labels_draw ops
  found := find?_draw ops
  links := links_draw ops
  marks _ hn _ := ((h.marks_draw hn).1 _).trans mem_hunks_iff
  last _ hn := (h.marks_draw hn).2

/-- What comes of a node that is offered after some operations and before others. If it is refused,
it might as well not have been offered. -/
structure Decided (before : List Operation) (label : NodeLabel) (after : List Operation) :
    Prop where
  refused_iff : (draw before).addNode label = .error ⟨label.kind, label.name⟩ ↔
    ∃ earlier ∈ offered before, earlier.kind = label.kind ∧ earlier.name = label.name
  refused : (draw before).addNode label = .error ⟨label.kind, label.name⟩ →
    draw (before ++ [.addNode label]) = draw before ∧
      draw (before ++ .addNode label :: after) = draw (before ++ after)
  added : (∀ earlier ∈ offered before,
      ¬ (earlier.kind = label.kind ∧ earlier.name = label.name)) →
    ∃ n, (draw before).addNode label = .ok (draw (before ++ [.addNode label]), n) ∧
      n.toNodeLabel = label ∧ n.id = (draw before).nodes.length + 1

theorem exists_find?_draw_iff {label : NodeLabel} :
    (∃ n, (draw ops).find? label.kind label.name = some n) ↔
      ∃ earlier ∈ offered ops, earlier.kind = label.kind ∧ earlier.name = label.name := by
  rw [← Option.isSome_iff_exists, ← Option.isSome_map (f := (·.toNodeLabel)), find?_draw,
    List.find?_isSome]
  simp

theorem decided (before : List Operation) (label : NodeLabel) (after : List Operation) :
    Decided before label after where
  refused_iff := by
    rw [addNode_eq_error_iff, exists_find?_draw_iff]
  refused hError := by
    obtain ⟨n, hTaken⟩ := addNode_eq_error_iff.1 hError
    have hSame := perform_of_taken hTaken
    rw [draw_concat, draw_append, draw_append, List.foldl_cons, hSame]
    exact ⟨rfl, rfl⟩
  added hNew := by
    have hFresh : (draw before).find? label.kind label.name = none := by
      by_contra hTaken
      obtain ⟨earlier, hMem, hClash⟩ :=
        exists_find?_draw_iff.1 (Option.ne_none_iff_exists'.1 hTaken)
      exact hNew earlier hMem hClash
    rw [draw_concat, perform_of_fresh hFresh]
    exact ⟨_, addNode_of_find?_eq_none hFresh, rfl, rfl⟩

/-- Whatever is done to a graph, its parts agree with each other and with what was done, and a node
that is refused changes nothing. -/
theorem draw_coherent (h : Fits ops) :
    (draw ops).Coherent ∧ Reflects ops (draw ops) ∧
      ∀ before label after, Decided before label after :=
  ⟨h.drawn.coherent, h.reflects, decided⟩

instance (g : Graph) (id : Nat) : Decidable (g.Has id) :=
  inferInstanceAs (Decidable (∃ n ∈ g.nodes, n.id = id))

instance (ops : List Operation) : Decidable (Fits ops) :=
  inferInstanceAs (Decidable (∀ i, ∀ h : i < ops.length, ∀ id ∈ ops[i].needs,
    (draw (ops.take i)).Has id))

/-- Two classes with edges both ways and one that leads back to where it starts. The second class is
offered again between them, and the first one is marked three times. -/
def revisedDrawing : List Operation :=
  [.addNode (loneClass "A"), .addNode (loneClass "B"), .addEdge 1 2 .calls, .mark 1 "0:1",
    .addNode (loneClass "B"), .addEdge 1 2 .calls, .addEdge 2 1 .returns, .mark 1 "0:0",
    .addEdge 1 1 .refers, .addNode (loneClass "C"), .mark 1 "0:1"]

/-- The class that comes after the refused one has the third number, and the edges are numbered
through. -/
theorem draw_coherent_revisedDrawing :
    Fits revisedDrawing ∧
      (draw revisedDrawing).nodes.map (fun n => (n.id, n.lastMark, n.marks.toList)) =
        [(1, some "0:1", ["0:0", "0:1"]), (2, none, []), (3, none, [])] ∧
      ((draw revisedDrawing).edgesBetween 2 1).map (·.id) = [0, 1, 2] ∧
      ((draw revisedDrawing).edgesBetween 1 1).map (·.id) = [3] ∧
      (draw revisedDrawing).Coherent ∧ Reflects revisedDrawing (draw revisedDrawing) ∧
        ∀ before label after, Decided before label after := by
  have hFits : Fits revisedDrawing := by decide +kernel
  exact ⟨hFits, by decide +kernel, by decide +kernel, by decide +kernel, draw_coherent hFits⟩

end Runs

end Graph

end ChangeSplit
