import ChangeSplit.ChangeGraph.Basic
import ChangeSplit.Diff.Hunk

/-! Placing the hunks of a change on the nodes of its graph. A hunk touches the declarations and
imports that it covers. If it covers statements only, it gets a node of its own inside the
innermost declaration around all of them. -/

namespace ChangeSplit

namespace ChangeGraph

/-- A graph with a hunk that is being placed on it. -/
structure Placing where
  result : ChangeGraph
  hunk : PooledHunk

namespace Placing

/-- Let the hunk touch a node. -/
def touch (p : Placing) (n : Node) : Placing :=
  { result := { p.result with graph := p.result.graph.mark n.id p.hunk.name }
    hunk := { p.hunk with node := some n.id, anchors := p.hunk.anchors ++ [n.id] } }

/-- Keep the name of a declared entity that the hunk touches. -/
def define (p : Placing) (kind : NodeKind) (name : String) : Placing :=
  let h := p.hunk
  { p with hunk :=
    if kind.isType then { h with typeNames := h.typeNames.insert name }
    else if kind = .field then { h with fieldNames := h.fieldNames.insert name }
    else { h with methodNames := h.methodNames.insert name } }

/-- Place the hunk on an import. The imported name belongs to the hunk from then on. -/
def onImport (s : Java.Subject) (p : Placing) (place : Java.Place) : Placing :=
  let (imported, _) := Java.importParts s.unit place.node
  let p := p.define .classType imported
  let owner : ImportOwner := ⟨imported, s.revision, s.fileIndex, p.result.pool.hunks.length⟩
  let p := { p with result := { p.result with pool := p.result.pool.addImportOwner owner } }
  let name := toString s.fileIndex ++ "#" ++ imported
  match p.result.graph.find? .imported (s.revision.scope name) with
  | some n => p.touch n
  | none => p

/-- Place the hunk on declared entities. One without a node ends this. -/
def onEntities (s : Java.Subject) (p : Placing) : List Java.Identity → Placing
  | [] => p
  | i :: rest =>
    match nodeFor? p.result.graph s.revision i with
    | none => { p with result := p.result.note (.unanchored p.hunk.name i.kind i.qualifiedName) }
    | some n => onEntities s ((p.define i.kind (n.entityName?.getD "")).touch n) rest

/-- Place the hunk on an import or a declaration, or take in what a statement refers to. -/
def onAnchor (s : Java.Subject) (p : Placing) (place : Java.Place) : Placing :=
  if place.node.isA .importDeclaration then p.onImport s place
  else if place.kindIs Java.Kind.isStatement then
    { p with hunk := { p.hunk with facts := p.hunk.facts.addAll (s.statementMentions place) } }
  else p.onEntities s (s.identities place)

end Placing

/-- Whether two places are the same stretch of the same kind. -/
def samePlace (a b : Java.Place) : Bool := a.node.same b.node

/-- The places to which some covered places are put down, each once. -/
def anchorsOf (covered : List Java.Place) : List Java.Place :=
  (covered.filterMap Java.Place.anchor?).foldl (fun found p =>
    if found.any (samePlace p) then found else found ++ [p]) []

/-- The declarations around all of some places, imports aside, innermost first. Places that no
declaration is around do not count. -/
def commonMembers (anchors : List Java.Place) : List Java.Place :=
  let chains := (anchors.filter (!·.node.isA .importDeclaration)).map (·.enclosingMembers)
  match chains.filter (!·.isEmpty) with
  | [] => []
  | chain :: rest => chain.filter fun d => rest.all fun other => other.any (samePlace d)

/-- The node of the innermost declaration around all of some places. Declarations without a node
are passed over. -/
def containerFor? (s : Java.Subject) (g : Graph) (anchors : List Java.Place) : Option Node :=
  (commonMembers anchors).findSome? fun d =>
    (s.identities d).head?.bind (nodeFor? g s.revision)

/-- Give a hunk a node of its own. -/
def addHunkNode (s : Java.Subject) (anchors : List Java.Place) (p : Placing) :
    Except Blocked Placing :=
  let container := containerFor? s p.result.graph anchors
  let hunk := { p.hunk with
    owner := container.bind (·.owner)
    member := container.bind (·.member) }
  let label : NodeLabel := {
    kind := .hunk, identifier := hunk.name, name := hunk.key, revision := hunk.revision
    package := some hunk.package, owner := hunk.owner, member := hunk.member }
  match p.result.graph.addNode label with
  | .error e => .error ⟨e, p.result.notes⟩
  | .ok (graph, n) =>
    let p := Placing.touch ⟨{ p.result with graph }, hunk⟩ n
    match container with
    | none => .ok { p with result := p.result.note (.detached hunk.name) }
    | some c =>
      let graph := p.result.graph.addEdge c.id n.id .contains
      .ok { p with result := { p.result with graph } }

/-- The places of a source that a hunk covers. Only code is covered. -/
def coveredBy (s : Java.Subject) (h : Hunk) : List Java.Place :=
  if !h.containsCode then []
  else
    match (h.side s.revision).range? with
    | none => []
    | some (first, last) =>
      let (start, stop) := Java.lineSpan s.unit.source first last
      s.unit.covered start stop

/-- Place one hunk of a file. A hunk that covers nothing is left out. -/
def placeHunk (s : Java.Subject) (g : ChangeGraph) (h : Hunk) : Except Blocked ChangeGraph :=
  let covered := coveredBy s h
  let anchors := anchorsOf covered
  if anchors.isEmpty then .ok g
  else
    let hunk : PooledHunk := {
      name := HunkName.ofIndexes s.fileIndex h.index, revision := s.revision
      fileIndex := s.fileIndex, package := s.unit.package, covered }
    let placed := anchors.foldl (Placing.onAnchor s) ⟨g, hunk⟩
    let placed := if placed.hunk.anchors.isEmpty then addHunkNode s anchors placed else .ok placed
    placed.map fun p => { p.result with pool := p.result.pool.addHunk p.hunk }

/-- Place the hunks of a file. -/
def placeHunks (s : Java.Subject) (hunks : List Hunk) (g : ChangeGraph) :
    Except Blocked ChangeGraph :=
  hunks.foldlM (placeHunk s) g

end ChangeGraph

end ChangeSplit
