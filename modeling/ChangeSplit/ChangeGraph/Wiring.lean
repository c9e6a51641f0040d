import ChangeSplit.ChangeGraph.Lookup

/-! The edges that follow from what entities and hunks refer to. -/

namespace ChangeSplit

namespace ChangeGraph

/-- An edge without a number. -/
structure Link where
  source : Nat
  target : Nat
  kind : EdgeKind
deriving DecidableEq, Repr

/-- The edges to the methods that are called, in order of the calls. -/
def callLinks (g : ChangeGraph) (source : Nat) (u : Usage) (f : Facts) : List Link :=
  (sortBy (fun a b => a.key ≤ b.key) f.calls.toList).flatMap fun c =>
    (g.callTargets u c).filterMap fun m => m.node.map (⟨source, ·, .calls⟩)

/-- The edges to the fields that are used. -/
def fieldLinks (g : ChangeGraph) (source : Nat) (u : Usage) (f : Facts) : List Link :=
  f.fieldUses.toList.filterMap fun use =>
    ((g.usedField? u use).bind (·.node)).map (⟨source, ·, .accesses⟩)

/-- The edges to types, or to what stands in for them. -/
def typeLinks (g : ChangeGraph) (source : Nat) (u : Usage) (names : OrderedSet String)
    (kind : EdgeKind) : List Link :=
  names.toList.filterMap fun name => (g.typeNode? u name).map (⟨source, ·.id, kind⟩)

/-- The edges of a method, a field, a type or an import. -/
def entityLinks (g : ChangeGraph) (e : PooledEntity) : List Link :=
  match e.node with
  | none => []
  | some source =>
    let u := e.entity.usage
    let facts := e.entity.facts
    match e.entity.particulars with
    | .method _ parameterTypes _ returnTypes thrown _ _ =>
      g.callLinks source u facts ++ g.fieldLinks source u facts ++
        g.typeLinks source u returnTypes .returns ++
        g.typeLinks source u parameterTypes .takes ++
        g.typeLinks source u facts.typeUses .initializes ++
        g.typeLinks source u (.ofList thrown) .refers
    | .field _ types =>
      g.typeLinks source u types .refers ++ g.callLinks source u facts ++
        g.fieldLinks source u facts ++ g.typeLinks source u facts.typeUses .initializes
    | .classType superClass interfaces =>
      g.typeLinks source u (.ofList (interfaces ++ (superClass.filter (· ≠ "")).toList)) .refers
    | .interfaceType interfaces => g.typeLinks source u (.ofList interfaces) .refers
    | .imported .. =>
      [NodeKind.classType, .interfaceType].filterMap fun kind =>
        (g.graph.find? kind (u.revision.scope e.entity.name)).map (⟨source, ·.id, .refers⟩)

/-- The edges of a hunk. One that touches a declaration has none, since the declaration has
them. -/
def hunkLinks (g : ChangeGraph) (h : PooledHunk) : List Link :=
  match h.node.bind g.graph.node? with
  | none => []
  | some n =>
    if n.kind = .hunk then
      g.callLinks n.id h.usage h.facts ++ g.fieldLinks n.id h.usage h.facts ++
        g.typeLinks n.id h.usage h.facts.typeUses .initializes
    else []

/-- All edges that follow from what is known: those of methods, fields, classes, interfaces and
imports, and last those of hunks. -/
def links (g : ChangeGraph) : List Link :=
  ([NodeKind.method, .field, .classType, .interfaceType, .imported].flatMap fun kind =>
    (g.pool.ofKind kind).values.flatMap g.entityLinks) ++
    g.pool.hunkTable.values.flatMap g.hunkLinks

/-- Add the edges that follow from what is known. -/
def wire (g : ChangeGraph) : ChangeGraph :=
  { g with graph := g.links.foldl (fun h l => h.addEdge l.source l.target l.kind) g.graph }

end ChangeGraph

end ChangeSplit
