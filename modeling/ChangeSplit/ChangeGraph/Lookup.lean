import ChangeSplit.ChangeGraph.Basic

/-! Which nodes the names in a source stand for. Names are resolved in the place where they are
used: a revision, a file and a package. -/

namespace ChangeSplit

/-- Where a name is used. -/
structure Usage where
  revision : Revision
  fileIndex : Int
  package : String

/-- Where the names in an entity are used. -/
def Entity.usage (e : Entity) : Usage := ⟨e.revision, e.fileIndex, e.package⟩

/-- Where the names in the code of a hunk are used. -/
def PooledHunk.usage (h : PooledHunk) : Usage := ⟨h.revision, h.fileIndex, h.package⟩

namespace ChangeGraph

/-- The class or interface with a full name. -/
def declaredType? (g : ChangeGraph) (r : Revision) (name : String) : Option PooledEntity :=
  (g.pool.find? .classType r name).orElse fun _ => g.pool.find? .interfaceType r name

/-- The number of the node that the name of a type stands for. In this order: a declared type of
this full name, a hunk that covers an import of it, an import of it in the same file, a type of the
same package, and an import of the same file whose last parts it is. -/
def typeNodeId? (g : ChangeGraph) (u : Usage) (name : String) : Option Nat :=
  match g.declaredType? u.revision name with
  | some e => e.node
  | none =>
  match (g.pool.importingHunk? u.revision name).bind (·.node) with
  | some id => some id
  | none =>
  let imports := g.pool.fileImports u.revision u.fileIndex
  match imports.find? (·.entity.name = name) with
  | some e => e.node
  | none =>
  let neighbor :=
    if u.package ≠ "" && !name.toList.contains '.' then
      g.declaredType? u.revision (u.package ++ "." ++ name)
    else none
  match neighbor with
  | some e => e.node
  | none =>
  let isTail (imported : String) : Bool := imported.endsWith ("." ++ name)
  let covered := (g.pool.fileImportingHunks u.revision u.fileIndex).findSome?
    fun (imported, h) => if isTail imported then h.node else none
  match covered with
  | some id => some id
  | none => (imports.find? fun e => isTail e.entity.name).bind (·.node)

/-- The node that the name of a type stands for. -/
def typeNode? (g : ChangeGraph) (u : Usage) (name : String) : Option Node :=
  (g.typeNodeId? u name).bind g.graph.node?

/-- The full name of a declared type. -/
def qualify? (g : ChangeGraph) (u : Usage) (name : String) : Option String :=
  match g.typeNode? u name with
  | some n => if n.kind.isType then n.entityName? else none
  | none => none

/-- The full name of what a declared class extends. -/
def superType? (g : ChangeGraph) (r : Revision) (name : String) : Option String :=
  (g.pool.find? .classType r name).bind fun e =>
    match e.entity.particulars with
    | .classType (some superClass) _ =>
      if superClass = "" then none else g.qualify? e.entity.usage superClass
    | _ => none

/-- The methods with a name and a number of parameters on a type, or on the nearest class further
up that has any. Types in `seen` were passed, and the walk ends where it would come back. -/
def methodsFrom (g : ChangeGraph) (r : Revision) (name : String) (arity : Nat) :
    Nat → List String → Option String → List PooledEntity
  | 0, _, _ | _ + 1, _, none => []
  | depth + 1, seen, some type =>
    if type = "" || seen.contains type then []
    else
      match g.pool.methodsNamed r type name arity with
      | [] => methodsFrom g r name arity depth (type :: seen) (g.superType? r type)
      | found => found

/-- The methods that a call can reach. Each type on the way up is declared, so the number of
entities bounds the way. -/
def callTargets (g : ChangeGraph) (u : Usage) (c : CallRef) : List PooledEntity :=
  match c.owner with
  | none => []
  | some owner =>
    methodsFrom g u.revision c.name c.arity (g.pool.entities.length + 2) [] (g.qualify? u owner)

/-- The field that a use of a field means. -/
def usedField? (g : ChangeGraph) (u : Usage) (use : String) : Option PooledEntity :=
  let (owner, name) := Java.splitLast use
  g.pool.find? .field u.revision ((g.qualify? u owner).getD owner ++ "." ++ name)

end ChangeGraph

end ChangeSplit
