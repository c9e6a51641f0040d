import ChangeSplit.Collection.Sorting
import ChangeSplit.Collection.Table
import ChangeSplit.Entity
import ChangeSplit.Java.Place

/-! Everything that is known of the entities and hunks of one change. Entities and hunks are kept
in the order in which they came in. A later one takes the place of an earlier one with the same
key, but stays apart from it where methods or imports are listed. -/

namespace ChangeSplit

/-- An entity and the number of its node. -/
structure PooledEntity where
  entity : Entity
  node : Option Nat := none

/-- A hunk in one revision, with what is known of the code that it covers. -/
structure PooledHunk where
  /-- The name of the hunk in the change. -/
  name : String
  revision : Revision
  fileIndex : Int
  package : String
  /-- The type and the member around the code, known only if no declaration was touched. -/
  owner : Option String := none
  member : Option String := none
  facts : Facts := {}
  covered : List Java.Place := []
  /-- The types, fields and methods that the hunk declares. -/
  typeNames : OrderedSet String := ∅
  fieldNames : OrderedSet String := ∅
  methodNames : OrderedSet String := ∅
  /-- The number of the node on which the hunk was placed last. -/
  node : Option Nat := none
  /-- The numbers of the nodes that the hunk touched, in order. -/
  anchors : List Nat := []

namespace PooledHunk

/-- The name of a hunk among the entities of its revision. -/
def qualifiedName (h : PooledHunk) : String := "hunk#" ++ h.name

/-- The name of a hunk among those of both revisions. -/
def key (h : PooledHunk) : String := h.revision.scope h.qualifiedName

end PooledHunk

/-- An imported name, and the hunk that covers its import. -/
structure ImportOwner where
  imported : String
  revision : Revision
  fileIndex : Int
  /-- The place of the hunk in the pool. -/
  hunk : Nat
deriving DecidableEq, Repr

/-- The entities and hunks of one change. -/
structure Pool where
  entities : List PooledEntity := []
  hunks : List PooledHunk := []
  importOwners : List ImportOwner := []
deriving Inhabited

namespace Pool

/-- Take in an entity. -/
def addEntity (p : Pool) (e : PooledEntity) : Pool := { p with entities := p.entities ++ [e] }

/-- Take in a hunk. -/
def addHunk (p : Pool) (h : PooledHunk) : Pool := { p with hunks := p.hunks ++ [h] }

/-- Take in an imported name that a hunk covers. -/
def addImportOwner (p : Pool) (o : ImportOwner) : Pool :=
  { p with importOwners := p.importOwners ++ [o] }

/-- The entities of a kind under their keys. -/
def ofKind (p : Pool) (kind : NodeKind) : Table String PooledEntity :=
  (p.entities.filter (·.entity.kind = kind)).foldl (fun t e => t.put e.entity.key e) {}

/-- The hunks under their keys. -/
def hunkTable (p : Pool) : Table String PooledHunk :=
  p.hunks.foldl (fun t h => t.put h.key h) {}

/-- The number of keys of entities and hunks. Kinds have keys of their own. -/
def size (p : Pool) : Nat :=
  (p.ofKind .classType).size + (p.ofKind .interfaceType).size + (p.ofKind .field).size +
    (p.ofKind .method).size + (p.ofKind .imported).size + p.hunkTable.size

/-- The entity of a kind with a full name in a revision. -/
def find? (p : Pool) (kind : NodeKind) (r : Revision) (qualifiedName : String) :
    Option PooledEntity :=
  (p.entities.reverse.find? fun e =>
    e.entity.kind = kind && e.entity.key = r.scope qualifiedName)

/-- The number of parameters of a method. -/
def arityOf (e : Entity) : Nat :=
  match e.particulars with
  | .method _ _ _ _ _ _ arity => arity
  | _ => 0

/-- The methods of a type with a name and a number of parameters. Methods without a type around
them are not listed. -/
def methodsNamed (p : Pool) (r : Revision) (owner name : String) (arity : Nat) :
    List PooledEntity :=
  if owner = "" then []
  else p.entities.filter fun e =>
    e.entity.kind = .method && e.entity.revision = r && e.entity.owner = some owner &&
      e.entity.name = name && arityOf e.entity = arity

/-- The imports of a file. -/
def fileImports (p : Pool) (r : Revision) (fileIndex : Int) : List PooledEntity :=
  p.entities.filter fun e =>
    e.entity.kind = .imported && e.entity.revision = r && e.entity.fileIndex = fileIndex

/-- The hunk that covers the import of a name. -/
def importingHunk? (p : Pool) (r : Revision) (imported : String) : Option PooledHunk :=
  (p.importOwners.reverse.find? fun o => o.revision = r && o.imported = imported).bind fun o =>
    p.hunks[o.hunk]?

/-- All imported names that some hunk covers, with the hunks. -/
def importingHunks (p : Pool) : Table String PooledHunk :=
  p.importOwners.foldl (fun t o =>
    match p.hunks[o.hunk]? with
    | some h => t.put (o.revision.scope o.imported) h
    | none => t) {}

/-- The imported names of a file that some hunk covers, in order, with the hunks. -/
def fileImportingHunks (p : Pool) (r : Revision) (fileIndex : Int) : List (String × PooledHunk) :=
  let own := p.importOwners.filter fun o => o.revision = r && o.fileIndex = fileIndex
  let table : Table String PooledHunk := own.foldl (fun t o =>
    match p.hunks[o.hunk]? with
    | some h => t.put o.imported h
    | none => t) {}
  sortBy (fun a b => a.1 ≤ b.1) table.entries

end Pool

end ChangeSplit
