import ChangeSplit.Collection.OrderedSet
import ChangeSplit.Graph.Kind
import ChangeSplit.Revision

/-! Descriptions of what a source declares, with the names of what each declaration refers to.
The names are as well resolved as the one source allows. -/

namespace ChangeSplit

/-- A call of a method. The owner is the type on which the method is looked up, if it could be
told. -/
structure CallRef where
  owner : Option String
  name : String
  arity : Nat
deriving DecidableEq, Repr

namespace CallRef

/-- A call as one name. A question mark stands for an owner that is missing or has no name. -/
def key (c : CallRef) : String :=
  let owner := match c.owner with
    | some owner => if owner = "" then "?" else owner
    | none => "?"
  owner ++ "." ++ c.name ++ "/" ++ toString c.arity

/-- Calls without an owner come first, then calls go by owner, name and arity. -/
instance : Ord CallRef :=
  ⟨compareLex (compareOn owner) (compareLex (compareOn name) (compareOn arity))⟩

instance : Std.TransOrd CallRef :=
  inferInstanceAs (Std.TransCmp
    (compareLex (compareOn owner) (compareLex (compareOn name) (compareOn arity))))

end CallRef

/-- One thing that a stretch of source refers to. -/
inductive Mention where
  | type (name : String)
  | field (name : String)
  | call (ref : CallRef)
deriving DecidableEq, Repr

/-- What a stretch of source refers to. -/
structure Facts where
  typeUses : OrderedSet String := ∅
  calls : OrderedSet CallRef := ∅
  fieldUses : OrderedSet String := ∅
deriving Inhabited

namespace Facts

/-- Facts with one more mention. -/
def add (f : Facts) : Mention → Facts
  | .type name => { f with typeUses := f.typeUses.insert name }
  | .field name => { f with fieldUses := f.fieldUses.insert name }
  | .call ref => { f with calls := f.calls.insert ref }

/-- Facts with more mentions. -/
def addAll (f : Facts) (mentions : List Mention) : Facts := mentions.foldl add f

/-- The facts that some mentions make up. -/
def ofMentions (mentions : List Mention) : Facts := addAll {} mentions

end Facts

/-- From where a declaration can be seen. -/
inductive Visibility where
  | hidden
  | inherited
  | package
  | everywhere
deriving DecidableEq, Repr

/-- The name of a visibility. -/
def Visibility.name : Visibility → String
  | hidden => "private"
  | inherited => "protected"
  | package => "package"
  | everywhere => "public"

/-- What is particular to each sort of declaration. -/
inductive Particulars where
  | classType (superClass : Option String) (superInterfaces : List String)
  | interfaceType (superInterfaces : List String)
  | field (typeText : String) (types : OrderedSet String)
  | method (parameterText : String) (parameterTypes : OrderedSet String) (returnText : String)
      (returnTypes : OrderedSet String) (thrown : List String) (isConstructor : Bool) (arity : Nat)
  | imported (isStatic isWildcard : Bool)

/-- A declared entity of one revision. -/
structure Entity where
  /-- The simple name, or the imported name as written. -/
  name : String
  /-- The name under which the entity is told apart from others of its sort. -/
  qualifiedName : String
  revision : Revision
  /-- The index of the changed file that declares the entity. -/
  fileIndex : Int
  package : String
  /-- The full name of the type around the declaration. -/
  owner : Option String
  visibility : Visibility
  modifiers : OrderedSet String
  facts : Facts := {}
  particulars : Particulars

namespace Entity

/-- The kind of node that stands for an entity. -/
def kind (e : Entity) : NodeKind :=
  match e.particulars with
  | .classType .. => .classType
  | .interfaceType .. => .interfaceType
  | .field .. => .field
  | .method .. => .method
  | .imported .. => .imported

/-- The name of an entity among those of both revisions. -/
def key (e : Entity) : String := e.revision.scope e.qualifiedName

/-- The member that an entity is or belongs to. -/
def member (e : Entity) : Option String :=
  match e.kind with
  | .field | .method => some e.qualifiedName
  | _ => none

end Entity

end ChangeSplit
