import ChangeSplit.Collection.OrderedSet
import ChangeSplit.Collection.Table
import ChangeSplit.Java.Place
import ChangeSplit.Text.Blank

/-! The names that one source declares or imports, and what they resolve to. A type is known by
its full name if the source declares it or imports it by name. Any other type keeps the name that
the source writes. -/

namespace ChangeSplit.Java

/-- The name before the first point, and the rest with the point, which is empty if there is
none. -/
def splitHead (name : String) : String × String :=
  let cs := name.toList
  (String.ofList (cs.takeWhile (· ≠ '.')), String.ofList (cs.dropWhile (· ≠ '.')))

/-- The name before the last point, empty if there is none, and the name after it. -/
def splitLast (name : String) : String × String :=
  let reversed := name.toList.reverse
  (String.ofList ((reversed.dropWhile (· ≠ '.')).drop 1).reverse,
    String.ofList (reversed.takeWhile (· ≠ '.')).reverse)

/-- Whether a name begins with an uppercase letter. -/
def isCapitalized (name : String) : Bool := name.toList.head?.any Category.isUppercase

/-- The declared or imported names of one source. Types are under their full names in the last
three tables. A variable without a class type has none there. -/
structure Symbols where
  /-- The full name of each type imported by name, under its simple name. -/
  imports : Table String String := {}
  /-- The type from which each static member is imported, under the member's name. -/
  staticMembers : Table String String := {}
  /-- The full name of each declared type, under its simple name. The first declaration counts. -/
  types : Table String String := {}
  /-- The fields of each declared type, with their types. -/
  fieldTypes : Table String (Table String (Option String)) := {}
  /-- The names of the methods of each declared type. -/
  methodNames : Table String (OrderedSet String) := {}
  /-- What each declared type extends. -/
  superClasses : Table String (Option String) := {}

namespace Symbols

/-- The full name of a type as far as the source tells it. Only the part before the first point
is looked up, among the declared types and then among the imported ones. -/
def resolve (s : Symbols) (name : String) : String :=
  let (head, rest) := splitHead name
  let known (t : Table String String) : Option String := (t.find? head).filter (· ≠ "")
  ((known s.types).orElse fun _ => known s.imports).getD head ++ rest

/-- Whether a name that stands before a point may be a type. -/
def looksLikeType (s : Symbols) (name : String) : Bool :=
  s.types.contains name || s.imports.contains name || isCapitalized name

/-- Whether a type declares a field of the given name. -/
def declaresField (s : Symbols) (type name : String) : Bool :=
  (s.fieldTypes.find? type).any (·.contains name)

/-- Whether a type declares a method of the given name. -/
def declaresMethod (s : Symbols) (type name : String) : Bool :=
  (s.methodNames.find? type).any (·.contains name)

/-- The first of some types that declares the member, or else the first of them. -/
def declaringType (s : Symbols) (types : List String) (member : String) (isCall : Bool) :
    Option String :=
  let declares := if isCall then s.declaresMethod else s.declaresField
  (types.find? (declares · member)).orElse fun _ => types.head?

/-- The first of some types that declares the field. -/
def fieldOwner (s : Symbols) (types : List String) (name : String) : Option String :=
  types.find? (s.declaresField · name)

/-- The type of a field. -/
def fieldType (s : Symbols) (type name : String) : Option String :=
  ((s.fieldTypes.find? type).bind (·.find? name)).join

/-- What a declared type extends. -/
def superClass (s : Symbols) (type : String) : Option String := (s.superClasses.find? type).join

end Symbols

mutual

/-- The node that names the main type of a declared type: the type itself without annotations,
type arguments and array dimensions. Primitive types have none. -/
def mainTypeName? : Tree → Option Tree
  | .token .. => none
  | .node role kind start stop children =>
    match kind with
    | .typeIdentifier | .scopedTypeIdentifier => some (.node role kind start stop children)
    | .genericType => children.find? (·.kindIs Kind.isTypeName)
    | .arrayType => mainElement? children
    | .annotatedType => mainLast? children
    | _ => none

/-- The main type of the elements among the parts of an array type. -/
def mainElement? : List Tree → Option Tree
  | [] => none
  | t :: rest => if t.role? = some .element then mainTypeName? t else mainElement? rest

/-- The main type of the last node among the parts of an annotated type. -/
def mainLast? : List Tree → Option Tree
  | [] => none
  | t :: rest =>
    if rest.any Tree.isNamed then mainLast? rest
    else if t.isNamed then mainTypeName? t
    else none

end

mutual

/-- The nodes that name a class type anywhere in a type, type arguments included. -/
def typeNamesIn : Tree → List Tree
  | .token .. => []
  | .node role kind start stop children =>
    if kind.isTypeName then [.node role kind start stop children] else typeNamesInAll children

/-- The nodes that name a class type anywhere in some trees. -/
def typeNamesInAll : List Tree → List Tree
  | [] => []
  | t :: rest => typeNamesIn t ++ typeNamesInAll rest

end

/-- The written name of a type, unless it is the word that leaves the type open. -/
def writtenType (unit : SourceUnit) (t : Tree) : Option String :=
  let name := unit.text t
  if name = "var" then none else some name

/-- The main type of a declaration, resolved. There is none for primitive types. -/
def mainType (unit : SourceUnit) (s : Symbols) (t : Option Tree) : Option String :=
  ((t.bind mainTypeName?).bind (writtenType unit)).map s.resolve

/-- The class types that a type mentions, resolved. -/
def mentionedTypes (unit : SourceUnit) (s : Symbols) (t : Option Tree) : List String :=
  ((t.elim [] typeNamesIn).filterMap (writtenType unit)).map s.resolve

/-- The parameters of a parameter list, each with its main type. -/
def parametersOf (unit : SourceUnit) (s : Symbols) (list : Tree) :
    List (String × Option String) :=
  list.namedChildren.filterMap fun p =>
    if p.isA .formalParameter then
      some (unit.declaredName p, mainType unit s (p.childAs? .type))
    else if p.isA .spreadParameter then
      let parts := p.namedChildren
      let name := (parts.filter (·.isA .variableDeclarator)).getLast?.elim "" unit.declaredName
      let types := parts.filter fun c => !c.isA .variableDeclarator && !c.isA .modifiers
      some (name, types.findSome? fun c => mainType unit s (some c))
    else none

/-- The imported name of an import, with a star at its end if it takes in everything below, and
whether the import is static and takes in everything. -/
def importParts (unit : SourceUnit) (t : Tree) : String × Bool × Bool :=
  let isStatic := t.children.any fun
    | .token text _ _ => text = "static"
    | .node .. => false
  let isWildcard := t.children.any (·.isA .asterisk)
  let name := ((t.children.filter (·.kindIs Kind.isName)).getLast?).elim "" unit.text
  (if isWildcard then name ++ ".*" else name, isStatic, isWildcard)

namespace Symbols

/-- Take in an import. One that takes in everything, or names no package, tells no name. -/
def addImport (unit : SourceUnit) (s : Symbols) (t : Tree) : Symbols :=
  let (imported, isStatic, isWildcard) := importParts unit t
  if isWildcard || !imported.toList.contains '.' then s
  else
    let (owner, simple) := splitLast imported
    if isStatic then { s with staticMembers := s.staticMembers.put simple owner }
    else { s with imports := s.imports.put simple imported }

/-- The fields and methods of a type, as far as the given members of it tell. -/
def membersOf (unit : SourceUnit) (s : Symbols) (type : String) (members : List Place) :
    Table String (Option String) × OrderedSet String :=
  members.foldl (fun (fields, methods) m =>
    let node := m.node
    if node.kindIs Kind.isFieldDeclaration then
      let declared := mainType unit s (node.childAs? .type)
      ((unit.declaredFields node).foldl (fun t name => t.put name declared) fields, methods)
    else if node.isA .enumConstant then (fields.put (unit.declaredName node) (some type), methods)
    else if node.kindIs Kind.isMethodDeclaration then
      (fields, methods.insert (unit.declaredName node))
    else (fields, methods)) ({}, ∅)

/-- Take in the members of a declared type. The components of a record are fields of it and
methods too. -/
def addType (unit : SourceUnit) (s : Symbols) (p : Place) : Symbols :=
  let name := unit.typeName p
  let (fields, methods) := membersOf unit s name p.members
  let components :=
    if p.node.isA .recordDeclaration then
      (p.node.childAs? .parameters).elim [] (parametersOf unit s)
    else []
  let fields := components.foldl (fun t (name, type) => t.put name type) fields
  let methods := components.foldl (fun m (name, _) => m.insert name) methods
  let extended := (p.node.childAs? .superclass).bind (·.namedChildren.head?)
  { s with
    fieldTypes := s.fieldTypes.put name fields
    methodNames := s.methodNames.put name methods
    superClasses := s.superClasses.put name (mainType unit s extended) }

/-- The names that a source declares or imports. Imports and type names come first, since the
members are resolved by them. -/
def ofUnit (unit : SourceUnit) : Symbols :=
  let imports := unit.root.namedChildren.filter (·.isA .importDeclaration)
  let s := imports.foldl (addImport unit) {}
  let s := unit.types.foldl (fun s p =>
    { s with types := s.types.putNew (unit.declaredName p.node) (unit.typeName p) }) s
  unit.types.foldl (addType unit) s

end Symbols

end ChangeSplit.Java
