import ChangeSplit.Java.Mention

/-! The entities that a Java source declares. Each named declaration gives the identities of its
entities, and reading a source describes every entity in full. Methods are told apart by the
types of their parameters as written, without type arguments. -/

namespace ChangeSplit.Java

/-- From where a declaration with the given modifiers can be seen. The narrowest word counts. -/
def visibilityOf (modifiers : List String) : Visibility :=
  if modifiers.contains "private" then .hidden
  else if modifiers.contains "protected" then .inherited
  else if modifiers.contains "public" then .everywhere
  else .package

/-- A type without type arguments. An opening bracket goes together with everything up to the
last closing bracket on its line, and stays where there is none. The first `skip` characters are
already gone. -/
def dropArguments : Nat → List Char → List Char
  | _, [] => []
  | skip + 1, _ :: rest => dropArguments skip rest
  | 0, c :: rest =>
    if c = '<' then
      let inner := (rest.takeWhile (· ≠ '\n')).reverse.dropWhile (· ≠ '>')
      if inner.isEmpty then c :: dropArguments 0 rest else dropArguments inner.length rest
    else c :: dropArguments 0 rest

/-- The type of a parameter as it stands in the name of a method. -/
def signatureType (text : String) : String :=
  String.ofList ((dropArguments 0 text.toList).filter (· ≠ ' '))

/-- A text with one space for every run of blanks inside it. -/
def spaced (text : String) : String :=
  " ".intercalate ((Text.words text.toList).map String.ofList)

/-- One parameter of a method. -/
structure Parameter where
  /-- Its type in the name of the method. -/
  signature : String
  text : String
  types : List String

/-- The parameters of a method or constructor. A receiver is none. -/
def parametersIn (unit : SourceUnit) (s : Symbols) (t : Tree) : List Parameter :=
  (t.childAs? .parameters).elim [] fun list =>
    (list.namedChildren.filter fun p => p.isA .formalParameter || p.isA .spreadParameter).map
      fun p =>
        let type := (p.childAs? .type).orElse fun _ =>
          p.namedChildren.find? fun c => !c.isA .modifiers && !c.isA .variableDeclarator
        let written := unit.text? type
        let written := if p.isA .spreadParameter then written ++ "..." else written
        ⟨signatureType written, spaced (unit.text p), mentionedTypes unit s type⟩

/-- The name of a method or constructor with the types of its parameters. -/
def methodName (name : String) (parameters : List Parameter) : String :=
  name ++ "(" ++ ",".intercalate (parameters.map (·.signature)) ++ ")"

/-- What tells an entity apart: its kind, its full name, and its simple name. -/
structure Identity where
  kind : NodeKind
  qualifiedName : String
  name : String
deriving DecidableEq, Repr

/-- The identities of what a named declaration declares. A declaration of fields may declare
several. -/
def identities (unit : SourceUnit) (s : Symbols) (p : Place) : List Identity :=
  let t := p.node
  if t.kindIs Kind.isTypeDeclaration then
    let kind := if t.kindIs Kind.isInterfaceDeclaration then .interfaceType else .classType
    [⟨kind, unit.typeName p, unit.declaredName t⟩]
  else
    match unit.typesAround p with
    | [] => []
    | owner :: _ =>
      if t.kindIs Kind.isMethodDeclaration then
        let name := unit.declaredName t
        [⟨.method, owner ++ "." ++ methodName name (parametersIn unit s t), name⟩]
      else (unit.declaredFields t).map fun name => ⟨.field, owner ++ "." ++ name, name⟩

/-- What the extraction of entities works on: a source with its names, its revision, and the
index of its file in the change. -/
structure Subject where
  unit : SourceUnit
  symbols : Symbols
  revision : Revision
  fileIndex : Int

namespace Subject

/-- A source of a revision, with its names looked up. -/
def ofUnit (unit : SourceUnit) (revision : Revision) (fileIndex : Int) : Subject :=
  ⟨unit, .ofUnit unit, revision, fileIndex⟩

/-- The entity of a declaration, whose modifiers are read off the node. -/
def entity (s : Subject) (t : Tree) (name qualifiedName : String) (owner : Option String)
    (particulars : Particulars) (facts : Facts := {}) : Entity :=
  let modifiers := modifierWords t
  { name, qualifiedName, owner, particulars, facts
    revision := s.revision
    fileIndex := s.fileIndex
    package := s.unit.package
    visibility := visibilityOf modifiers
    modifiers := .ofList modifiers }

/-- The entity of an import. Imports of different files are different entities. -/
def importEntity (s : Subject) (t : Tree) : Entity :=
  let (imported, isStatic, isWildcard) := importParts s.unit t
  { name := imported
    qualifiedName := toString s.fileIndex ++ "#" ++ imported
    revision := s.revision
    fileIndex := s.fileIndex
    package := s.unit.package
    owner := none
    visibility := .everywhere
    modifiers := ∅
    particulars := .imported isStatic isWildcard }

/-- The main types in the lists of types right below a node. -/
def listedTypes (s : Subject) (t : Option Tree) : List String :=
  let lists := (t.elim [] Tree.namedChildren).filter (·.isA .typeList)
  (lists.flatMap Tree.namedChildren).filterMap fun item =>
    (mainType s.unit s.symbols (some item)).filter (· ≠ "")

/-- The entity of a type. -/
def typeEntity (s : Subject) (p : Place) : Entity :=
  let t := p.node
  let name := s.unit.typeName p
  let particulars :=
    if t.kindIs Kind.isInterfaceDeclaration then
      .interfaceType (s.listedTypes (t.namedChildren.find? (·.isA .extendsInterfaces)))
    else .classType (s.symbols.superClass name) (s.listedTypes (t.childAs? .interfaces))
  let outer := (p.enclosingMembers.drop 1).filter (·.kindIs Kind.isTypeDeclaration)
  s.entity t (s.unit.declaredName t) name (outer.head?.map s.unit.typeName) particulars

/-- The facts of what stands below a place, in a scope with the given local variables. -/
def factsIn (s : Subject) (p : Place) (locals : List (String × Option String))
    (roots : List Place) : Facts :=
  let scope := ⟨s.unit.typesAround p, locals⟩
  .ofMentions (roots.flatMap (mentionsFrom s.unit s.symbols scope))

/-- The entities of a declaration of fields, one for each name. The facts of each come from its
own initial value. -/
def fieldEntities (s : Subject) (p : Place) (owner : String) : List Entity :=
  let t := p.node
  let type := t.childAs? .type
  (t.childrenAs .declarator).map fun d =>
    let name := s.unit.declaredName d
    let facts := (d.childAs? .value).elim {} fun value =>
      s.factsIn p (localsOf s.unit s.symbols value) [(p.descend d).descend value]
    s.entity t name (owner ++ "." ++ name) (some owner)
      (.field (s.unit.text? type) (.ofList (mentionedTypes s.unit s.symbols type))) facts

/-- The entity of an enumeration constant, which is a field of the enumeration's own type. -/
def constantEntity (s : Subject) (p : Place) (owner : String) : Entity :=
  let t := p.node
  let name := s.unit.declaredName t
  let parts := p.namedChildren.filter fun c => c.node.isA .argumentList || c.node.isA .classBody
  s.entity t name (owner ++ "." ++ name) (some owner)
    (.field (splitLast owner).2 (.ofList [owner])) (s.factsIn p [] parts)

/-- The entity of a method or constructor. -/
def methodEntity (s : Subject) (p : Place) (owner : String) : Entity :=
  let t := p.node
  let name := s.unit.declaredName t
  let parameters := parametersIn s.unit s.symbols t
  let returned := t.childAs? .type
  let thrown := mentionedTypes s.unit s.symbols (t.namedChildren.find? (·.isA .throws))
  let facts := (p.childAs? .body).elim {} fun body =>
    s.factsIn p (localsOf s.unit s.symbols t) [body]
  s.entity t name (owner ++ "." ++ methodName name parameters) (some owner)
    (.method (", ".intercalate (parameters.map (·.text)))
      (.ofList (parameters.flatMap (·.types)))
      (returned.elim "void" s.unit.text)
      (.ofList (mentionedTypes s.unit s.symbols returned))
      (OrderedSet.ofList thrown).toList
      (t.isA .constructorDeclaration)
      parameters.length) facts

/-- The entities of a type and of those of its members that are not types. -/
def entitiesOfType (s : Subject) (p : Place) : List Entity :=
  let name := s.unit.typeName p
  s.typeEntity p :: p.members.flatMap fun m =>
    if m.kindIs Kind.isFieldDeclaration then s.fieldEntities m name
    else if m.node.isA .enumConstant then [s.constantEntity m name]
    else if m.kindIs Kind.isMethodDeclaration then [s.methodEntity m name]
    else []

/-- Every entity of a source: the imports, then each type with its members. -/
def entities (s : Subject) : List Entity :=
  (s.unit.root.namedChildren.filter (·.isA .importDeclaration)).map s.importEntity ++
    s.unit.types.flatMap s.entitiesOfType

/-- The identities of what a named declaration declares. -/
def identities (s : Subject) (p : Place) : List Identity := Java.identities s.unit s.symbols p

/-- What a statement refers to. -/
def statementMentions (s : Subject) (p : Place) : List Mention :=
  Java.statementMentions s.unit s.symbols p

end Subject

end ChangeSplit.Java
