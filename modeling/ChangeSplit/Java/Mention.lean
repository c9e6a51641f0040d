import ChangeSplit.Entity
import ChangeSplit.Java.Symbols

/-! What a stretch of Java source refers to. A receiver has a type if it is a parameter, a local
variable, a field of an enclosing type, or names a type itself. A bare name is a use of a field
only where a value is wanted and no local variable has the name. -/

namespace ChangeSplit.Java

/-- What the names at a place are looked up in: the enclosing types, innermost first, and the
local variables with their types. The last variable of a name counts. -/
structure Scope where
  types : List String
  locals : List (String × Option String)

namespace Scope

/-- Whether a name is that of a local variable. -/
def hasLocal (scope : Scope) (name : String) : Bool := scope.locals.any (·.1 = name)

/-- The type of a local variable. -/
def localType (scope : Scope) (name : String) : Option String :=
  ((scope.locals.reverse.find? (·.1 = name)).map (·.2)).join

end Scope

mutual

/-- The nodes from a tree down, each before those below it and later ones before earlier ones. -/
def backwards : Tree → List Tree
  | .token .. => []
  | .node role kind start stop children =>
    .node role kind start stop children :: backwardsAll children

/-- The nodes from some trees down, later trees first. -/
def backwardsAll : List Tree → List Tree
  | [] => []
  | t :: rest => backwardsAll rest ++ backwards t

end

/-- The variables that one node declares, with their types. -/
def variablesOf (unit : SourceUnit) (s : Symbols) (t : Tree) : List (String × Option String) :=
  match t.kind? with
  | some .formalParameters => parametersOf unit s t
  | some .localVariableDeclaration =>
    let type := mainType unit s (t.childAs? .type)
    (t.childrenAs .declarator).map fun d => (unit.declaredName d, type)
  | some .enhancedForStatement | some .resource =>
    (t.childAs? .name).toList.map fun n => (unit.text n, mainType unit s (t.childAs? .type))
  | some .catchFormalParameter =>
    let first := (t.namedChildren.find? (·.isA .catchType)).bind (·.namedChildren.head?)
    [(unit.declaredName t, mainType unit s first)]
  | some .lambdaExpression =>
    match t.childAs? .parameters with
    | some p =>
      if p.isA .identifier then [(unit.text p, none)]
      else if p.isA .inferredParameters then p.namedChildren.map fun n => (unit.text n, none)
      else []
    | none => []
  | some .instanceofExpression =>
    (t.childAs? .name).toList.map fun n => (unit.text n, mainType unit s (t.childAs? .right))
  | _ => []

/-- The parameters and local variables declared anywhere from a tree down. Where they are in
scope plays no part. -/
def localsOf (unit : SourceUnit) (s : Symbols) (t : Tree) : List (String × Option String) :=
  (backwards t).flatMap (variablesOf unit s)

/-- The scope of a place: the locals are those of the innermost member around it. -/
def scopeAt (unit : SourceUnit) (s : Symbols) (p : Place) : Scope :=
  let member := p.enclosingMembers.find? (·.kindIs Kind.isMemberDeclaration)
  ⟨unit.typesAround p, member.elim [] fun m => localsOf unit s m.node⟩

/-- The children of a node of the given kind whose bare names are values. -/
inductive ValueRoles where
  | every
  | these (roles : List Role)

/-- Which children of a node are values, if they are bare names. -/
def valueRoles? : Kind → Option ValueRoles
  | .assignmentExpression | .binaryExpression | .unaryExpression | .updateExpression
  | .parenthesizedExpression | .ternaryExpression | .argumentList | .arrayAccess
  | .arrayInitializer | .returnStatement | .throwStatement | .yieldStatement
  | .assertStatement | .dimensionsExpr => some .every
  | .methodInvocation | .fieldAccess => some (.these [.object])
  | .variableDeclarator | .enhancedForStatement | .resource | .castExpression
  | .elementValuePair => some (.these [.value])
  | .lambdaExpression => some (.these [.body])
  | .instanceofExpression => some (.these [.left])
  | .forStatement => some (.these [.condition])
  | _ => none

/-- Whether a bare name stands where a value is wanted. -/
def isValue (p : Place) : Bool :=
  match p.above with
  | [] => false
  | parent :: _ =>
    match parent.kind?.bind valueRoles? with
    | none => false
    | some .every => true
    | some (.these roles) => roles.any fun role => (parent.childAs? role).any (·.same p.node)

mutual

/-- An expression without the parentheses around it. -/
def bare : Tree → Tree
  | .token text start stop => .token text start stop
  | .node role kind start stop children =>
    if kind = .parenthesizedExpression then
      (bareFirst? children).getD (.node role kind start stop children)
    else .node role kind start stop children

/-- The first node among the parts of a parenthesized expression, itself without parentheses. -/
def bareFirst? : List Tree → Option Tree
  | [] => none
  | t :: rest => if t.isNamed then some (bare t) else bareFirst? rest

end

/-- Whether a text is at least two plain names with points between them. -/
def isDottedName (text : String) : Bool :=
  let names := Text.pieces (· = '.') text.toList
  names.length ≥ 2 && names.all fun name =>
    match name with
    | c :: rest =>
      (Category.isAsciiLetter c || c = '_' || c = '$') &&
        rest.all fun d => Category.isWord d || d = '$'
    | [] => false

/-- The type on which a member is looked up, given what stands before the point. -/
def receiverType (unit : SourceUnit) (s : Symbols) (scope : Scope) (receiver : Option Tree)
    (member : String) (isCall : Bool) : Option String :=
  match receiver.map bare with
  | none => s.declaringType scope.types member isCall
  | some t =>
    match t.kind? with
    | some .selfReference => s.declaringType scope.types member isCall
    | some .superReference => scope.types.head?.bind s.superClass
    | some .identifier =>
      let name := unit.text t
      if scope.hasLocal name then scope.localType name
      else
        match s.fieldOwner scope.types name with
        | some owner => s.fieldType owner name
        | none => if s.looksLikeType name then some (s.resolve name) else none
    | some .fieldAccess =>
      let field := unit.text? (t.childAs? .field)
      if (t.childAs? .object).any (·.isA .selfReference) then
        s.fieldType ((s.declaringType scope.types field false).getD "") field
      else
        let text := unit.text t
        if isDottedName text && isCapitalized field then some (s.resolve text) else none
    | some .objectCreationExpression | some .castExpression =>
      mainType unit s (t.childAs? .type)
    | _ => none

/-- What one node refers to by itself, the nodes below it aside. -/
def mentionsOf (unit : SourceUnit) (s : Symbols) (scope : Scope) (p : Place) : List Mention :=
  let t := p.node
  let types (part : Option Tree) : List Mention := (mentionedTypes unit s part).map .type
  match t.kind? with
  | some .methodInvocation =>
    let name := unit.text? (t.childAs? .name)
    let arity := (t.childAs? .arguments).elim 0 fun a =>
      (a.namedChildren.filter (!·.isComment)).length
    let receiver := t.childAs? .object
    let owner :=
      if receiver.isNone && !(scope.types.any (s.declaresMethod · name)) &&
          s.staticMembers.contains name then
        s.staticMembers.find? name
      else receiverType unit s scope receiver name true
    [.call ⟨owner, name, arity⟩]
  | some .objectCreationExpression | some .localVariableDeclaration
  | some .enhancedForStatement | some .resource | some .castExpression
  | some .arrayCreationExpression => types (t.childAs? .type)
  | some .explicitConstructorInvocation =>
    match scope.types.head? with
    | none => []
    | some type =>
      let target :=
        if (t.childAs? .callee).any (·.isA .superReference) then s.superClass type else some type
      (target.filter (· ≠ "")).toList.map .type
  | some .catchFormalParameter =>
    (t.namedChildren.filter (·.isA .catchType)).flatMap fun c => types (some c)
  | some .instanceofExpression => types (t.childAs? .right)
  | some .classLiteral => t.namedChildren.flatMap fun c => types (some c)
  | some .fieldAccess =>
    match t.childAs? .field with
    | some field =>
      if field.isA .identifier then
        let name := unit.text field
        let owner := receiverType unit s scope (t.childAs? .object) name false
        (owner.filter (· ≠ "")).toList.map fun o => .field (o ++ "." ++ name)
      else []
    | none => []
  | some .identifier =>
    let name := unit.text t
    if !isValue p || scope.hasLocal name then []
    else
      let owner := (s.fieldOwner scope.types name).orElse fun _ => s.staticMembers.find? name
      (owner.filter (· ≠ "")).toList.map fun o => .field (o ++ "." ++ name)
  | _ => []

/-- What everything from a place down refers to. Comments refer to nothing. -/
def mentionsFrom (unit : SourceUnit) (s : Symbols) (scope : Scope) (p : Place) : List Mention :=
  p.everything.flatMap (mentionsOf unit s scope)

/-- What a statement refers to, in the scope of its place. -/
def statementMentions (unit : SourceUnit) (s : Symbols) (p : Place) : List Mention :=
  mentionsFrom unit s (scopeAt unit s p) p

end ChangeSplit.Java
