import ChangeSplit.Java.Pattern

/-! The grammar of Java sources. Operators are ranked by one rule per rank, from the loosest to the
tightest. Keywords are reserved only where they could be read as such, so a rule for names says
which words it leaves out. -/

namespace ChangeSplit.Java

/-- The rules of the grammar. -/
inductive Rule where
  | topLevel | statement | blockStatements | block
  | expression | ternary | disjunction | conjunction | bitDisjunction | bitExclusion
  | bitConjunction | equality | relation | shift | sum | product | stepped | prefixed
  | assignment | primary | atom | cast | lambda | switchExpression | parenthesized
  | creation | arrayCreation | arguments | arrayInitializer
  | typeArguments | wildcard | simpleType | classType | plainType | type | dimensions
  | typeParameters | typeList | annotationUse | annotationArguments | elementValue | modifiers
  | qualifiedName | formalParameters | parameter | throws | declarators | declarator
  | classBody | interfaceBody | enumBody | annotationBody | constructorBody
  | classMember | interfaceMember | annotationMember | enumConstant
  | superclass | superInterfaces | extendsInterfaces | permits
  | switchBlock | switchRule | switchGroup | switchLabel | casePattern | recordPattern
  | recordPatternBody | catchClause | finallyClause | resources | resource
deriving DecidableEq, Repr

namespace Grammar

open Pattern

/-- A pattern of the grammar. -/
abbrev P := Pattern Rule

/-- The names of the primitive types. -/
def primitiveNames : List String :=
  ["void", "byte", "short", "int", "long", "char", "float", "double", "boolean"]

/-- The keywords with which an expression can begin. -/
def expressionKeywords : List String :=
  ["this", "super", "new", "switch", "true", "false", "null"] ++ primitiveNames

/-- The keywords that can stand after a point. -/
def memberKeywords : List String := ["this", "super", "new", "class"]

/-- The words that are never names of types. -/
def keywords : List String := [
  "abstract", "assert", "break", "case", "catch", "class", "continue", "default", "do", "else",
  "enum", "extends", "final", "finally", "for", "if", "implements", "import", "instanceof",
  "interface", "native", "package", "private", "protected", "public", "return", "static",
  "strictfp", "synchronized", "throw", "throws", "transient", "try", "volatile", "while"] ++
  expressionKeywords

/-- The words that qualify a declaration. -/
def modifierWords : List String := [
  "public", "protected", "private", "abstract", "static", "final", "strictfp", "default",
  "synchronized", "native", "transient", "volatile", "sealed", "non-sealed"]

/-- The keywords with which the declaration of a member can begin. -/
def declarationKeywords : List String :=
  modifierWords ++ primitiveNames ++ ["class", "interface", "enum"]

/-- A name where nothing but a name can stand. -/
def identifier : P := name .identifier []

/-- The name that a declaration gives. -/
def declaredName : P := role .name identifier

/-- The name that a constructor gives, which begins the declaration. -/
def constructorName : P := role .name (name .identifier declarationKeywords)

/-- A name with which an expression begins. -/
def operandName : P := name .identifier expressionKeywords

/-- A name after a point. -/
def memberName : P := name .identifier memberKeywords

/-- The name of a type. -/
def typeName : P := name .typeIdentifier keywords

/-- A pattern between commas, with a comma at the end if wanted. -/
def commaList (p : P) : P := all [sepBy "," p, optional ","]

/-- Any of some keywords or marks. -/
def oneOf (texts : List String) : P := any (texts.map mark)

/-- A rank of operators that group to the left. -/
def leftRank (next : Rule) (operators : List P) : P :=
  wrap (rule next) (grow (node .binaryExpression
    (all [role .left pending, any operators, role .right (rule next)])))

/-- A declaration over the modifiers that are pending. -/
def declaration (kind : Kind) (ps : List P) : P := node kind (all (pending :: ps))

/-- The declarations of types, over pending modifiers. -/
def typeDeclarations : List P := [
  declaration .classDeclaration ["class", declaredName,
    optional (role .typeParameters (rule .typeParameters)),
    optional (role .superclass (rule .superclass)),
    optional (role .interfaces (rule .superInterfaces)),
    optional (role .permits (rule .permits)),
    role .body (rule .classBody)],
  declaration .interfaceDeclaration ["interface", declaredName,
    optional (role .typeParameters (rule .typeParameters)),
    optional (rule .extendsInterfaces),
    optional (role .permits (rule .permits)),
    role .body (rule .interfaceBody)],
  declaration .enumDeclaration ["enum", declaredName,
    optional (role .interfaces (rule .superInterfaces)),
    role .body (rule .enumBody)],
  declaration .recordDeclaration ["record", declaredName,
    optional (role .typeParameters (rule .typeParameters)),
    role .parameters (rule .formalParameters),
    optional (role .interfaces (rule .superInterfaces)),
    role .body (rule .classBody)],
  declaration .annotationTypeDeclaration ["@interface", declaredName,
    role .body (rule .annotationBody)]]

/-- The declaration of a method, over pending modifiers. -/
def methodDeclaration : P :=
  declaration .methodDeclaration [
    optional (all [role .typeParameters (rule .typeParameters), many (rule .annotationUse)]),
    role .type (rule .plainType), declaredName, role .parameters (rule .formalParameters),
    optional (role .dimensions (rule .dimensions)),
    optional (rule .throws),
    any [role .body (rule .block), ";"]]

/-- The declaration of variables of one type, over pending modifiers. -/
def declarators (kind : Kind) : P :=
  declaration kind [role .type (rule .plainType), rule .declarators, ";"]

/-- The name and dimensions of a variable. -/
def variableName : P := all [declaredName, optional (role .dimensions (rule .dimensions))]

/-- A body between braces. -/
def braced (kind : Kind) (p : P) : P := node kind (all ["\x7b", p, "\x7d"])

/-- A statement that is nothing but an expression. -/
def expressionStatement : P := node .expressionStatement (all [rule .expression, ";"])

/-- The operators of an assignment. -/
def assignmentOperators : List P := [
  joined [">", ">", ">", "="], joined [">", ">", "="], "<<=", "=", "+=", "-=", "*=", "/=", "&=",
  "|=", "^=", "%="]

/-- The statements that begin with a keyword of their own. -/
def keywordStatements : List P := [
  node .ifStatement (all ["if", role .condition (rule .parenthesized),
    role .consequence (rule .statement),
    optional (all ["else", role .alternative (rule .statement)])]),
  node .whileStatement (all ["while", role .condition (rule .parenthesized),
    role .body (rule .statement)]),
  node .enhancedForStatement (all ["for", "(", optional (rule .modifiers),
    role .type (rule .plainType), variableName, ":", role .value (rule .expression), ")",
    role .body (rule .statement)]),
  node .forStatement (all ["for", "(",
    any [role .initial (wrap (optional (rule .modifiers)) (declarators .localVariableDeclaration)),
      all [sepBy "," (role .initial (rule .expression)), ";"]],
    optional (role .condition (rule .expression)), ";",
    sepBy "," (role .update (rule .expression)), ")",
    role .body (rule .statement)]),
  node .doStatement (all ["do", role .body (rule .statement), "while",
    role .condition (rule .parenthesized), ";"]),
  node .tryWithResourcesStatement (all ["try", role .resources (rule .resources),
    role .body (rule .block), many (rule .catchClause), optional (rule .finallyClause)]),
  node .tryStatement (all ["try", role .body (rule .block),
    any [all [many1 (rule .catchClause), optional (rule .finallyClause)], rule .finallyClause]]),
  rule .switchExpression,
  node .synchronizedStatement (all ["synchronized", rule .parenthesized,
    role .body (rule .block)]),
  node .throwStatement (all ["throw", rule .expression, ";"]),
  node .returnStatement (all ["return", optional (rule .expression), ";"]),
  node .breakStatement (all ["break", optional identifier, ";"]),
  node .continueStatement (all ["continue", optional identifier, ";"]),
  node .assertStatement (all ["assert", rule .expression,
    optional (all [":", rule .expression]), ";"]),
  node .yieldStatement (all ["yield", rule .expression, ";"])]

/-- The declarations that stand among the packages and imports of a source. -/
def headings : List P := [
  node .packageDeclaration (all [many (rule .annotationUse), "package", rule .qualifiedName, ";"]),
  node .importDeclaration (all ["import", optional "static", rule .qualifiedName,
    optional (all [".", leaf .asterisk "*"]), ";"])]

/-- The parts that follow an operand and make a larger operand of it. -/
def selectors : List P := [
  node .methodInvocation (all [role .object pending, ".",
    optional (all [leaf .superReference "super", "."]),
    optional (role .typeArguments (rule .typeArguments)),
    role .name memberName, role .arguments (rule .arguments)]),
  node .objectCreationExpression (all [pending, ".", rule .creation]),
  node .fieldAccess (all [role .object pending,
    optional (all [".", leaf .superReference "super"]), ".",
    role .field (any [memberName, leaf .selfReference "this"])]),
  node .arrayAccess (all [role .array pending, "[", role .index (rule .expression), "]"]),
  node .methodReference (all [pending, "::", optional (rule .typeArguments),
    any ["new", identifier]])]

/-- A lambda expression with the given parameters. -/
def lambdaOver (parameters : P) : P :=
  node .lambdaExpression (all [role .parameters parameters, "->",
    role .body (any [rule .block, rule .expression])])

/-- A cast whose types pass the given test. What follows the closing parenthesis must not read
as a further operand unless the types can stand in no expression. -/
def castOver (types : P) (follow : P) : P :=
  node .castExpression (all ["(", types, ")", follow, role .value (rule .stepped)])

/-- Kinds of types that are no expressions. -/
def pureTypes : List Kind := [
  .voidType, .integralType, .floatingPointType, .booleanType, .arrayType, .genericType,
  .annotatedType]

/-- Operands that can be assigned to. -/
def assignable : List Kind := [.identifier, .fieldAccess, .arrayAccess]

/-- The pattern of each rule. -/
def java : Grammar Rule
  -- statements
  | .topLevel => any [rule .statement,
      wrap (optional (rule .modifiers)) methodDeclaration]
  | .block => braced .block (rule .blockStatements)
  | .blockStatements => many (rule .statement)
  | .statement => any (
      ([";", rule .block] : List P) ++ keywordStatements ++
      [node .labeledStatement (all [name .identifier keywords, ":", rule .statement])] ++
      headings ++
      [wrap (optional (rule .modifiers))
        (any (typeDeclarations ++ [declarators .localVariableDeclaration])),
       all [notAhead (oneOf (keywords.filter (!expressionKeywords.contains ·))),
        expressionStatement]])
  -- expressions
  | .expression => rule .ternary
  | .ternary => wrap (rule .disjunction) (any [
      node .ternaryExpression (all [role .condition pending, "?",
        role .consequence (rule .expression), ":", role .alternative (rule .ternary)]),
      pending])
  | .disjunction => leftRank .conjunction ["||"]
  | .conjunction => leftRank .bitDisjunction ["&&"]
  | .bitDisjunction => leftRank .bitExclusion ["|"]
  | .bitExclusion => leftRank .bitConjunction ["^"]
  | .bitConjunction => leftRank .equality ["&"]
  | .equality => leftRank .relation ["==", "!="]
  | .relation => wrap (rule .shift) (grow (any [
      node .binaryExpression (all [role .left pending,
        any ["<=", "<", joined [">", "="], ">"], role .right (rule .shift)]),
      node .instanceofExpression (all [role .left pending, "instanceof", optional "final",
        any [role .pattern (rule .recordPattern),
          all [role .right (rule .type), optional (role .name (name .identifier keywords))]]])]))
  | .shift => leftRank .sum ["<<", joined [">", ">", ">"], joined [">", ">"]]
  | .sum => leftRank .product ["+", "-"]
  | .product => leftRank .stepped ["*", "/", "%"]
  | .stepped => wrap (rule .prefixed) (grow
      (node .updateExpression (all [pending, any ["++", "--"]])))
  | .prefixed => any [
      node .updateExpression (all [any ["++", "--"], rule .prefixed]),
      node .unaryExpression (all [oneOf ["+", "-", "!", "~"], role .operand (rule .prefixed)]),
      rule .lambda, rule .cast, rule .switchExpression, rule .assignment]
  | .lambda => any [
      lambdaOver operandName,
      lambdaOver (node .inferredParameters (all ["(", sepBy1 "," identifier, ")"])),
      lambdaOver (rule .formalParameters)]
  | .cast => any [
      castOver (role .type (only pureTypes (rule .type))) empty,
      castOver (sepBy1 "&" (role .type (rule .type))) (notAhead (oneOf ["+", "-", "++", "--"]))]
  | .assignment => wrap (rule .primary) (any [
      node .assignmentExpression (all [role .left (only assignable pending),
        any assignmentOperators, role .right (rule .expression)]),
      pending])
  | .primary => wrap (rule .atom) (grow (any selectors))
  | .atom => any [
      literal,
      leaf .trueLiteral "true", leaf .falseLiteral "false", leaf .nullLiteral "null",
      node .classLiteral (all [rule .plainType, ".", "class"]),
      node .methodReference (all [only pureTypes (rule .plainType), "::",
        optional (rule .typeArguments), any ["new", identifier]]),
      leaf .selfReference "this",
      all [leaf .superReference "super", ahead (any [".", "::"])],
      rule .arrayCreation,
      node .objectCreationExpression (rule .creation),
      rule .parenthesized,
      node .methodInvocation (all [role .name operandName, role .arguments (rule .arguments)]),
      operandName]
  | .parenthesized => node .parenthesizedExpression (all ["(", rule .expression, ")"])
  | .creation => all ["new", many (rule .annotationUse), optional (rule .typeArguments),
      role .type (rule .simpleType), role .arguments (rule .arguments),
      optional (rule .classBody)]
  | .arrayCreation => node .arrayCreationExpression (all ["new", many (rule .annotationUse),
      role .type (rule .simpleType),
      any [
        all [
          role .dimensions (many1 (node .dimensionsExpr
            (all [many (rule .annotationUse), "[", rule .expression, "]"]))),
          optional (role .dimensions (rule .dimensions))],
        all [role .dimensions (rule .dimensions), role .value (rule .arrayInitializer)]]])
  | .arguments => node .argumentList (all ["(", sepBy "," (rule .expression), ")"])
  | .arrayInitializer => node .arrayInitializer
      (all ["\x7b", commaList (any [rule .arrayInitializer, rule .expression]), "\x7d"])
  | .switchExpression => node .switchExpression (all ["switch",
      role .condition (rule .parenthesized), role .body (rule .switchBlock)])
  | .switchBlock => any [
      braced .switchBlock (many1 (rule .switchRule)),
      braced .switchBlock (many (rule .switchGroup))]
  | .switchRule => node .switchRule (all [rule .switchLabel, "->",
      any [rule .block, node .throwStatement (all ["throw", rule .expression, ";"]),
        expressionStatement]])
  | .switchGroup => node .switchBlockStatementGroup
      (all [rule .switchLabel, ":", rule .blockStatements])
  | .switchLabel => node .switchLabel (any [
      all ["case",
        any [rule .casePattern,
          sepBy1 "," (any [
            "default",
            all [operandName, ahead (any ["->", ":", ","])],
            all [rule .parenthesized, ahead (any ["->", ":", ","])],
            rule .ternary])],
        optional (node .guard (all ["when", rule .expression]))],
      "default"])
  | .casePattern => node .pattern (any [
      rule .recordPattern,
      node .typePattern (all [rule .plainType, name .identifier keywords])])
  | .recordPattern => node .recordPattern (all [
      any [only [.genericType] (rule .classType), name .identifier keywords],
      rule .recordPatternBody])
  | .recordPatternBody => node .recordPatternBody (all ["(",
      sepBy "," (any [
        rule .recordPattern,
        node .recordPatternComponent (any [
          all [rule .plainType, name .identifier keywords],
          leaf .underscorePattern "_"])]),
      ")"])
  | .catchClause => node .catchClause (all ["catch", "(",
      node .catchFormalParameter (all [optional (rule .modifiers),
        node .catchType (sepBy1 "|" (rule .plainType)), variableName]),
      ")", role .body (rule .block)])
  | .finallyClause => node .finallyClause (all ["finally", rule .block])
  | .resources => node .resourceSpecification (all ["(", sepBy1 ";" (rule .resource),
      optional ";", ")"])
  | .resource => node .resource (any [
      all [optional (rule .modifiers), role .type (rule .plainType), variableName, "=",
        role .value (rule .expression)],
      only [.identifier, .fieldAccess] (rule .primary)])
  -- types
  | .type => any [
      node .annotatedType (all [many1 (rule .annotationUse), rule .plainType]),
      rule .plainType]
  | .plainType => wrap (rule .simpleType) (any [
      node .arrayType (all [role .element pending, role .dimensions (rule .dimensions)]),
      pending])
  | .simpleType => any [
      leaf .voidType "void",
      node .integralType (oneOf ["byte", "short", "int", "long", "char"]),
      node .floatingPointType (oneOf ["float", "double"]),
      leaf .booleanType "boolean",
      rule .classType]
  | .classType => wrap typeName (grow (any [
      node .genericType (all [
        only [.typeIdentifier, .scopedTypeIdentifier] pending, rule .typeArguments]),
      node .scopedTypeIdentifier (all [pending, ".", many (rule .annotationUse), typeName])]))
  | .typeArguments => node .typeArguments (all ["<",
      sepBy "," (any [rule .wildcard, rule .type]), ">"])
  | .wildcard => node .wildcard (all [many (rule .annotationUse), "?",
      optional (any [all ["extends", rule .type],
        all [leaf .superReference "super", rule .type]])])
  | .dimensions => node .dimensions (many1 (all [many (rule .annotationUse), "[", "]"]))
  | .typeParameters => node .typeParameters (all ["<",
      sepBy1 "," (node .typeParameter (all [many (rule .annotationUse), typeName,
        optional (node .typeBound (all ["extends", sepBy1 "&" (rule .type)]))])), ">"])
  | .typeList => node .typeList (sepBy1 "," (rule .type))
  -- annotations and modifiers
  | .annotationUse => any [
      node .annotationUse (all ["@", role .name (rule .qualifiedName),
        role .arguments (rule .annotationArguments)]),
      node .markerAnnotationUse (all ["@", role .name (rule .qualifiedName)])]
  | .annotationArguments => node .annotationArgumentList (all ["(",
      any [
        sepBy1 "," (node .elementValuePair (all [role .key identifier, "=",
          role .value (rule .elementValue)])),
        optional (rule .elementValue)],
      ")"])
  | .elementValue => any [
      node .elementValueArrayInitializer (all ["\x7b", commaList (rule .elementValue), "\x7d"]),
      rule .annotationUse, rule .expression]
  | .modifiers => node .modifiers (many1 (any [rule .annotationUse, oneOf modifierWords]))
  | .qualifiedName => wrap identifier (grow (node .scopedIdentifier
      (all [role .scope pending, ".", role .name identifier])))
  -- declarations
  | .formalParameters => node .formalParameters (all ["(",
      any [
        all [
          node .receiverParameter (all [many (rule .annotationUse), rule .plainType,
            many (all [identifier, "."]), leaf .selfReference "this"]),
          many (all [",", rule .parameter])],
        sepBy "," (rule .parameter)],
      ")"])
  | .parameter => wrap (optional (rule .modifiers)) (any [
      declaration .formalParameter [role .type (rule .plainType), variableName],
      declaration .spreadParameter [rule .plainType, "...", many (rule .annotationUse),
        node .variableDeclarator variableName]])
  | .throws => node .throws (all ["throws", sepBy1 "," (rule .type)])
  | .declarators => sepBy1 "," (role .declarator (rule .declarator))
  | .declarator => node .variableDeclarator (all [variableName,
      optional (all ["=", role .value (any [rule .arrayInitializer, rule .expression])])])
  | .superclass => node .superclass (all ["extends", rule .type])
  | .superInterfaces => node .superInterfaces (all ["implements", rule .typeList])
  | .extendsInterfaces => node .extendsInterfaces (all ["extends", rule .typeList])
  | .permits => node .permits (all ["permits", rule .typeList])
  | .classBody => braced .classBody (many (rule .classMember))
  | .classMember => any [
      ";", rule .block,
      node .staticInitializer (all ["static", rule .block]),
      wrap (optional (rule .modifiers)) (any (typeDeclarations ++ [
        methodDeclaration,
        declarators .fieldDeclaration,
        declaration .constructorDeclaration [
          optional (role .typeParameters (rule .typeParameters)), constructorName,
          role .parameters (rule .formalParameters), optional (rule .throws),
          role .body (rule .constructorBody)],
        declaration .compactConstructorDeclaration [constructorName, role .body (rule .block)]]))]
  | .constructorBody => braced .constructorBody (all [
      optional (node .explicitConstructorInvocation (all [
        any [
          all [optional (role .typeArguments (rule .typeArguments)),
            role .callee (any [leaf .selfReference "this", leaf .superReference "super"]),
            ahead "("],
          all [role .object (rule .primary), ".",
            optional (role .typeArguments (rule .typeArguments)),
            role .callee (leaf .superReference "super")]],
        role .arguments (rule .arguments), ";"])),
      rule .blockStatements])
  | .interfaceBody => braced .interfaceBody (many (rule .interfaceMember))
  | .interfaceMember => any [
      ";",
      wrap (optional (rule .modifiers)) (any (typeDeclarations ++ [
        methodDeclaration, declarators .constantDeclaration]))]
  | .annotationBody => braced .annotationTypeBody (many (rule .annotationMember))
  | .annotationMember => any [
      ";",
      wrap (optional (rule .modifiers)) (any (typeDeclarations ++ [
        declaration .annotationTypeElementDeclaration [
          role .type (rule .plainType), declaredName, "(", ")",
          optional (role .dimensions (rule .dimensions)),
          optional (all ["default", role .value (rule .elementValue)]), ";"],
        declarators .constantDeclaration]))]
  | .enumBody => braced .enumBody (all [
      commaList (rule .enumConstant),
      optional (node .enumBodyDeclarations (all [";", many (rule .classMember)]))])
  | .enumConstant => node .enumConstant (all [optional (rule .modifiers), declaredName,
      optional (role .arguments (rule .arguments)),
      optional (role .body (rule .classBody))])

end Grammar

end ChangeSplit.Java
