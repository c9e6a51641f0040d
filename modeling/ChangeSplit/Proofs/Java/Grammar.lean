import ChangeSplit.Java.Source
import ChangeSplit.Proofs.Java.Shape

/-! What the grammar of Java sources gives: the shapes of trees for each rule, and from them what
stands below what in the tree of any source. -/

namespace ChangeSplit.Java

namespace Grammar

/-- The kinds of expressions that bind most tightly. -/
def operandKinds : List Kind := Kind.literals ++ [
  .trueLiteral, .falseLiteral, .nullLiteral, .classLiteral, .methodReference, .selfReference,
  .superReference, .arrayCreationExpression, .objectCreationExpression, .parenthesizedExpression,
  .methodInvocation, .identifier, .fieldAccess, .arrayAccess]

/-- The kinds of expressions. -/
def expressionKinds : List Kind := operandKinds ++ [
  .assignmentExpression, .switchExpression, .castExpression, .lambdaExpression, .unaryExpression,
  .updateExpression, .binaryExpression, .instanceofExpression, .ternaryExpression]

/-- The kinds of names of classes and interfaces, with or without type arguments. -/
def classTypeKinds : List Kind := [.typeIdentifier, .genericType, .scopedTypeIdentifier]

/-- The kinds of types that are no arrays. -/
def simpleTypeKinds : List Kind :=
  [.voidType, .integralType, .floatingPointType, .booleanType] ++ classTypeKinds

/-- The kinds of declarations of types. -/
def typeDeclarationKinds : List Kind := [
  .classDeclaration, .interfaceDeclaration, .enumDeclaration, .recordDeclaration,
  .annotationTypeDeclaration]

/-- The kinds of statements, with the declarations that can stand among them. -/
def statementKinds : List Kind := typeDeclarationKinds ++ [
  .block, .ifStatement, .whileStatement, .enhancedForStatement, .forStatement, .doStatement,
  .tryWithResourcesStatement, .tryStatement, .switchExpression, .synchronizedStatement,
  .throwStatement, .returnStatement, .breakStatement, .continueStatement, .assertStatement,
  .yieldStatement, .labeledStatement, .packageDeclaration, .importDeclaration,
  .localVariableDeclaration, .expressionStatement]

/-- The shapes of bare tokens and of nodes of some kinds in no role. -/
def orToken (kinds : List Kind) : List Shape := {} :: kinds.map .plain

/-- The shapes of the trees that a rule can give. -/
def shapes : Rule → List Shape
  | .topLevel => orToken (.methodDeclaration :: statementKinds)
  | .statement | .blockStatements => orToken statementKinds
  | .expression | .ternary | .disjunction | .conjunction | .bitDisjunction | .bitExclusion
  | .bitConjunction | .equality | .relation | .shift | .sum | .product | .stepped | .prefixed =>
    expressionKinds.map .plain
  | .assignment => (.assignmentExpression :: operandKinds).map .plain
  | .primary | .atom => operandKinds.map .plain
  | .creation => orToken [.annotationUse, .markerAnnotationUse, .typeArguments, .classBody] ++
      simpleTypeKinds.map (⟨some .type, some ·⟩) ++ [⟨some .arguments, some .argumentList⟩]
  | .simpleType => simpleTypeKinds.map .plain
  | .classType => classTypeKinds.map .plain
  | .plainType => (.arrayType :: simpleTypeKinds).map .plain
  | .type => (.annotatedType :: .arrayType :: simpleTypeKinds).map .plain
  | .annotationUse => [.plain .annotationUse, .plain .markerAnnotationUse]
  | .elementValue => (.elementValueArrayInitializer :: .annotationUse :: .markerAnnotationUse ::
      expressionKinds).map .plain
  | .qualifiedName => [.plain .identifier, .plain .scopedIdentifier]
  | .parameter => [.plain .formalParameter, .plain .spreadParameter]
  | .declarators => [{}, ⟨some .declarator, some .variableDeclarator⟩]
  | .classMember => orToken (typeDeclarationKinds ++ [.block, .staticInitializer,
      .methodDeclaration, .fieldDeclaration, .constructorDeclaration,
      .compactConstructorDeclaration])
  | .interfaceMember => orToken (typeDeclarationKinds ++ [.methodDeclaration,
      .constantDeclaration])
  | .annotationMember => orToken (typeDeclarationKinds ++ [.annotationTypeElementDeclaration,
      .constantDeclaration])
  | .block => [.plain .block]
  | .cast => [.plain .castExpression]
  | .lambda => [.plain .lambdaExpression]
  | .switchExpression => [.plain .switchExpression]
  | .parenthesized => [.plain .parenthesizedExpression]
  | .arrayCreation => [.plain .arrayCreationExpression]
  | .arguments => [.plain .argumentList]
  | .arrayInitializer => [.plain .arrayInitializer]
  | .typeArguments => [.plain .typeArguments]
  | .wildcard => [.plain .wildcard]
  | .dimensions => [.plain .dimensions]
  | .typeParameters => [.plain .typeParameters]
  | .typeList => [.plain .typeList]
  | .annotationArguments => [.plain .annotationArgumentList]
  | .modifiers => [.plain .modifiers]
  | .formalParameters => [.plain .formalParameters]
  | .throws => [.plain .throws]
  | .declarator => [.plain .variableDeclarator]
  | .classBody => [.plain .classBody]
  | .interfaceBody => [.plain .interfaceBody]
  | .enumBody => [.plain .enumBody]
  | .annotationBody => [.plain .annotationTypeBody]
  | .constructorBody => [.plain .constructorBody]
  | .enumConstant => [.plain .enumConstant]
  | .superclass => [.plain .superclass]
  | .superInterfaces => [.plain .superInterfaces]
  | .extendsInterfaces => [.plain .extendsInterfaces]
  | .permits => [.plain .permits]
  | .switchBlock => [.plain .switchBlock]
  | .switchRule => [.plain .switchRule]
  | .switchGroup => [.plain .switchBlockStatementGroup]
  | .switchLabel => [.plain .switchLabel]
  | .casePattern => [.plain .pattern]
  | .recordPattern => [.plain .recordPattern]
  | .recordPatternBody => [.plain .recordPatternBody]
  | .catchClause => [.plain .catchClause]
  | .finallyClause => [.plain .finallyClause]
  | .resources => [.plain .resourceSpecification]
  | .resource => [.plain .resource]

/-- Names are single words, other than those of annotations. Only variables are declarators. -/
def namesWords : Schema where
  allows kind s :=
    (s.role ≠ some .name || kind = .annotationUse || kind = .markerAnnotationUse ||
      s.kind = some .identifier) &&
    (s.role ≠ some .declarator || s.kind = some .variableDeclarator)
  comment _ _ _ := rfl
  piece _ _ _ _ := rfl

theorem shapes?_java (r : Rule) :
    (Pattern.shapes? namesWords shapes none (java r)).any (·.all (shapes r).contains) = true := by
  cases r <;> decide +kernel

/-- No rule gives a tree of a shape that is not listed for it. -/
theorem exists_shapes (r : Rule) :
    ∃ s, Pattern.shapes? namesWords shapes none (java r) = some s ∧ ∀ x ∈ s, x ∈ shapes r := by
  obtain ⟨s, hShapes, hAll⟩ := (Option.any_eq_true _ _).1 (shapes?_java r)
  exact ⟨s, hShapes, fun x hx => List.contains_iff_mem.1 (List.all_eq_true.1 hAll x hx)⟩

end Grammar

/-- What holds of the trees that are read, and outlasts the comments, holds of the whole tree. -/
theorem treeOf?_induction_of_start {P : Tree → Prop} {length : Nat} {tokens : List Token}
    {root : Tree} (h : treeOf? length tokens = some root)
    (hTop : ∀ trees, Pattern.Reads Grammar.java (.many (.rule .topLevel)) []
      (tokens.filter (!·.isComment)) trees [] →
      P (.node none .program ((tokens.head?.map (·.start)).getD length) length trees))
    (hInsert : ∀ tree, P tree → ∀ t ∈ tokens, ∀ kind, t.lexeme = .comment kind →
      P (Tree.insert (.node none kind t.start t.stop []) tree)) : P root := by
  unfold treeOf? at h
  extract_lets solid at h
  split at h
  case h_2 => cases h
  case h_1 trees hRead =>
    cases h
    refine List.foldlRecOn (motive := P) tokens _ ?_ ?_
    · exact hTop _ (Pattern.reads_of_read hRead)
    · intro tree hTree t ht
      split
      case h_1 kind hComment => exact hInsert tree hTree t ht kind hComment
      case h_2 => exact hTree

/-- Mostly it does not matter where the tree begins. -/
theorem treeOf?_induction {P : Tree → Prop} {length : Nat} {tokens : List Token} {root : Tree}
    (h : treeOf? length tokens = some root)
    (hTop : ∀ trees start, Pattern.Reads Grammar.java (.many (.rule .topLevel)) []
      (tokens.filter (!·.isComment)) trees [] → P (.node none .program start length trees))
    (hInsert : ∀ tree, P tree → ∀ t ∈ tokens, ∀ kind, t.lexeme = .comment kind →
      P (Tree.insert (.node none kind t.start t.stop []) tree)) : P root :=
  treeOf?_induction_of_start h (fun trees hReads => hTop trees _ hReads) hInsert

/-- The tree of a source conforms to a schema that the grammar keeps to, and the words in it are
tokens of the source. -/
theorem conforms_treeOf? {schema : Schema} {length : Nat} {tokens : List Token} {root : Tree}
    (hSchema : ∀ r, ∃ s, Pattern.shapes? schema Grammar.shapes none (Grammar.java r) = some s ∧
      ∀ x ∈ s, x ∈ Grammar.shapes r)
    (hTop : ∀ s ∈ Grammar.shapes .topLevel, schema.allows .program s = true)
    (hRegular : ∀ t ∈ tokens, t.lexeme.Regular t.parts) (h : treeOf? length tokens = some root) :
    root.Conforms schema tokens := by
  apply treeOf?_induction h
  · intro trees start hReads
    have hShapes : Pattern.shapes? schema Grammar.shapes none (.many (.rule .topLevel)) =
        some (Grammar.shapes .topLevel) := rfl
    have hFit := hReads.fit hSchema hRegular hShapes (fun _ hNone => by cases hNone)
      List.filter_sublist.subset
    exact .node (fun c hc => hTop _ (hFit c hc).1) (fun c hc => (hFit c hc).2)
      (fun hWord => by cases hWord)
  · intro tree hTree t ht kind hComment
    have hKind := (hRegular t ht).comment kind hComment
    refine .insert (.node (List.forall_mem_nil _) (List.forall_mem_nil _) fun hWord => ?_)
      rfl hKind tree hTree
    rw [Kind.isWord_of_isComment hKind] at hWord
    cases hWord

theorem conforms_of_treeOf? {length : Nat} {tokens : List Token} {root : Tree}
    (hRegular : ∀ t ∈ tokens, t.lexeme.Regular t.parts) (h : treeOf? length tokens = some root) :
    root.Conforms Grammar.namesWords tokens :=
  conforms_treeOf? Grammar.exists_shapes (by decide) hRegular h

end ChangeSplit.Java
