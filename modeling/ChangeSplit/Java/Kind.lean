/-! The kinds of the nodes of a Java syntax tree, the roles that nodes play in their parents, and
the names under which both are shown. -/

namespace ChangeSplit.Java

/-- What a node of a syntax tree is. -/
inductive Kind where
  | annotatedType | annotationUse | annotationArgumentList | annotationTypeBody
  | annotationTypeDeclaration | annotationTypeElementDeclaration | argumentList | arrayAccess
  | arrayCreationExpression | arrayInitializer | arrayType | assertStatement
  | assignmentExpression | asterisk | binaryExpression | binaryIntegerLiteral | block
  | blockComment | booleanType | breakStatement | castExpression | catchClause
  | catchFormalParameter | catchType | characterLiteral | classBody | classDeclaration
  | classLiteral | compactConstructorDeclaration | constantDeclaration | constructorBody
  | constructorDeclaration | continueStatement | decimalFloatingPointLiteral
  | decimalIntegerLiteral | dimensions | dimensionsExpr | doStatement
  | elementValueArrayInitializer | elementValuePair | enhancedForStatement | enumBody
  | enumBodyDeclarations | enumConstant | enumDeclaration | escapeSequence
  | explicitConstructorInvocation | expressionStatement | extendsInterfaces | falseLiteral
  | fieldAccess | fieldDeclaration | finallyClause | floatingPointType | forStatement
  | formalParameter | formalParameters | genericType | guard | hexFloatingPointLiteral
  | hexIntegerLiteral | identifier | ifStatement | importDeclaration | inferredParameters
  | instanceofExpression | integralType | interfaceBody | interfaceDeclaration | labeledStatement
  | lambdaExpression | lineComment | localVariableDeclaration | markerAnnotationUse
  | methodDeclaration | methodInvocation | methodReference | modifiers | multilineStringFragment
  | nullLiteral | objectCreationExpression | octalIntegerLiteral | packageDeclaration
  | parenthesizedExpression | pattern | permits | program | receiverParameter | recordDeclaration
  | recordPattern | recordPatternBody | recordPatternComponent | resource | resourceSpecification
  | returnStatement | scopedIdentifier | scopedTypeIdentifier | spreadParameter
  | staticInitializer | stringFragment | stringLiteral | superReference | superInterfaces
  | superclass | switchBlock | switchBlockStatementGroup | switchExpression | switchLabel
  | switchRule | synchronizedStatement | ternaryExpression | selfReference | throwStatement
  | throws | trueLiteral | tryStatement | tryWithResourcesStatement | typeArguments | typeBound
  | typeIdentifier | typeList | typeParameter | typeParameters | typePattern | unaryExpression
  | underscorePattern | updateExpression | variableDeclarator | voidType | whileStatement
  | wildcard | yieldStatement
deriving DecidableEq, Repr, Inhabited

/-- The name of a kind of node. -/
def Kind.name : Kind → String
  | .annotatedType => "annotated_type"
  | .annotationUse => "annotation"
  | .annotationArgumentList => "annotation_argument_list"
  | .annotationTypeBody => "annotation_type_body"
  | .annotationTypeDeclaration => "annotation_type_declaration"
  | .annotationTypeElementDeclaration => "annotation_type_element_declaration"
  | .argumentList => "argument_list"
  | .arrayAccess => "array_access"
  | .arrayCreationExpression => "array_creation_expression"
  | .arrayInitializer => "array_initializer"
  | .arrayType => "array_type"
  | .assertStatement => "assert_statement"
  | .assignmentExpression => "assignment_expression"
  | .asterisk => "asterisk"
  | .binaryExpression => "binary_expression"
  | .binaryIntegerLiteral => "binary_integer_literal"
  | .block => "block"
  | .blockComment => "block_comment"
  | .booleanType => "boolean_type"
  | .breakStatement => "break_statement"
  | .castExpression => "cast_expression"
  | .catchClause => "catch_clause"
  | .catchFormalParameter => "catch_formal_parameter"
  | .catchType => "catch_type"
  | .characterLiteral => "character_literal"
  | .classBody => "class_body"
  | .classDeclaration => "class_declaration"
  | .classLiteral => "class_literal"
  | .compactConstructorDeclaration => "compact_constructor_declaration"
  | .constantDeclaration => "constant_declaration"
  | .constructorBody => "constructor_body"
  | .constructorDeclaration => "constructor_declaration"
  | .continueStatement => "continue_statement"
  | .decimalFloatingPointLiteral => "decimal_floating_point_literal"
  | .decimalIntegerLiteral => "decimal_integer_literal"
  | .dimensions => "dimensions"
  | .dimensionsExpr => "dimensions_expr"
  | .doStatement => "do_statement"
  | .elementValueArrayInitializer => "element_value_array_initializer"
  | .elementValuePair => "element_value_pair"
  | .enhancedForStatement => "enhanced_for_statement"
  | .enumBody => "enum_body"
  | .enumBodyDeclarations => "enum_body_declarations"
  | .enumConstant => "enum_constant"
  | .enumDeclaration => "enum_declaration"
  | .escapeSequence => "escape_sequence"
  | .explicitConstructorInvocation => "explicit_constructor_invocation"
  | .expressionStatement => "expression_statement"
  | .extendsInterfaces => "extends_interfaces"
  | .falseLiteral => "false"
  | .fieldAccess => "field_access"
  | .fieldDeclaration => "field_declaration"
  | .finallyClause => "finally_clause"
  | .floatingPointType => "floating_point_type"
  | .forStatement => "for_statement"
  | .formalParameter => "formal_parameter"
  | .formalParameters => "formal_parameters"
  | .genericType => "generic_type"
  | .guard => "guard"
  | .hexFloatingPointLiteral => "hex_floating_point_literal"
  | .hexIntegerLiteral => "hex_integer_literal"
  | .identifier => "identifier"
  | .ifStatement => "if_statement"
  | .importDeclaration => "import_declaration"
  | .inferredParameters => "inferred_parameters"
  | .instanceofExpression => "instanceof_expression"
  | .integralType => "integral_type"
  | .interfaceBody => "interface_body"
  | .interfaceDeclaration => "interface_declaration"
  | .labeledStatement => "labeled_statement"
  | .lambdaExpression => "lambda_expression"
  | .lineComment => "line_comment"
  | .localVariableDeclaration => "local_variable_declaration"
  | .markerAnnotationUse => "marker_annotation"
  | .methodDeclaration => "method_declaration"
  | .methodInvocation => "method_invocation"
  | .methodReference => "method_reference"
  | .modifiers => "modifiers"
  | .multilineStringFragment => "multiline_string_fragment"
  | .nullLiteral => "null_literal"
  | .objectCreationExpression => "object_creation_expression"
  | .octalIntegerLiteral => "octal_integer_literal"
  | .packageDeclaration => "package_declaration"
  | .parenthesizedExpression => "parenthesized_expression"
  | .pattern => "pattern"
  | .permits => "permits"
  | .program => "program"
  | .receiverParameter => "receiver_parameter"
  | .recordDeclaration => "record_declaration"
  | .recordPattern => "record_pattern"
  | .recordPatternBody => "record_pattern_body"
  | .recordPatternComponent => "record_pattern_component"
  | .resource => "resource"
  | .resourceSpecification => "resource_specification"
  | .returnStatement => "return_statement"
  | .scopedIdentifier => "scoped_identifier"
  | .scopedTypeIdentifier => "scoped_type_identifier"
  | .spreadParameter => "spread_parameter"
  | .staticInitializer => "static_initializer"
  | .stringFragment => "string_fragment"
  | .stringLiteral => "string_literal"
  | .superReference => "super"
  | .superInterfaces => "super_interfaces"
  | .superclass => "superclass"
  | .switchBlock => "switch_block"
  | .switchBlockStatementGroup => "switch_block_statement_group"
  | .switchExpression => "switch_expression"
  | .switchLabel => "switch_label"
  | .switchRule => "switch_rule"
  | .synchronizedStatement => "synchronized_statement"
  | .ternaryExpression => "ternary_expression"
  | .selfReference => "this"
  | .throwStatement => "throw_statement"
  | .throws => "throws"
  | .trueLiteral => "true"
  | .tryStatement => "try_statement"
  | .tryWithResourcesStatement => "try_with_resources_statement"
  | .typeArguments => "type_arguments"
  | .typeBound => "type_bound"
  | .typeIdentifier => "type_identifier"
  | .typeList => "type_list"
  | .typeParameter => "type_parameter"
  | .typeParameters => "type_parameters"
  | .typePattern => "type_pattern"
  | .unaryExpression => "unary_expression"
  | .underscorePattern => "underscore_pattern"
  | .updateExpression => "update_expression"
  | .variableDeclarator => "variable_declarator"
  | .voidType => "void_type"
  | .whileStatement => "while_statement"
  | .wildcard => "wildcard"
  | .yieldStatement => "yield_statement"

/-- What a node is to its parent. -/
inductive Role where
  | alternative | arguments | array | body | condition | consequence | callee | declarator
  | dimensions | element | field | index | initial | interfaces | key | left | name | object
  | operand | parameters | pattern | permits | resources | right | scope | superclass | type
  | typeArguments | typeParameters | update | value
deriving DecidableEq, Repr

/-- The name of a role. -/
def Role.label : Role → String
  | .alternative => "alternative"
  | .arguments => "arguments"
  | .array => "array"
  | .body => "body"
  | .condition => "condition"
  | .consequence => "consequence"
  | .callee => "constructor"
  | .declarator => "declarator"
  | .dimensions => "dimensions"
  | .element => "element"
  | .field => "field"
  | .index => "index"
  | .initial => "init"
  | .interfaces => "interfaces"
  | .key => "key"
  | .left => "left"
  | .name => "name"
  | .object => "object"
  | .operand => "operand"
  | .parameters => "parameters"
  | .pattern => "pattern"
  | .permits => "permits"
  | .resources => "resources"
  | .right => "right"
  | .scope => "scope"
  | .superclass => "superclass"
  | .type => "type"
  | .typeArguments => "type_arguments"
  | .typeParameters => "type_parameters"
  | .update => "update"
  | .value => "value"

namespace Kind

/-- Declarations of types of every sort. -/
def isTypeDeclaration : Kind → Bool
  | .classDeclaration | .interfaceDeclaration | .enumDeclaration | .recordDeclaration
  | .annotationTypeDeclaration => true
  | _ => false

/-- Declarations of types that classes implement and do not extend. -/
def isInterfaceDeclaration : Kind → Bool
  | .interfaceDeclaration | .annotationTypeDeclaration => true
  | _ => false

/-- Declarations of fields, constants of interfaces included. -/
def isFieldDeclaration : Kind → Bool
  | .fieldDeclaration | .constantDeclaration => true
  | _ => false

/-- Declarations of methods and of constructors with a parameter list. -/
def isMethodDeclaration : Kind → Bool
  | .methodDeclaration | .constructorDeclaration => true
  | _ => false

/-- Declarations of the members of a type that are not types themselves. -/
def isMemberDeclaration (k : Kind) : Bool :=
  k.isFieldDeclaration || k.isMethodDeclaration || k = .enumConstant

/-- Declarations that a type can have as its members. -/
def isDeclaration (k : Kind) : Bool := k.isMemberDeclaration || k.isTypeDeclaration

/-- The bodies of type declarations, and the part of an enumeration's body that holds its
members. -/
def isTypeBody : Kind → Bool
  | .classBody | .interfaceBody | .enumBody | .enumBodyDeclarations | .annotationTypeBody => true
  | _ => false

/-- Statements, among them the switch that is written as one. -/
def isStatement : Kind → Bool
  | .block | .expressionStatement | .localVariableDeclaration | .explicitConstructorInvocation
  | .ifStatement | .whileStatement | .forStatement | .enhancedForStatement | .doStatement
  | .returnStatement | .throwStatement | .tryStatement | .tryWithResourcesStatement
  | .switchExpression | .synchronizedStatement | .labeledStatement | .assertStatement
  | .breakStatement | .continueStatement | .yieldStatement => true
  | _ => false

/-- Comments of both sorts. -/
def isComment : Kind → Bool
  | .lineComment | .blockComment => true
  | _ => false

/-- Names of types, with and without a qualifier. -/
def isTypeName : Kind → Bool
  | .typeIdentifier | .scopedTypeIdentifier => true
  | _ => false

/-- Names of packages and of imported things. -/
def isName : Kind → Bool
  | .identifier | .scopedIdentifier => true
  | _ => false

end Kind

end ChangeSplit.Java
