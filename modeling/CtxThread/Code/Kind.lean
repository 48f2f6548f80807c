import CtxThread.Code.Sign

/-!
# Kinds of syntax nodes

A node of a syntax tree has a kind: the grammatical category it was built for, or the sign it
consists of. A child may also play a named part in its parent, such as the *body* of a
function.

## Main definitions

- `Code.Kind`: what a node is
- `Code.Kind.name`: the name it is listed under
- `Code.Role`: the part a child plays in its parent
-/

namespace CtxThread.Code

/-- What a syntax node is. -/
inductive Kind where
  | sourceFile | packageClause | importDeclaration | importSpecList | importSpec | dot
  | blankIdentifier | packageIdentifier | functionDeclaration | methodDeclaration
  | typeParameterList | typeParameterDeclaration | typeConstraint | negatedType | parameterList
  | parameterDeclaration | variadicParameterDeclaration | varDeclaration | varSpecList | varSpec
  | constDeclaration | constSpec | typeDeclaration | typeSpec | typeAlias | expressionList
  | typeIdentifier | qualifiedType | pointerType | parenthesizedType | sliceType | arrayType
  | implicitLengthArrayType | mapType | channelType | functionType | genericType | typeArguments
  | typeElem | structType | interfaceType | methodElem | fieldDeclarationList | fieldDeclaration
  | block | statementList | emptyStatement | labeledStatement | labelName | expressionStatement
  | sendStatement | incStatement | decStatement | assignmentStatement | shortVarDeclaration
  | returnStatement | goStatement | deferStatement | breakStatement | continueStatement
  | gotoStatement | fallthroughStatement | ifStatement | forStatement | forClause | rangeClause
  | expressionSwitchStatement | expressionCase | defaultCase | typeSwitchStatement | typeCase
  | selectStatement | communicationCase | receiveStatement | unaryExpression | binaryExpression
  | selectorExpression | indexExpression | sliceExpression | typeAssertionExpression
  | parenthesizedExpression | callExpression | argumentList | variadicArgument
  | typeConversionExpression | typeInstantiationExpression | compositeLiteral | literalValue
  | keyedElement | literalElement | funcLiteral | identifier | fieldIdentifier | nilValue
  | trueValue | falseValue | iotaValue | intLiteral | floatLiteral | imaginaryLiteral | runeLiteral
  | interpretedStringLiteral | interpretedStringLiteralContent | escapeSequence
  | rawStringLiteral | rawStringLiteralContent
  | comment
  | newline
  | sign (s : Sign)
  deriving DecidableEq

/-- The part a child plays in its parent. -/
inductive Role where
  | package | name | path | type | value | parameters | typeParameters | typeArguments | result
  | receiver | body | left | right | operator | operand | field | function | arguments | index
  | start | stop | capacity | element | length | key | label | tag | condition | consequence
  | alternative | initializer | update | binder | communication | channel
  deriving DecidableEq

namespace Kind

/-- The name a kind is listed under: its category in lower case, or its spelling. -/
def name : Kind → String
  | .sourceFile => "source_file"
  | .packageClause => "package_clause"
  | .importDeclaration => "import_declaration"
  | .importSpecList => "import_spec_list"
  | .importSpec => "import_spec"
  | .dot => "dot"
  | .blankIdentifier => "blank_identifier"
  | .packageIdentifier => "package_identifier"
  | .functionDeclaration => "function_declaration"
  | .methodDeclaration => "method_declaration"
  | .typeParameterList => "type_parameter_list"
  | .typeParameterDeclaration => "type_parameter_declaration"
  | .typeConstraint => "type_constraint"
  | .negatedType => "negated_type"
  | .parameterList => "parameter_list"
  | .parameterDeclaration => "parameter_declaration"
  | .variadicParameterDeclaration => "variadic_parameter_declaration"
  | .varDeclaration => "var_declaration"
  | .varSpecList => "var_spec_list"
  | .varSpec => "var_spec"
  | .constDeclaration => "const_declaration"
  | .constSpec => "const_spec"
  | .typeDeclaration => "type_declaration"
  | .typeSpec => "type_spec"
  | .typeAlias => "type_alias"
  | .expressionList => "expression_list"
  | .typeIdentifier => "type_identifier"
  | .qualifiedType => "qualified_type"
  | .pointerType => "pointer_type"
  | .parenthesizedType => "parenthesized_type"
  | .sliceType => "slice_type"
  | .arrayType => "array_type"
  | .implicitLengthArrayType => "implicit_length_array_type"
  | .mapType => "map_type"
  | .channelType => "channel_type"
  | .functionType => "function_type"
  | .genericType => "generic_type"
  | .typeArguments => "type_arguments"
  | .typeElem => "type_elem"
  | .structType => "struct_type"
  | .interfaceType => "interface_type"
  | .methodElem => "method_elem"
  | .fieldDeclarationList => "field_declaration_list"
  | .fieldDeclaration => "field_declaration"
  | .block => "block"
  | .statementList => "statement_list"
  | .emptyStatement => "empty_statement"
  | .labeledStatement => "labeled_statement"
  | .labelName => "label_name"
  | .expressionStatement => "expression_statement"
  | .sendStatement => "send_statement"
  | .incStatement => "inc_statement"
  | .decStatement => "dec_statement"
  | .assignmentStatement => "assignment_statement"
  | .shortVarDeclaration => "short_var_declaration"
  | .returnStatement => "return_statement"
  | .goStatement => "go_statement"
  | .deferStatement => "defer_statement"
  | .breakStatement => "break_statement"
  | .continueStatement => "continue_statement"
  | .gotoStatement => "goto_statement"
  | .fallthroughStatement => "fallthrough_statement"
  | .ifStatement => "if_statement"
  | .forStatement => "for_statement"
  | .forClause => "for_clause"
  | .rangeClause => "range_clause"
  | .expressionSwitchStatement => "expression_switch_statement"
  | .expressionCase => "expression_case"
  | .defaultCase => "default_case"
  | .typeSwitchStatement => "type_switch_statement"
  | .typeCase => "type_case"
  | .selectStatement => "select_statement"
  | .communicationCase => "communication_case"
  | .receiveStatement => "receive_statement"
  | .unaryExpression => "unary_expression"
  | .binaryExpression => "binary_expression"
  | .selectorExpression => "selector_expression"
  | .indexExpression => "index_expression"
  | .sliceExpression => "slice_expression"
  | .typeAssertionExpression => "type_assertion_expression"
  | .parenthesizedExpression => "parenthesized_expression"
  | .callExpression => "call_expression"
  | .argumentList => "argument_list"
  | .variadicArgument => "variadic_argument"
  | .typeConversionExpression => "type_conversion_expression"
  | .typeInstantiationExpression => "type_instantiation_expression"
  | .compositeLiteral => "composite_literal"
  | .literalValue => "literal_value"
  | .keyedElement => "keyed_element"
  | .literalElement => "literal_element"
  | .funcLiteral => "func_literal"
  | .identifier => "identifier"
  | .fieldIdentifier => "field_identifier"
  | .nilValue => "nil"
  | .trueValue => "true"
  | .falseValue => "false"
  | .iotaValue => "iota"
  | .intLiteral => "int_literal"
  | .floatLiteral => "float_literal"
  | .imaginaryLiteral => "imaginary_literal"
  | .runeLiteral => "rune_literal"
  | .interpretedStringLiteral => "interpreted_string_literal"
  | .interpretedStringLiteralContent => "interpreted_string_literal_content"
  | .escapeSequence => "escape_sequence"
  | .rawStringLiteral => "raw_string_literal"
  | .rawStringLiteralContent => "raw_string_literal_content"
  | .comment => "comment"
  | .newline => "\n"
  | .sign s => s.spelling

/-- Whether the kind is a grammatical category and not a mere sign. -/
def isNamed : Kind → Bool
  | .newline => false
  | .sign _ => false
  | _ => true

/-- The declarations of functions and methods. -/
def isFuncDecl (k : Kind) : Bool := k = .functionDeclaration || k = .methodDeclaration

/-- The declarations that a list of parameters holds. -/
def isParamDecl (k : Kind) : Bool :=
  k = .parameterDeclaration || k = .variadicParameterDeclaration

/-- Everything with parameters and a body: declarations and function literals. -/
def isFunc (k : Kind) : Bool := k.isFuncDecl || k = .funcLiteral

end Kind

end CtxThread.Code
