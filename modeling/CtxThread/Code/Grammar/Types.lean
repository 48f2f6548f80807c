import CtxThread.Code.Grammar.Basic

/-!
# The grammar of types

Types, parameter lists and type parameters.
-/

namespace CtxThread.Code.Grammar

open Rule

/-- A member of a union of types: `T`, or `~T` for all types with the underlying type `T`. -/
def unionMember (lined : Bool) : Production :=
  .alt (.node .negatedType (.seq (sign .tilde) (type lined))) (type lined)

/-- A union of types. -/
def union (lined : Bool) : Production :=
  .seq (unionMember lined) (.many (.seq (hereSign lined .bar) (unionMember lined)))

/-- An element of type arguments or of an interface. -/
def typeElem (lined : Bool) : Production := .node .typeElem (union lined)

/-- Type arguments in brackets. -/
def typeArguments : Production :=
  .node .typeArguments
    (chain [sign .lbracket, commaList (typeElem false), sign .rbracket])

/-- A name after its package. -/
def qualifiedType (word : Kind → Production) (lined : Bool) : Production :=
  .node .qualifiedType
    (chain [.role .package (word .packageIdentifier), hereSign lined .dot,
      .role .name (name .typeIdentifier)])

/-- The name of a type, perhaps after its package. -/
def plainTypeName (word : Kind → Production) (lined : Bool) : Production :=
  .alt (qualifiedType word lined) (word .typeIdentifier)

/-- Makes the type before it generic. -/
def instantiate (lined : Bool) : Production :=
  .seq (here lined) (.wrap .genericType (some .type) (.role .typeArguments typeArguments))

/-- The name of a type, perhaps after its package, perhaps with type arguments. -/
def typeName (word : Kind → Production) (lined : Bool) : Production :=
  .group (.seq (plainTypeName word lined) (opt (instantiate lined)))

/-- A pointer type. -/
def pointerType (lined : Bool) : Production :=
  .node .pointerType (.seq (sign .star) (type lined))

/-- A slice type. -/
def sliceType (lined : Bool) : Production :=
  .node .sliceType (chain [sign .lbracket, sign .rbracket, .role .element (type lined)])

/-- An array type. -/
def arrayType (lined : Bool) : Production :=
  .node .arrayType
    (chain [sign .lbracket, .role .length (expr .inner), sign .rbracket,
      .role .element (type lined)])

/-- An array type whose length is counted from a literal. -/
def implicitArrayType : Production :=
  .node .implicitLengthArrayType
    (chain [sign .lbracket, sign .ellipsis, sign .rbracket, .role .element (type false)])

/-- A map type. -/
def mapType (lined : Bool) : Production :=
  .node .mapType
    (chain [sign .kwMap, sign .lbracket, .role .key (type false), sign .rbracket,
      .role .value (type lined)])

/-- A channel type; an arrow belongs to the leftmost `chan` it can belong to. -/
def channelType (lined : Bool) : Production :=
  .node .channelType
    (choice [chain [sign .kwChan, sign .arrow, .role .value (type lined)],
      chain [sign .kwChan, .role .value (type lined)],
      chain [sign .arrow, sign .kwChan, .role .value (type lined)]])

/-- The name of a field, with its part. -/
def fieldName : Production := .role .name (name .fieldIdentifier)

/-- The name of a variable, with its part. -/
def variableName : Production := .role .name (name .identifier)

/-- The tag of a field. -/
def fieldTag : Production := opt (.seq .sameLine (.role .tag string))

/-- An embedded type. What stands in brackets after its name is type arguments where the field ends
behind them, and not the length of an array with elements on the next line. -/
def embeddedField : Production :=
  let fieldEnd := .seq fieldTag (.alt ending (sign .rbrace))
  chain [opt (sign .star), .role .type (typeName name true), .absent (.absent fieldEnd)]

/-- A field: an embedded type, or names with a type. One name alone is an embedded type, so the
line may end after it. -/
def fieldDeclaration : Production :=
  let names := choice [
    chain [fieldName, .sameLine, .role .type (type true)],
    chain [fieldName, .sameLine, sign .comma, list fieldName, .role .type (type true)]]
  .node .fieldDeclaration (.seq (.alt embeddedField names) fieldTag)

/-- A struct type. -/
def structType : Production :=
  .node .structType
    (.seq (sign .kwStruct)
      (.node .fieldDeclarationList
        (chain [sign .lbrace, separated fieldDeclaration, sign .rbrace])))

/-- A method or a union of types in an interface. A name alone is a type, so the line may end
after it. -/
def interfaceElem : Production :=
  .alt
    (.node .methodElem
      (chain [fieldName, .sameLine, .role .parameters parameterList,
        opt (.seq .sameLine (result true))]))
    (typeElem true)

/-- An interface type. -/
def interfaceType : Production :=
  .node .interfaceType
    (chain [sign .kwInterface, sign .lbrace, separated interfaceElem, sign .rbrace])

/-- A function type. -/
def functionType (lined : Bool) : Production :=
  .node .functionType
    (chain [sign .kwFunc, .role .parameters parameterList,
      opt (.seq (here lined) (result lined))])

/-- The rule of a type that is not in parentheses. -/
def simpleTypeRule (lined : Bool) : Production :=
  choice [typeName name lined, pointerType lined, sliceType lined, arrayType lined,
    mapType lined, structType, interfaceType, functionType lined, channelType lined]

/-- A type in parentheses. -/
def parenthesizedType : Production :=
  .node .parenthesizedType (chain [sign .lparen, type false, sign .rparen])

/-- The rule of a type. -/
def typeRule (lined : Bool) : Production := .alt (.call (.simpleType lined)) parenthesizedType

/-- A parameter: names with a type or a type alone; the last may be variadic, with one name at
most. -/
def parameter : Production :=
  let variadic := chain [sign .ellipsis, .role .type (type false)]
  choice [
    .node .parameterDeclaration (.seq (list variableName) (.role .type (type false))),
    .node .variadicParameterDeclaration (.seq variableName variadic),
    .node .variadicParameterDeclaration variadic,
    .node .parameterDeclaration (.role .type (type false))]

/-- The rule of a parameter list. -/
def parameterListRule : Production :=
  .node .parameterList (chain [sign .lparen, opt (commaList parameter), sign .rparen])

/-- Type parameters in brackets. -/
def typeParameterList : Production :=
  let declaration := .node .typeParameterDeclaration
    (.seq (list variableName) (.role .type (.node .typeConstraint (union false))))
  .role .typeParameters
    (.node .typeParameterList
      (chain [sign .lbracket, commaList declaration, sign .rbracket]))

end CtxThread.Code.Grammar
