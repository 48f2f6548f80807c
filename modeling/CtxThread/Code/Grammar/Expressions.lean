import CtxThread.Code.Grammar.Types

/-!
# The grammar of expressions

Binary operators have five tiers, the loosest first. Unary operators bind tighter, and what
follows an operand (a selector, an index, arguments) binds tightest.

A name, or a name after its package, may turn out to be a type: before a brace it is the type of
a composite literal, and with type arguments and one argument in parentheses it is a conversion.
A name alone is complete at the end of its line. A name with a package or with type arguments is
still read as a type when the brace stands on the next line.
-/

namespace CtxThread.Code.Grammar

open Rule

/-- The binary operators by tier, the loosest first. -/
def tiers : List (List Sign) :=
  [[.barBar],
   [.andAnd],
   [.equal, .notEqual, .less, .lessEqual, .greater, .greaterEqual],
   [.plus, .minus, .bar, .caret],
   [.star, .slash, .percent, .shiftLeft, .shiftRight, .amp, .ampCaret]]

/-- The rule of a binary expression: operands of the next tier, grouped from the left. -/
def tierRule (p : Place) (n : Nat) : Production :=
  match tiers[n]? with
  | none => .call (.unary p)
  | some operators =>
    .seq (.call (.tier p (n + 1)))
      (.many (.wrap .binaryExpression (some .left)
        (.seq (.role .operator (.seq (here p.lined) (signs operators)))
          (.role .right (.call (.tier p (n + 1)))))))

/-- The rule of a unary expression. -/
def unaryRule (p : Place) : Production :=
  .alt (.call (.primary p))
    (.node .unaryExpression
      (.seq (.role .operator (signs [.plus, .minus, .bang, .caret, .star, .amp, .arrow]))
        (.role .operand (.call (.unary p)))))

/-- A list of expressions. -/
def expressionList (p : Place) : Production :=
  .node .expressionList (.seq (expr p) (.many (.seq (hereSign p.lined .comma) (expr p))))

/-- An argument of a call, perhaps spread over the variadic parameter. -/
def argument : Production :=
  .group (.seq (expr .inner) (opt (.wrap .variadicArgument none (sign .ellipsis))))

/-- Arguments in parentheses. -/
def argumentList (lined : Bool) : Production :=
  .role .arguments
    (.node .argumentList
      (chain [hereSign lined .lparen, opt (commaList argument), sign .rparen]))

/-- The arguments of `new` and `make`: the first is a type. -/
def allocationArguments (lined : Bool) : Production :=
  .role .arguments
    (.node .argumentList
      (chain [hereSign lined .lparen,
        opt (chain [type false, .many (.seq (sign .comma) (expr .inner)), opt (sign .comma)]),
        sign .rparen]))

/-- An element of a composite literal. -/
def literalElement : Production :=
  .node .literalElement (.alt (expr .inner) (.call .literalValue))

/-- The rule of the part of a composite literal in braces. -/
def literalValueRule : Production :=
  let element := .group (.seq literalElement
    (opt (.wrap .keyedElement (some .key)
      (.seq (sign .colon) (.role .value literalElement)))))
  .node .literalValue (chain [sign .lbrace, opt (commaList element), sign .rbrace])

/-- Makes the type before it a composite literal. -/
def compose : Production := .wrap .compositeLiteral (some .type) (.role .body (.call .literalValue))

/-- Makes the type before it a conversion. -/
def convert : Production :=
  .wrap .typeConversionExpression (some .type)
    (chain [sign .lparen, .role .operand (expr .inner), opt (sign .comma), sign .rparen])

/-- Gives the name before it type arguments without a call. What stands in the brackets cannot be
read as an index. -/
def instantiateAlone (lined : Bool) : Production :=
  let argument := .role .type (type false)
  let several := chain [argument, sign .comma, opt (commaList argument)]
  let one := chain [.absent (name .identifier), .absent (.seq (expr .inner) (sign .rbracket)),
    argument]
  .seq
    (.wrap .typeInstantiationExpression (some .type)
      (chain [hereSign lined .lbracket, .alt several one, sign .rbracket]))
    (.absent (hereSign lined .lparen))

/-- A function literal. -/
def funcLiteral : Production :=
  .node .funcLiteral
    (chain [sign .kwFunc, .role .parameters parameterList, opt (result false),
      .role .body (.call .block)])

/-- An operand that starts with a name. -/
def nameOperand (p : Place) : Production :=
  let allocator := .alt (.token (.word .newWord .identifier)) (.token (.word .makeWord .identifier))
  let literal :=
    if p.braced then
      [.group (chain [plainTypeName plainName p.lined, instantiate p.lined, compose]),
       .group (chain [qualifiedType plainName p.lined, here p.apart, compose]),
       .group (chain [plainName .typeIdentifier, here p.lined, compose])]
    else []
  choice (literal ++ [
    .group (chain [plainTypeName plainName p.lined, instantiate p.lined, here p.lined, convert]),
    .group (.seq (plainTypeName plainName p.lined) (instantiateAlone p.lined)),
    plainName .identifier,
    .token (.word .nilWord .nilValue),
    .token (.word .trueWord .trueValue),
    .token (.word .falseWord .falseValue),
    .token (.word .iotaWord .iotaValue),
    .group (.seq allocator
      (.wrap .callExpression (some .function) (allocationArguments p.lined))),
    .seq allocator (.absent (hereSign p.lined .lparen))])

/-- A literal that is one token. -/
def basicLiteral : Production :=
  choice [string, .token (.literal .intLiteral), .token (.literal .floatLiteral),
    .token (.literal .imaginaryLiteral), .token (.literal .runeLiteral)]

/-- An operand that starts with a type that cannot be read as an expression. What stands in
parentheses behind the parameters of a function type is its result, unless nothing is left to
convert. -/
def typeOperand : Production :=
  choice [
    .group (.seq
      (choice [sliceType false, arrayType false, implicitArrayType, mapType false, structType])
      (.alt compose convert)),
    .group (.seq (choice [interfaceType, channelType false, functionType false]) convert),
    .group (.seq
      (.node .functionType (.seq (sign .kwFunc) (.role .parameters parameterList))) convert)]

/-- An operand in parentheses: an expression, or a type and a conversion to it. -/
def parenthesizedOperand : Production :=
  .alt
    (.node .parenthesizedExpression (chain [sign .lparen, expr .inner, sign .rparen]))
    (.group (.seq parenthesizedType convert))

/-- What may follow an operand. -/
def continuation (p : Place) : Production :=
  choice [
    .wrap .selectorExpression (some .operand)
      (.seq (hereSign p.lined .dot) (.role .field (name .fieldIdentifier))),
    .wrap .callExpression (some .function) (argumentList p.lined),
    .wrap .indexExpression (some .operand)
      (chain [hereSign p.lined .lbracket, .role .index (expr .inner), sign .rbracket]),
    .wrap .sliceExpression (some .operand)
      (chain [hereSign p.lined .lbracket, opt (.role .start (expr .inner)), sign .colon,
        opt (.seq (.role .stop (expr .inner))
          (opt (.seq (sign .colon) (.role .capacity (expr .inner))))),
        sign .rbracket]),
    .wrap .typeAssertionExpression (some .operand)
      (chain [hereSign p.lined .dot, sign .lparen, .role .type (type false), sign .rparen]),
    .wrap .callExpression (some .function)
      (chain [here p.lined, .role .typeArguments typeArguments, argumentList p.lined])]

/-- The rule of an operand with what follows it. -/
def primaryRule (p : Place) : Production :=
  .seq
    (choice [nameOperand p, basicLiteral, parenthesizedOperand, funcLiteral, typeOperand])
    (.many (continuation p))

end CtxThread.Code.Grammar
