import CtxThread.Code.Grammar.Expressions

/-!
# The grammar of statements

A statement other than a declaration. Statements are separated by line ends or semicolons, so
everything that may follow a complete statement has to stand on its line.
-/

namespace CtxThread.Code.Grammar

open Rule

/-- The operators of assignments. -/
def assignments : List Sign :=
  [.assign, .plusAssign, .minusAssign, .starAssign, .slashAssign, .percentAssign,
   .shiftLeftAssign, .shiftRightAssign, .ampAssign, .ampCaretAssign, .barAssign, .caretAssign]

/-- Makes the list of expressions before it the left side of a declaration or an assignment;
the right side stands at `q`. -/
def bindLeft (lined : Bool) (q : Place) : Production :=
  .alt
    (.wrap .shortVarDeclaration (some .left)
      (.seq (hereSign lined .define) (.role .right (expressionList q))))
    (.wrap .assignmentStatement (some .left)
      (.seq (.role .operator (.seq (here lined) (signs assignments)))
        (.role .right (expressionList q))))

/-- The rule of a simple statement. Once a list of several expressions has begun, the statement
cannot be complete before its operator, so the line may end there. -/
def simpleRule (p q : Place) : Production :=
  .seq (expr p) (choice [
    .seq (.wrap .expressionList none .done) (bindLeft p.lined q),
    chain [hereSign p.lined .comma, list (expr .inner), .wrap .expressionList none .done,
      bindLeft false q],
    .wrap .sendStatement (some .channel)
      (.seq (hereSign p.lined .arrow) (.role .value (expr q))),
    .wrap .incStatement none (hereSign p.lined .increment),
    .wrap .decStatement none (hereSign p.lined .decrement),
    .wrap .expressionStatement none .done])

/-- A block. -/
def block : Production := .call .block

/-- The label of a statement, with its colon. -/
def label : Production := .seq (.role .label (plainName .labelName)) (hereSign true .colon)

/-- A label with no statement, which may stand last in a list of statements. -/
def bareLabel : Production := .node .labeledStatement label

/-- A simple statement that is not a label. -/
def simpleStatement (p : Place) : Production := .seq (.absent label) (.call (.simple p p))

/-- The declarations of variables, at the place `p`. -/
def varDeclaration (p : Place) : Production :=
  let initialValue := .seq (sign .assign) (.role .value (expressionList p))
  let spec := .node .varSpec
    (.seq (list variableName)
      (.alt
        (.seq (.role .type (type true)) (opt (.seq .sameLine initialValue)))
        initialValue))
  .node .varDeclaration
    (.seq (sign .kwVar)
      (.alt spec
        (.node .varSpecList (chain [sign .lparen, .many (.seq spec ending), sign .rparen]))))

/-- A list of statements. Its first statement may end in a name with its package and be followed
by a block; the two are kept apart only when more statements follow. -/
def statementList : Production :=
  let more := .seq (.many (.seq ending (.call .statement))) (opt (.seq ending (opt bareLabel)))
  let first := .alt (varDeclaration .beforeBlock) (simpleStatement .beforeBlock)
  .node .statementList
    (choice [
      .seq first (.alt
        (.seq (.absent (.seq .newline (sign .lbrace))) more)
        (chain [.newline, block, ending, .call .statement, more])),
      .seq (.call .statement) more,
      bareLabel])

/-- The rule of a block. -/
def blockRule : Production :=
  .node .block (chain [sign .lbrace, opt statementList, sign .rbrace])

/-- A simple statement and a semicolon before the rest of a header. -/
def initializer : Production :=
  opt (.seq (.role .initializer (.call (.simple .inner .inner))) (sign .semicolon))

/-- The rule of an `if` statement. -/
def ifStatementRule : Production :=
  .node .ifStatement
    (chain [sign .kwIf, initializer, .role .condition (expr .header), .role .consequence block,
      opt (chain [.sameLine, sign .kwElse,
        .role .alternative (.alt (.call .ifStatement) block)])])

/-- The three parts of a counting loop. -/
def forClause : Production :=
  .node .forClause
    (chain [opt (.role .initializer (.call (.simple .inner .inner))), sign .semicolon,
      opt (.role .condition (expr .inner)), sign .semicolon,
      opt (.role .update (.call (.simple .header .header)))])

/-- An assignment or a declaration by what follows it. -/
def leftSide (p : Place) : Production :=
  opt (.seq (.role .left (expressionList p)) (signs [.assign, .define]))

/-- What a loop ranges over. -/
def rangeClause : Production :=
  .node .rangeClause
    (chain [leftSide .header, sign .kwRange, .role .right (expr .header)])

/-- A loop. -/
def forStatement : Production :=
  .node .forStatement
    (chain [sign .kwFor, opt (choice [rangeClause, forClause, expr .header]), .role .body block])

/-- What a case leads to. -/
def caseBody : Production := .seq (sign .colon) (opt statementList)

/-- The default case of a `switch` or `select`. -/
def defaultCase : Production := .node .defaultCase (.seq (sign .kwDefault) caseBody)

/-- Cases in braces. -/
def cases (one : Production) : Production :=
  chain [sign .lbrace, .many (.alt one defaultCase), sign .rbrace]

/-- The part of a `switch` over values after its initializer. -/
def expressionSwitch : Production :=
  .wrap .expressionSwitchStatement none
    (.seq (opt (.role .value (expr .header)))
      (cases (.node .expressionCase
        (chain [sign .kwCase, .role .value (expressionList .inner), caseBody]))))

/-- The part of a `switch` over types after its initializer. -/
def typeSwitch : Production :=
  let types := .seq (.role .type (type false))
    (.many (.seq (.role .type (sign .comma)) (.role .type (type false))))
  .wrap .typeSwitchStatement none
    (chain [opt (.seq (.role .binder (expressionList .header)) (sign .define)),
      .role .value (expr .header), sign .dot, sign .lparen, sign .kwType, sign .rparen,
      cases (.node .typeCase (chain [sign .kwCase, types, caseBody]))])

/-- A `switch` statement. -/
def switchStatement : Production :=
  .group (chain [sign .kwSwitch, initializer, .alt typeSwitch expressionSwitch])

/-- A send or a receive of a `select`. -/
def communication : Production :=
  let receive := .node .unaryExpression
    (.seq (.role .operator (sign .arrow)) (.role .operand (.call (.unary .inner))))
  .alt
    (.node .sendStatement
      (chain [.role .channel (expr .inner), sign .arrow, .role .value (expr .inner)]))
    (.node .receiveStatement (.seq (leftSide .inner) (.role .right receive)))

/-- A `select` statement. -/
def selectStatement : Production :=
  .node .selectStatement
    (.seq (sign .kwSelect)
      (cases (.node .communicationCase
        (chain [sign .kwCase, .role .communication communication, caseBody]))))

/-- A statement that is a keyword and perhaps a label. -/
def jump (k : Kind) (word : Sign) : Production :=
  .node k (.seq (sign word) (opt (.seq .sameLine (plainName .labelName))))

/-- A statement that starts with a keyword of its own and is no declaration. -/
def keywordStatement : Production :=
  choice [
    .node .returnStatement
      (.seq (sign .kwReturn) (opt (.seq .sameLine (expressionList .statement)))),
    .call .ifStatement, forStatement, switchStatement, selectStatement,
    .node .goStatement (.seq (sign .kwGo) (expr .statement)),
    .node .deferStatement (.seq (sign .kwDefer) (expr .statement)),
    jump .breakStatement .kwBreak, jump .continueStatement .kwContinue,
    .node .gotoStatement (.seq (sign .kwGoto) (plainName .labelName)),
    .node .fallthroughStatement (sign .kwFallthrough)]

end CtxThread.Code.Grammar
