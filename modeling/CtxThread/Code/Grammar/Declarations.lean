import CtxThread.Code.Grammar.Statements

/-!
# The grammar of declarations

Declarations of variables, constants and types are statements. Functions, methods, imports and
the package clause stand at the top level of a file only.
-/

namespace CtxThread.Code.Grammar

open Rule

/-- A value after an equals sign. -/
def initialValue : Production :=
  .seq (sign .assign) (.role .value (expressionList .statement))

/-- Constants, perhaps with a type and values. The commas play the part of names too. -/
def constSpec : Production :=
  .node .constSpec
    (chain [variableName,
      .many (chain [.sameLine, .role .name (sign .comma), variableName]),
      opt (chain [.sameLine, opt (.role .type (type false)), initialValue])])

/-- A declaration of constants. -/
def constDeclaration : Production :=
  .node .constDeclaration
    (.seq (sign .kwConst)
      (.alt constSpec (chain [sign .lparen, .many (.seq constSpec ending), sign .rparen])))

/-- A declared type or an alias. What stands in brackets after the name is the length of an array
where it can be read so, else type parameters. -/
def typeSpec : Production :=
  let typeName := .role .name (name .typeIdentifier)
  let definition := .role .type (type true)
  choice [
    .node .typeAlias (chain [typeName, opt typeParameterList, sign .assign, definition]),
    .node .typeSpec (chain [typeName, definition]),
    .node .typeSpec (chain [typeName, typeParameterList, definition])]

/-- A declaration of types. -/
def typeDeclaration : Production :=
  .node .typeDeclaration
    (.seq (sign .kwType)
      (.alt typeSpec (chain [sign .lparen, separated typeSpec, sign .rparen])))

/-- The result and the body of a declared function, each on the line where what comes before
ends. -/
def resultAndBody : Production :=
  .seq (opt (.seq .sameLine (result true))) (opt (.seq .sameLine (.role .body block)))

/-- A function declaration. -/
def functionDeclaration : Production :=
  .node .functionDeclaration
    (chain [sign .kwFunc, variableName, opt typeParameterList,
      .role .parameters parameterList, resultAndBody])

/-- A method declaration. -/
def methodDeclaration : Production :=
  .node .methodDeclaration
    (chain [sign .kwFunc, .role .receiver parameterList, fieldName,
      .role .parameters parameterList, resultAndBody])

/-- A package clause. -/
def packageClause : Production :=
  .node .packageClause (.seq (sign .kwPackage) (name .packageIdentifier))

/-- An import of one package, perhaps under a name. -/
def importSpec : Production :=
  .node .importSpec
    (.seq
      (opt (.role .name (choice [.node .dot (sign .dot),
        .token (.word .blank .blankIdentifier), name .packageIdentifier])))
      (.role .path string))

/-- An import declaration. -/
def importDeclaration : Production :=
  .node .importDeclaration
    (.seq (sign .kwImport)
      (.alt importSpec
        (.node .importSpecList (chain [sign .lparen, separated importSpec, sign .rparen]))))

/-- The rule of what stands at the top level only. -/
def topRule : Production :=
  choice [functionDeclaration, methodDeclaration, importDeclaration, packageClause]

/-- The rule of a statement. -/
def statementRule : Production :=
  choice [keywordStatement, varDeclaration .statement, constDeclaration, typeDeclaration, block,
    .node .labeledStatement (.seq label (.call .statement)),
    simpleStatement .statement,
    .node .emptyStatement (sign .semicolon)]

/-- The rule of a file: statements and top-level declarations, each with an ending, where a
top-level declaration at the very end needs none. -/
def sourceFileRule : Production :=
  .seq (.many (.seq (.alt (.call .top) (.call .statement)) ending)) (opt (.call .top))

end CtxThread.Code.Grammar
