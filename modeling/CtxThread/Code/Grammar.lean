import CtxThread.Code.Grammar.Declarations

/-!
# The grammar of Go

The rule of each nonterminal.
-/

namespace CtxThread.Code

/-- The grammar of Go. -/
def grammar : Nonterminal → Rule Nonterminal
  | .type lined => Grammar.typeRule lined
  | .simpleType lined => Grammar.simpleTypeRule lined
  | .parameterList => Grammar.parameterListRule
  | .tier p n => Grammar.tierRule p n
  | .unary p => Grammar.unaryRule p
  | .primary p => Grammar.primaryRule p
  | .literalValue => Grammar.literalValueRule
  | .block => Grammar.blockRule
  | .statement => Grammar.statementRule
  | .simple p q => Grammar.simpleRule p q
  | .ifStatement => Grammar.ifStatementRule
  | .top => Grammar.topRule
  | .sourceFile => Grammar.sourceFileRule

end CtxThread.Code
