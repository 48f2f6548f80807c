import CtxThread.Code.Rule

/-!
# Nonterminals and places

The rules for types, expressions and statements refer to each other through the nonterminals
listed here. An expression is read differently from place to place, so its nonterminals carry
the place.

## Main definitions

- `Code.Place`: where an expression stands
- `Code.Nonterminal`: the categories that rules refer to by name
-/

namespace CtxThread.Code

/-- Where an expression stands. -/
structure Place where
  /-- A line end may close the construct, so it goes on only on the same line. -/
  lined : Bool
  /-- A brace after the name of a type opens a composite literal and not a block. -/
  braced : Bool
  /-- A brace on the line after a name with its package opens a block. -/
  apart : Bool
  deriving DecidableEq

namespace Place

/-- The place of an expression at the outermost level of a statement. -/
def statement : Place := ⟨true, true, false⟩

/-- The place of an expression at the outermost level of a statement that a block and further
statements follow. -/
def beforeBlock : Place := ⟨true, true, true⟩

/-- The place of an expression between brackets. -/
def inner : Place := ⟨false, true, false⟩

/-- The place of an expression just before the block of an `if`, `for` or `switch`. -/
def header : Place := ⟨false, false, false⟩

end Place

/-- The categories that rules refer to by name. -/
inductive Nonterminal where
  /-- A type; where `lined` holds a line end may close it. -/
  | type (lined : Bool)
  /-- A type that is not in parentheses. -/
  | simpleType (lined : Bool)
  | parameterList
  /-- A binary expression whose operators bind at the given tier or tighter. -/
  | tier (p : Place) (n : Nat)
  | unary (p : Place)
  | primary (p : Place)
  | literalValue
  | block
  | statement
  /-- A simple statement; its first expression stands at `p`, those after its operator at
  `q`. -/
  | simple (p q : Place)
  | ifStatement
  | top
  | sourceFile
  deriving DecidableEq

namespace Grammar

open Rule

/-- A rule of the grammar of Go. -/
abbrev Production := Rule Nonterminal

/-- Any word as a name of kind `k`. -/
def name (k : Kind) : Production := .token (.name k)

/-- A word with no reading of its own in expressions, as a name of kind `k`. -/
def plainName (k : Kind) : Production := .alt (.token (.word .plain k)) (.token (.word .blank k))

/-- Where `lined` holds, what follows must stand on the same line. -/
def here (lined : Bool) : Production := if lined then .sameLine else .done

/-- The sign `s`, on the same line where `lined` holds. -/
def hereSign (lined : Bool) (s : Sign) : Production := .seq (here lined) (sign s)

/-- A string literal. -/
def string : Production :=
  .alt (.token (.literal .interpretedStringLiteral)) (.token (.literal .rawStringLiteral))

/-- An expression at the place `p`. -/
def expr (p : Place) : Production := .call (.tier p 0)

/-- A type; where `lined` holds a line end may close it. -/
def type (lined : Bool) : Production := .call (.type lined)

/-- The parameters of a function, in parentheses. -/
def parameterList : Production := .call .parameterList

/-- The result of a function: a list in parentheses, or a type that is not in parentheses. -/
def result (lined : Bool) : Production :=
  .role .result (.alt parameterList (.call (.simpleType lined)))

/-- The rules separated by endings, the last ending optional. -/
def separated (a : Production) : Production :=
  opt (chain [a, .many (.seq ending a), opt ending])

end Grammar

end CtxThread.Code
