import CtxThread.Code.Tree

/-!
# Tokens

Source text is cut into tokens before it is parsed. Comments and line ends are tokens too: a
line end closes a construct where one may end, and a comment becomes a node of the tree.

## Main definitions

- `Code.Word`: what a name means where an expression may stand
- `Code.Lexeme`: what a token is
- `Code.Token`: a token at its place
- `Code.Token.tree`: the token as a node
-/

namespace CtxThread.Code

/-- What a name means where an expression may stand. Six predeclared names have a reading of
their own there; everywhere else every word is a name like any other. -/
inductive Word where
  | plain | blank | nilWord | trueWord | falseWord | iotaWord | newWord | makeWord
  deriving DecidableEq

/-- The words other than plain names. -/
def Word.table : List (String × Word) :=
  [("_", .blank), ("nil", .nilWord), ("true", .trueWord), ("false", .falseWord),
   ("iota", .iotaWord), ("new", .newWord), ("make", .makeWord)]

/-- What a token is. A `stray` byte belongs to no token. -/
inductive Lexeme where
  | sign (s : Sign)
  | word (w : Word)
  | literal (k : Kind)
  | comment
  | newline
  | stray
  deriving DecidableEq

/-- A token: what it is, where it starts, its bytes, and the nodes inside it, which only a
string literal has. -/
structure Token where
  lexeme : Lexeme
  start : Nat
  bytes : Bytes
  inner : List Tree

namespace Token

/-- The offset at which a token ends. -/
def stop (t : Token) : Nat := t.start + t.bytes.length

/-- The token as a node of kind `k`. -/
def tree (t : Token) (k : Kind) : Tree := ⟨k, none, t.start, t.stop, t.bytes, t.inner⟩

end Token

end CtxThread.Code
