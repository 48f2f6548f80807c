import CtxThread.Code.Grammar
import CtxThread.Code.Token.Scan

/-!
# Parsing

The syntax tree of a file. A text that is not a Go file has none; the package it claims to
belong to can still be read off its tokens.

## Main definitions

- `Code.parse?`: the syntax tree of a text
- `Code.claimedPackage`: the package named by the first package clause of any text
-/

namespace CtxThread.Code

/-- A bound on the nesting of nonterminals: fewer than sixteen follow one another without a
token between them. -/
def nestingBound (ts : List Token) : Nat := 16 * (ts.length + 1)

/-- The node of a whole file of `length` bytes over its nodes. It starts at the first of them and
ends with the file. -/
def fileTree (length : Nat) (ts : List Tree) : Tree :=
  ⟨.sourceFile, none, (ts.head?.map (·.start)).getD length, length, [],
    ts.filter (·.kind ≠ .newline)⟩

/-- The syntax tree of a text, or `none` when the text is not a Go file. -/
def parse? (src : Bytes) : Option Tree :=
  let ts := Token.scan src
  (Rule.derive grammar (nestingBound ts) .sourceFile ts).bind fun s =>
    let s := Rule.skipBlanks s.out s.rest
    if s.rest.isEmpty then some (fileTree src.length s.out) else none

/-- The first name that follows the keyword `package` among the tokens. -/
def clauseName? : List Token → Option Token
  | t :: u :: rest =>
    match t.lexeme, u.lexeme with
    | .sign .kwPackage, .word _ => some u
    | _, _ => clauseName? (u :: rest)
  | _ => none

/-- The package that a text claims to belong to by its first package clause, whether the text
parses or not; empty when it has none. -/
def claimedPackage (src : Bytes) : String :=
  let ts := (Token.scan src).filter fun t => t.lexeme ≠ .comment && t.lexeme ≠ .newline
  ((clauseName? ts).map fun t => Utf8.decode t.bytes).getD ""

end CtxThread.Code
