import CtxThread.Code.Token

/-!
# Grammar rules

A grammar is a table of rules, and a rule is a piece of data. Running a rule consumes tokens
from the front of a list and appends nodes to a list. Choices are ordered: the first alternative
that fits is taken.

Two things are peculiar to Go. A line end separates tokens like any blank, except where a
construct may end; a rule says with `sameLine` that what follows must stand on the same line,
and with `newline` that a line end is taken as the end of a construct. And a comment belongs to
the innermost node that has begun before it and ends after it: comments are collected together
with the token that follows them, and a node gives those before its first token to its parent.

## Main definitions

- `Code.Terminal`: what one token must be
- `Code.Rule`: a grammar rule over the nonterminals `ν`
- `Code.Rule.State`: the nodes built so far and the tokens left
- `Code.Rule.run`: running a rule, given how the nonterminals are run
- `Code.Rule.derive`: running a nonterminal of a grammar within a bound on the nesting
-/

namespace CtxThread.Code

/-- What one token must be, and the kind of node it becomes. -/
inductive Terminal where
  /-- The given sign. -/
  | sign (s : Sign)
  /-- Any word, as a node of kind `k`. -/
  | name (k : Kind)
  /-- The word `w` only, as a node of kind `k`. -/
  | word (w : Word) (k : Kind)
  /-- A literal of kind `k`. -/
  | literal (k : Kind)

/-- The kind of node that a token becomes under a terminal that accepts it. -/
def Terminal.accept? : Terminal → Lexeme → Option Kind
  | .sign s, .sign s' => if s = s' then some (.sign s) else none
  | .name k, .word _ => some k
  | .word w k, .word w' => if w = w' then some k else none
  | .literal k, .literal k' => if k = k' then some k else none
  | _, _ => none

/-- A grammar rule over the nonterminals `ν`. -/
inductive Rule (ν : Type) where
  /-- Consumes nothing. -/
  | done
  /-- One token; line ends before it are blanks. -/
  | token (t : Terminal)
  /-- One line end, which leaves a hidden node. -/
  | newline
  /-- Consumes nothing and asks that no line ends before the next token. -/
  | sameLine
  /-- Consumes nothing and asks that `a` does not fit here. -/
  | absent (a : Rule ν)
  /-- First `a`, then `b`. -/
  | seq (a b : Rule ν)
  /-- Either `a` or else `b`. -/
  | alt (a b : Rule ν)
  /-- As many `a` as fit one after the other. -/
  | many (a : Rule ν)
  /-- The rule of a nonterminal. -/
  | call (n : ν)
  /-- Runs `a` on its own: a `wrap` inside it reaches no further back than its start. -/
  | group (a : Rule ν)
  /-- Makes what `a` yields the children of a node of kind `k`. -/
  | node (k : Kind) (a : Rule ν)
  /-- Makes what the group has yielded so far, and what `a` yields, the children of a node of
  kind `k`; what was there before plays the part `r`, if one is given. -/
  | wrap (k : Kind) (r : Option Role) (a : Rule ν)
  /-- Gives what `a` yields the part `r`. -/
  | role (r : Role) (a : Rule ν)

namespace Rule

variable {ν : Type}

/-- The rules one after the other. -/
def chain : List (Rule ν) → Rule ν
  | [] => .done
  | [a] => a
  | a :: as => .seq a (chain as)

/-- The first of the rules that fits. -/
def choice : List (Rule ν) → Rule ν
  | [] => .absent .done
  | [a] => a
  | a :: as => .alt a (choice as)

/-- The rule if it fits, else nothing. -/
def opt (a : Rule ν) : Rule ν := .alt a .done

/-- The sign `s`. -/
def sign (s : Sign) : Rule ν := .token (.sign s)

/-- One of the signs. -/
def signs (ss : List Sign) : Rule ν := choice (ss.map sign)

/-- One or more `a`, with a comma between two of them. -/
def list (a : Rule ν) : Rule ν := .seq a (.many (.seq (sign .comma) a))

/-- One or more `a`, with a comma between two of them and perhaps after the last. -/
def commaList (a : Rule ν) : Rule ν := .seq (list a) (opt (sign .comma))

/-- The end of a statement or a declaration: a line end or a semicolon. -/
def ending : Rule ν := .alt .newline (sign .semicolon)

/-- Gives every node that is neither a comment nor hidden the part `r`. -/
def mark (r : Role) (ts : List Tree) : List Tree :=
  ts.map fun t => if t.kind = .comment ∨ t.kind = .newline then t else { t with role := some r }

/-- A node of kind `k` over the nodes `ts`. Comments before its first token stay outside, and
hidden nodes count for its span only. -/
def build (k : Kind) (ts : List Tree) : List Tree :=
  let before := ts.takeWhile (·.kind = .comment)
  let own := ts.dropWhile (·.kind = .comment)
  match own.head?, own.getLast? with
  | some a, some b =>
    before ++ [⟨k, none, a.start, b.stop, [], own.filter (·.kind ≠ .newline)⟩]
  | _, _ => before

/-- The nodes built so far and the tokens left. -/
structure State where
  out : List Tree
  rest : List Token

/-- Takes comments off the front of the tokens. -/
def skipComments (out : List Tree) : List Token → State
  | [] => ⟨out, []⟩
  | t :: ts =>
    if t.lexeme = .comment then skipComments (out ++ [t.tree .comment]) ts else ⟨out, t :: ts⟩

/-- Takes comments and line ends off the front of the tokens. -/
def skipBlanks (out : List Tree) : List Token → State
  | [] => ⟨out, []⟩
  | t :: ts =>
    if t.lexeme = .comment then skipBlanks (out ++ [t.tree .comment]) ts
    else if t.lexeme = .newline then skipBlanks out ts
    else ⟨out, t :: ts⟩

/-- Takes the next token, which must be a `t`. -/
def takeToken (t : Terminal) (s : State) : Option State :=
  let s := skipBlanks s.out s.rest
  match s.rest with
  | [] => none
  | tok :: rest => (t.accept? tok.lexeme).map fun k => ⟨s.out ++ [tok.tree k], rest⟩

/-- Takes the next line end. -/
def takeNewline (s : State) : Option State :=
  let s := skipComments s.out s.rest
  match s.rest with
  | [] => none
  | tok :: rest =>
    if tok.lexeme = .newline then some ⟨s.out ++ [tok.tree .newline], rest⟩ else none

/-- No line ends before the next token. -/
def onSameLine (s : State) : Bool :=
  match (skipComments s.out s.rest).rest with
  | [] => true
  | tok :: _ => tok.lexeme ≠ .newline

/-- Repeats a step for as long as it fits and consumes something, at most `fuel` times. -/
def iterate (step : State → Option State) : Nat → State → State
  | 0, s => s
  | fuel + 1, s =>
    match step s with
    | none => s
    | some s' => if s'.rest.length < s.rest.length then iterate step fuel s' else s

/-- Runs a rule, where `call` runs a nonterminal on the tokens left. -/
def run (call : ν → List Token → Option State) : Rule ν → State → Option State
  | .done, s => some s
  | .token t, s => takeToken t s
  | .newline, s => takeNewline s
  | .sameLine, s => if onSameLine s then some s else none
  | .absent a, s => if (run call a s).isSome then none else some s
  | .seq a b, s => (run call a s).bind (run call b)
  | .alt a b, s =>
    match run call a s with
    | some s' => some s'
    | none => run call b s
  | .many a, s => some (iterate (run call a) s.rest.length s)
  | .call n, s => (call n s.rest).map fun s' => ⟨s.out ++ s'.out, s'.rest⟩
  | .group a, s => (run call a ⟨[], s.rest⟩).map fun s' => ⟨s.out ++ s'.out, s'.rest⟩
  | .node k a, s => (run call a ⟨[], s.rest⟩).map fun s' => ⟨s.out ++ build k s'.out, s'.rest⟩
  | .wrap k r a, s =>
    (run call a ⟨[], s.rest⟩).map fun s' =>
      let front := match r with
        | some r => mark r s.out
        | none => s.out
      ⟨build k (front ++ s'.out), s'.rest⟩
  | .role r a, s => (run call a ⟨[], s.rest⟩).map fun s' => ⟨s.out ++ mark r s'.out, s'.rest⟩

/-- Runs the nonterminal `n` of a grammar; nonterminals may be nested `fuel` deep. -/
def derive (grammar : ν → Rule ν) : Nat → ν → List Token → Option State
  | 0, _, _ => none
  | fuel + 1, n, ts => run (derive grammar fuel) (grammar n) ⟨[], ts⟩

end Rule

end CtxThread.Code
