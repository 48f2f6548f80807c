import CtxThread.Code.Tree

/-!
# Shapes of declarations and statements

What the later stages need to know of a node: the parameters of a function, the statements of a
block, the names a declaration binds.
-/

namespace CtxThread.Code

namespace Tree

/-- The declarations of a parameter list. -/
def paramDecls (t : Tree) : List Tree := t.children.filter (·.kind.isParamDecl)

/-- The declarations in the parameter list of a function. -/
def params (func : Tree) : List Tree := ((func.child? .parameters).map paramDecls).getD []

/-- The texts of the children that name something. -/
def names (t : Tree) : List String := (t.childrenIn .name).map text

/-- The first name of the first parameter of a function. -/
def firstParamName? (func : Tree) : Option String :=
  func.params.head?.bind fun d => d.names.head?

/-- The name of a declaration. -/
def nameText? (t : Tree) : Option String := (t.child? .name).map text

/-- The statements directly inside a block. -/
def statements (block : Tree) : List Tree :=
  block.children.flatMap fun t =>
    if t.kind = .statementList then t.items else if t.isItem then [t] else []

/-- The arguments of a call. -/
def arguments (call : Tree) : List Tree := ((call.child? .arguments).map items).getD []

/-- The fields of a struct type. -/
def structFields (t : Tree) : List Tree :=
  (t.children.filter (·.kind = .fieldDeclarationList)).flatMap fun l =>
    l.children.filter (·.kind = .fieldDeclaration)

/-- The name of the type that a method belongs to, looked for below pointers, parentheses and
type arguments; `depth` bounds the search. -/
def receiverBase? : Nat → Tree → Option String
  | 0, _ => none
  | depth + 1, t =>
    if t.kind = .pointerType ∨ t.kind = .parenthesizedType then
      t.firstItem?.bind (receiverBase? depth)
    else
      let base? := if t.kind = .genericType then t.child? .type else some t
      base?.bind fun b => if b.kind = .typeIdentifier then some b.text else none

/-- The name of the type that a method declaration belongs to. -/
def receiverName? (method : Tree) : Option String :=
  (method.child? .receiver).bind fun list =>
    list.paramDecls.head?.bind fun d =>
      (d.child? .type).bind fun t => receiverBase? t.size t

end Tree

namespace Site

/-- The sites of the specs of a variable declaration. -/
def varSpecs (decl : Site) : List Site :=
  decl.children.flatMap fun s =>
    if s.node.kind = .varSpec then [s]
    else if s.node.kind = .varSpecList then s.children.filter (·.node.kind = .varSpec)
    else []

/-- The members of a list of expressions; any other expression is a list of its own. -/
def listItems (s : Site) : List Site :=
  if s.node.kind = .expressionList then s.children.filter (·.node.isItem) else [s]

/-- The names in a list of expressions; a member that is no identifier has none. -/
def exprNames (s : Site) : List (Option String) :=
  s.listItems.map fun e => if e.node.kind = .identifier then some e.node.text else none

end Site

end CtxThread.Code
