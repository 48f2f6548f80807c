import CtxThread.Code.Kind
import CtxThread.Text.Utf8

/-!
# Syntax trees

A syntax tree is a node with its kind, the part it plays in its parent, the bytes it spans and
its children in source order. Tokens also carry their own bytes.

## Main definitions

- `Code.Tree`: a syntax tree
- `Code.Tree.child?`, `Code.Tree.childrenIn`: the children that play a part
- `Code.Tree.items`: the children that are neither signs nor comments
- `Code.Site`: a node together with the nodes around it
- `Code.Site.walk`: all nodes below a site, each before its children
-/

namespace CtxThread.Code

/-- A node of a syntax tree. It spans the bytes from `start` up to `stop`. `bytes` holds the
bytes of a token and is empty for any other node. -/
structure Tree where
  kind : Kind
  role : Option Role
  start : Nat
  stop : Nat
  bytes : Bytes
  children : List Tree

namespace Tree

/-- The text of a token. -/
def text (t : Tree) : String := Utf8.decode t.bytes

/-- A grammatical category other than a comment. -/
def isItem (t : Tree) : Bool := t.kind.isNamed && t.kind ≠ .comment

/-- The children that are neither signs nor comments. -/
def items (t : Tree) : List Tree := t.children.filter isItem

/-- The first child that is neither a sign nor a comment. -/
def firstItem? (t : Tree) : Option Tree := t.children.find? isItem

/-- The children that play the part `r`. -/
def childrenIn (t : Tree) (r : Role) : List Tree := t.children.filter (·.role = some r)

/-- The first child that plays the part `r`. -/
def child? (t : Tree) (r : Role) : Option Tree := t.children.find? (·.role = some r)

/-- The first child of kind `k`. -/
def childOfKind? (t : Tree) (k : Kind) : Option Tree := t.children.find? (·.kind = k)

mutual

/-- The number of nodes in a tree. -/
def size : Tree → Nat
  | ⟨_, _, _, _, _, children⟩ => 1 + sizes children

/-- The number of nodes in a list of trees. -/
def sizes : List Tree → Nat
  | [] => 0
  | t :: ts => size t + sizes ts

end

/-- What tells two nodes of one tree apart: span and kind. -/
structure Key where
  start : Nat
  stop : Nat
  kind : Kind
  deriving DecidableEq

/-- The key of a node. -/
def key (t : Tree) : Key := ⟨t.start, t.stop, t.kind⟩

end Tree

/-- A node together with the nodes around it, the innermost first. -/
structure Site where
  node : Tree
  around : List Tree

namespace Site

/-- The site of a whole tree. -/
def root (t : Tree) : Site := ⟨t, []⟩

/-- The site of a child. -/
def enter (s : Site) (t : Tree) : Site := ⟨t, s.node :: s.around⟩

/-- The sites of the children. -/
def children (s : Site) : List Site := s.node.children.map s.enter

/-- The site of the first child that plays the part `r`. -/
def child? (s : Site) (r : Role) : Option Site := (s.node.child? r).map s.enter

/-- Empties a stack of sites: the top is visited, and its children take its place. At most
`fuel` sites are visited. -/
def visit : Nat → List Site → List Site
  | 0, _ => []
  | _ + 1, [] => []
  | fuel + 1, s :: stack => s :: visit fuel (s.children ++ stack)

/-- A site and all sites below it, each before its children and in source order. -/
def walk (s : Site) : List Site := visit s.node.size [s]

end Site

namespace Tree

/-- All nodes of a tree, each before its children and in source order. -/
def walk (t : Tree) : List Tree := (Site.walk (.root t)).map (·.node)

/-- The nodes of kind `k`, in the order of `walk`. -/
def allOfKind (t : Tree) (k : Kind) : List Tree := t.walk.filter (·.kind = k)

end Tree

end CtxThread.Code
