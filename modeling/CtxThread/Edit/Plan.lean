import CtxThread.Code.Tree
import CtxThread.Edit
import CtxThread.Naming

/-!
# Planned edits of one file

While a file is looked through, every change is only planned. A leading context argument is
planned at most once for each call, however often it is asked for, and the name of a node is
replaced at most once.

## Main definitions

- `Plan`: the edits planned so far
- `Plan.replace`, `Plan.insert`, `Plan.replaceSpan`, `Plan.prependContext`: planning an edit
- `Plan.edits`: all edits of a plan
-/

namespace CtxThread

open Code (Tree)

/-- Inserts `text` as the first element of the list `list` in parentheses, whose elements are
`items`. An element on a later line than the parenthesis keeps its line. -/
def leadingItem (src : Bytes) (list : Tree) (items : List Tree) (text : String) : Edit :=
  let pos : Int := list.start + 1
  match items with
  | [] => .insertion pos text
  | first :: _ =>
    if src.sameLine list.start first.start then .insertion pos (text ++ ", ")
    else .insertion pos (text ++ ",")

/-- The edits planned for one file. -/
structure Plan where
  /-- Edits other than leading context arguments, in the order of planning. -/
  plain : List Edit := []
  /-- The leading context arguments by call, in the order of planning. -/
  calls : List (Tree.Key × Edit) := []
  /-- The nodes that have been replaced. -/
  replaced : List Tree.Key := []

namespace Plan

/-- All edits: the plain ones, then the leading context arguments. -/
def edits (p : Plan) : List Edit := p.plain ++ p.calls.map (·.2)

/-- The number of edits. -/
def size (p : Plan) : Nat := p.plain.length + p.calls.length

/-- Something is planned. -/
def isChange (p : Plan) : Bool := p.size ≠ 0

/-- Plans a replacement of the bytes between two positions. -/
def replaceSpan (p : Plan) (start stop : Int) (text : String) : Plan :=
  { p with plain := p.plain ++ [⟨start, stop, text⟩] }

/-- Plans an insertion. -/
def insert (p : Plan) (pos : Int) (text : String) : Plan := p.replaceSpan pos pos text

/-- Plans a replacement of a node, unless it is replaced already; also says whether it did. -/
def replace (p : Plan) (t : Tree) (text : String) : Bool × Plan :=
  if p.replaced.contains t.key then (false, p)
  else (true, { p.replaceSpan t.start t.stop text with replaced := p.replaced ++ [t.key] })

/-- Plans the context as the first argument of a call, unless that is planned already; also says
whether it did. -/
def prependContext (p : Plan) (src : Bytes) (call : Tree) : Bool × Plan :=
  if p.calls.any (·.1 = call.key) then (false, p)
  else match call.child? .arguments with
    | none => (false, p)
    | some arguments =>
      let edit := leadingItem src arguments arguments.items Naming.context
      (true, { p with calls := p.calls ++ [(call.key, edit)] })

/-- The text with everything planned applied to it. -/
def apply (p : Plan) (src : Bytes) : Except Edit.Overlap Bytes := Edit.splice src p.edits

end Plan

end CtxThread
