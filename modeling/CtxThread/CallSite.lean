import CtxThread.Code.Outline
import CtxThread.Edit.Plan

/-!
# Call sites

Calls of a name, and planning the context as their first argument.
-/

namespace CtxThread

open Code (Tree)

namespace CallSite

/-- The name that a call is directed at: of a function, or of a method or package member. -/
def callee? (call : Tree) : Option String :=
  (call.child? .function).bind fun fn =>
    match fn.kind with
    | .identifier => some fn.text
    | .selectorExpression => (fn.child? .field).map Tree.text
    | _ => none

/-- A call whose first argument carries the context already. -/
def isThreaded (call : Tree) : Bool :=
  match call.arguments with
  | first :: _ => first.kind = .identifier && Naming.threadedArguments.contains first.text
  | [] => false

/-- Plans the context as the first argument of every call of `name` below `root` that does not
carry it, and counts the calls for which that is new. -/
def patch (name : String) (src : Bytes) (root : Tree) (p : Plan) : Nat × Plan :=
  (root.allOfKind .callExpression).foldl
    (fun (n, p) call =>
      if callee? call = some name && !isThreaded call then
        match p.prependContext src call with
        | (true, p) => (n + 1, p)
        | (false, p) => (n, p)
      else (n, p))
    (0, p)

end CallSite

end CtxThread
