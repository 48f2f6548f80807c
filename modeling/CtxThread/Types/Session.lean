import CtxThread.Types.Resolve

/-!
# Asking about a package that grows

A session answers questions about a package one after the other and remembers the answers. The
declarations of the package are indexed once, when the first question needs them; a file that
joins the package later is not indexed any more.

## Main definitions

- `Session`: a package, its index once it is needed, and the answers so far
- `Session.add`: a file joins the package
- `Session.typeOf` and the other questions
-/

namespace CtxThread

open Code (Tree)

/-- A package under questions. -/
structure Session where
  package : Package
  index? : Option Index := none
  memo : Memo := {}

namespace Session

/-- What is known of the package: nothing is declared before the index is made. -/
def env (s : Session) : Env := ⟨s.package.name, s.package.files, s.index?.getD {}⟩

/-- Makes the index unless it is made already. -/
def indexed (s : Session) : Session :=
  { s with index? := some (s.index?.getD (.ofFiles s.package.files)) }

/-- A file joins the package. -/
def add (s : Session) (f : SourceFile) : Session :=
  { s with package := { s.package with files := s.package.files ++ [f] } }

/-- Asks a question. -/
def ask {α : Type} (s : Session) (question : Env → Resolving α) : Option (α × Session) :=
  (question s.env s.memo).map fun (a, memo) => (a, { s with memo := memo })

/-- The type of an expression. -/
def typeOf (s : Session) (r : Ref) : Option (Option Ty × Session) :=
  s.indexed.ask fun env => env.typeOf r

/-- What an identifier is bound to where it stands. -/
def lookup (s : Session) (r : Ref) : Option (Option Binding × Session) :=
  s.indexed.ask fun env => env.lookup r

/-- Whether an identifier stands for an imported package. -/
def isPackageName (s : Session) (r : Ref) : Option (Bool × Session) :=
  let s := if (s.env.importPath? r.file r.node.text).isSome then s.indexed else s
  s.ask fun env => env.isPackageName r

/-- The type of one result of a call. -/
def callResult (s : Session) (r : Ref) (i : Nat) : Option (Option Ty × Session) :=
  let needed := (r.node.child? .function).any fun fn =>
    fn.kind = .identifier || fn.kind = .selectorExpression
  (if needed then s.indexed else s).ask fun env => env.callResult r i

/-- The meaning of a type name of the package. -/
def namedType (s : Session) (name : String) : Option Ty × Session :=
  (s.indexed.env.namedType name, s.indexed)

/-- The meaning of a written type. -/
def typeExpr (s : Session) (r : Ref) : Option Ty × Session :=
  let s := if (TypeExpr.ofTree r.node).isLocal then s.indexed else s
  (s.env.typeExpr r.file r.node, s)

/-- The meaning of a type in the place of an argument. -/
def typeOperand (s : Session) (r : Ref) : Option Ty × Session :=
  let needed := r.node.kind = .identifier || (TypeExpr.ofTree r.node).isLocal
  let s := if needed then s.indexed else s
  (s.env.typeOperand r.file r.node, s)

end Session

end CtxThread
