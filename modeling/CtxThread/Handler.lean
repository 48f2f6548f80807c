import CtxThread.Code.Outline
import CtxThread.Naming

/-!
# Kinds of functions

Functions that a framework or the runtime calls are told by the way their parameters are
written, so that they are recognised even where imports cannot be followed.

## Main definitions

- `Settings`: the local names of the two web packages
- `Handler.isHttp`, `Handler.isEcho`, `Handler.isMiddleware`: functions a framework calls
- `Handler.isEntryPoint`: functions the runtime calls
- `Handler.gainsContext`: declarations that gain a context parameter
- `Handler.label`: how a function is referred to
-/

namespace CtxThread

open Code (Tree)

/-- The local names of the web packages whose handlers are recognised. -/
structure Settings where
  http : String := "http"
  echo : String := "echo"

namespace Handler

/-- Whether a written type is the type `name` of the package with the local name `pkg`. -/
def isQualified (pkg name : String) (t : Tree) : Bool :=
  t.kind = .qualifiedType &&
    (t.child? .package).any (·.text = pkg) && (t.child? .name).any (·.text = name)

/-- Whether a written type is a pointer to the type `name` of the package `pkg`. -/
def isPointerTo (pkg name : String) (t : Tree) : Bool :=
  t.kind = .pointerType && t.firstItem?.any (isQualified pkg name)

/-- The written types of the parameters of a function, one for each declaration. -/
def paramTypes (func : Tree) : List (Option Tree) := func.params.map (·.child? .type)

/-- A handler of the standard library: a response writer and a pointer to a request. -/
def isHttp (s : Settings) (func : Tree) : Bool :=
  match paramTypes func with
  | [w, r] => w.any (isQualified s.http "ResponseWriter") && r.any (isPointerTo s.http "Request")
  | _ => false

/-- Whether the first parameter of a function has the type `name` of the package `pkg`. -/
def takesFirst (pkg name : String) (func : Tree) : Bool :=
  match paramTypes func with
  | first :: _ => first.any (isQualified pkg name)
  | [] => false

/-- A handler of the web framework. -/
def isEcho (s : Settings) (func : Tree) : Bool := takesFirst s.echo "Context" func

/-- A function of the web framework that wraps a handler. -/
def isMiddleware (s : Settings) (func : Tree) : Bool := takesFirst s.echo "HandlerFunc" func

/-- The main function. -/
def isMain (func : Tree) : Bool :=
  func.kind = .functionDeclaration && func.nameText? = some "main"

/-- A function that the runtime calls. -/
def isEntryPoint (func : Tree) : Bool :=
  func.kind = .functionDeclaration && func.nameText?.any Naming.entryPoints.contains

/-- A function whose first parameter is the context already. -/
def hasContext (func : Tree) : Bool := func.firstParamName? = some Naming.context

/-- A declaration that gains a context parameter: nobody but the package itself calls it, and it
has no context yet. -/
def gainsContext (s : Settings) (func : Tree) : Bool :=
  func.kind ≠ .funcLiteral &&
    !(isHttp s func || isEcho s func || isMiddleware s func || isEntryPoint func ||
      hasContext func)

/-- How a function is referred to: by its name, or by the line it starts on. -/
def label (src : Bytes) (func : Tree) : String :=
  let byLine :=
    "func literal at line " ++ toString ((src.take func.start).count Bytes.lineFeed + 1)
  match func.nameText? with
  | some name => if name = "" then byLine else name
  | none => byLine

end Handler

end CtxThread
