import CtxThread.Code.Tree

/-!
# Types and type expressions

The types that matter here: named types of a package, pointers to them, and slices, arrays and
maps of types, of which only the element type is kept.

## Main definitions

- `Ty`: a type
- `Ty.render`: how a type is written
- `TypeExpr`: the part of a written type that tells which type it is
- `TypeExpr.ofTree`: reading it off a syntax tree
-/

namespace CtxThread

open Code (Tree Role)

/-- The containers whose element type is kept. -/
inductive Container where
  | slice | array | map
  deriving DecidableEq

/-- A type. -/
inductive Ty where
  /-- The type `name` of the package with the given path, or a pointer to it. -/
  | named (pkg name : String) (pointer : Bool)
  /-- A slice, an array, or a map to `elem`. -/
  | container (kind : Container) (elem : Ty)
  deriving DecidableEq

namespace Ty

/-- How a container is written before its element type. -/
def containerMark : Container → String
  | .slice => "[]"
  | .array => "[...]"
  | .map => "map[...]"

/-- How a type is written. -/
def render : Ty → String
  | .named pkg name pointer =>
    (if pointer then "*" else "") ++ (if pkg = "" then name else pkg ++ "." ++ name)
  | .container kind elem => containerMark kind ++ elem.render

/-- The pointer to a named type, which is the type itself when that is a pointer. -/
def pointerTo? : Ty → Option Ty
  | .named pkg name _ => some (.named pkg name true)
  | .container _ _ => none

/-- The pointer to a named type that is no pointer itself. -/
def address? : Ty → Option Ty
  | .named pkg name false => some (.named pkg name true)
  | _ => none

/-- The type of the elements of a container. -/
def elem? : Ty → Option Ty
  | .container _ elem => some elem
  | _ => none

/-- The type of a slice of a container: only slices and arrays can be sliced. -/
def sliced? : Ty → Option Ty
  | .container .map _ => none
  | .container _ elem => some (.container .slice elem)
  | _ => none

end Ty

/-- The part of a written type that tells which type it is. -/
inductive TypeExpr where
  | name (n : String)
  | qualified (pkg name : String)
  | pointer (target : TypeExpr)
  | container (kind : Container) (elem : TypeExpr)
  /-- A type that is not followed any further. -/
  | other
  deriving DecidableEq

namespace TypeExpr

mutual

/-- Reads a written type. Parentheses do not count. -/
def ofTree : Tree → TypeExpr
  | ⟨kind, role, start, stop, bytes, children⟩ =>
    let t : Tree := ⟨kind, role, start, stop, bytes, children⟩
    match kind with
    | .pointerType => .pointer (ofItem children)
    | .parenthesizedType => ofItem children
    | .qualifiedType =>
      match t.child? .package, t.child? .name with
      | some p, some n => .qualified p.text n.text
      | _, _ => .other
    | .sliceType => .container .slice (ofRole .element children)
    | .arrayType => .container .array (ofRole .element children)
    | .implicitLengthArrayType => .container .array (ofRole .element children)
    | .mapType => .container .map (ofRole .value children)
    | .typeIdentifier => .name t.text
    | _ => .other

/-- Reads the first of the trees that is neither a sign nor a comment. -/
def ofItem : List Tree → TypeExpr
  | [] => .other
  | t :: ts => if t.isItem then ofTree t else ofItem ts

/-- Reads the first of the trees that plays the part `r`. -/
def ofRole (r : Role) : List Tree → TypeExpr
  | [] => .other
  | t :: ts => if t.role = some r then ofTree t else ofRole r ts

end

/-- Whether the meaning of a written type depends on the types that the package declares. -/
def isLocal : TypeExpr → Bool
  | .name _ => true
  | .pointer t => t.isLocal
  | .container _ t => t.isLocal
  | _ => false

end TypeExpr

end CtxThread
