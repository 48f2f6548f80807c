import CtxThread.Types.Index
import CtxThread.Types.Known

/-!
# Written types in a package

What a written type means depends on the imports of its file and on the types that the package
declares. An alias means what its right side means in the file that declares it; an alias that
leads back to itself means nothing.

## Main definitions

- `Env`: a package with the index of its declarations
- `Env.namedType`: the meaning of a type name of the package
- `Env.typeExpr`: the meaning of a written type
- `Env.fieldType`: the type of a field of a declared struct
-/

namespace CtxThread

open Code (Tree)

/-- What tells two nodes of a package apart. -/
structure NodeId where
  file : Nat
  key : Tree.Key
  deriving DecidableEq

/-- The identity of a node. -/
def Ref.id (r : Ref) : NodeId := ⟨r.file, r.node.key⟩

/-- A package as far as types go: its name, its files, and the index of their declarations. -/
structure Env where
  package : String
  files : List SourceFile
  index : Index

namespace Env

/-- The environment of a package. -/
def ofPackage (p : Package) : Env := ⟨p.name, p.files, .ofFiles p.files⟩

/-- The path that a local name stands for in a file. -/
def importPath? (env : Env) (file : Nat) (name : String) : Option String :=
  env.files[file]?.bind (·.importPath? name)

end Env

/-- The meaning of a written type, given the meanings of the type names of the package and the
paths of the imported names. There are no pointers to pointers or to containers. -/
def TypeExpr.resolve (byName : String → Option Ty) (imported : String → Option String) :
    TypeExpr → Option Ty
  | .name n => byName n
  | .qualified p n => (imported p).map fun path => .named path n false
  | .pointer t => (t.resolve byName imported).bind Ty.address?
  | .container k t => (t.resolve byName imported).map (.container k)
  | .other => none

namespace Env

/-- The meaning of a type name of the package, where the aliases `visited` are being followed.
At most `fuel` aliases are followed. -/
def followName (env : Env) : Nat → List NodeId → String → Option Ty
  | 0, _, _ => none
  | fuel + 1, visited, name =>
    match env.index.types.lookup name with
    | none => none
    | some r =>
      if r.node.kind = .typeAlias then
        if visited.contains r.id then none
        else (r.node.child? .type).bind fun t =>
          (TypeExpr.ofTree t).resolve (env.followName fuel (r.id :: visited))
            (env.importPath? r.file)
      else some (.named env.package name false)

/-- The meaning of a type name of the package. There are no more aliases to follow than types. -/
def namedType (env : Env) (name : String) : Option Ty :=
  env.followName (env.index.types.length + 1) [] name

/-- The meaning of a type written in a file. -/
def typeExpr (env : Env) (file : Nat) (t : Tree) : Option Ty :=
  (TypeExpr.ofTree t).resolve env.namedType (env.importPath? file)

/-- The meaning of the type that a node has as its type child. -/
def typeChild (env : Env) (r : Ref) : Option Ty :=
  (r.node.child? .type).bind (env.typeExpr r.file)

/-- The meaning of a type in the place of an argument, where it may have been read as an
expression. -/
def typeOperand (env : Env) (file : Nat) (t : Tree) : Option Ty :=
  match t.kind with
  | .identifier => env.namedType t.text
  | .selectorExpression =>
    match t.child? .operand, t.child? .field with
    | some operand, some field =>
      if operand.kind = .identifier then
        (env.importPath? file operand.text).map fun path => .named path field.text false
      else none
    | _, _ => none
  | _ => env.typeExpr file t

/-- A type that the package itself declares. -/
def isLocal (env : Env) : Ty → Bool
  | .named pkg name _ => pkg = env.package && (env.index.types.lookup name).isSome
  | .container _ _ => false

/-- The type of a field of a struct type that the package declares. -/
def fieldType (env : Env) (type field : String) : Option Ty :=
  (env.index.types.lookup type).bind fun r =>
    (r.node.child? .type).bind fun struct =>
      if struct.kind = .structType then
        (struct.structFields.find? fun d => d.names.contains field).bind fun d =>
          (d.child? .type).bind (env.typeExpr r.file)
      else none

/-- The type of one result of a declared function or method. Names in a list of results count
one result each. -/
def declaredResult (env : Env) (decl : Ref) (index : Nat) : Option Ty :=
  (decl.node.child? .result).bind fun result =>
    if result.kind = .parameterList then
      let types := result.paramDecls.flatMap fun d =>
        List.replicate (max 1 (d.childrenIn .name).length) (d.child? .type)
      (types[index]?.join).bind (env.typeExpr decl.file)
    else if index = 0 then env.typeExpr decl.file result
    else none

end Env

end CtxThread
