import CtxThread.Code.Outline
import CtxThread.Source.Import
import CtxThread.Types.Basic

/-!
# The declarations of a package

An index of what the files of a package declare at their top level. When a name is declared more
than once, the last declaration counts.

## Main definitions

- `Ref`: a node of one of the files
- `Index`: the top-level declarations by name
- `Index.ofFiles`: the index of a list of files
-/

namespace CtxThread

open Code (Tree Site)

/-- A node of one of the files of a package, with what is around it. -/
structure Ref where
  file : Nat
  site : Site

namespace Ref

/-- The node itself. -/
def node (r : Ref) : Tree := r.site.node

/-- The node at another site of the same file. -/
def move (r : Ref) (s : Site) : Ref := ⟨r.file, s⟩

/-- The first child that plays the part `role`. -/
def child? (r : Ref) (role : Code.Role) : Option Ref := (r.site.child? role).map r.move

/-- The first child that is neither a sign nor a comment. -/
def firstItem? (r : Ref) : Option Ref := (r.node.firstItem?.map r.site.enter).map r.move

end Ref

/-- The top-level declarations of a package by name, the latest first. -/
structure Index where
  types : List (String × Ref) := []
  funcs : List (String × Ref) := []
  methods : List ((String × String) × Ref) := []
  globals : List (String × Ref) := []

namespace Index

/-- Adds one top-level declaration. -/
def add (i : Index) (file : Nat) (decl : Site) : Index :=
  let ref (s : Site) : Ref := ⟨file, s⟩
  let t := decl.node
  match t.kind with
  | .typeDeclaration =>
    (decl.children.filter fun s =>
        s.node.kind = .typeSpec ∨ s.node.kind = .typeAlias).foldl
      (fun i s =>
        match s.node.nameText? with
        | some name => { i with types := (name, ref s) :: i.types }
        | none => i)
      i
  | .functionDeclaration =>
    match t.nameText? with
    | some name => { i with funcs := (name, ref decl) :: i.funcs }
    | none => i
  | .methodDeclaration =>
    match t.nameText?, t.receiverName? with
    | some name, some receiver =>
      if receiver = "" then i
      else { i with methods := ((receiver, name), ref decl) :: i.methods }
    | _, _ => i
  | .varDeclaration =>
    (decl.varSpecs.flatMap (·.node.names)).foldl
      (fun i name => { i with globals := (name, ref decl) :: i.globals }) i
  | _ => i

/-- Adds the top-level declarations of a file. -/
def addFile (i : Index) (file : Nat) (root : Tree) : Index :=
  (Site.root root).children.foldl (fun i decl => i.add file decl) i

/-- The index of a list of files. -/
def ofFiles (files : List SourceFile) : Index :=
  files.zipIdx.foldl (fun i f => i.addFile f.2 f.1.root) {}

end Index

end CtxThread
