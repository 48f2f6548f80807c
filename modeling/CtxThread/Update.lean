import CtxThread.CallSite
import CtxThread.ContextImport
import CtxThread.Handler
import CtxThread.Retarget
import CtxThread.Seed

/-!
# Updating files

One walk over a file plans all of its changes: database calls are directed at the methods that
take a context, declarations gain a context parameter and their call sites in the file the
argument, and handlers start by binding the context.

## Main definitions

- `FileUpdate`: the plan of a file, with an account of it
- `updateFile`: planning the changes of a file
- `updatePackage`: planning the changes of a package, or of some of its files
- `updateSource`: the new text of a file by itself
-/

namespace CtxThread

open Code (Tree Site)

/-- The changes planned for a file, and an account of them. -/
structure FileUpdate where
  file : SourceFile
  plan : Plan := {}
  /-- How many database calls were directed at another method. -/
  renamed : Nat := 0
  /-- The names of the declarations that gained a parameter. -/
  augmented : List String := []
  /-- The labels of the functions that gained a first statement. -/
  seeded : List String := []
  /-- How many calls gained an argument because of the declarations they are directed at. -/
  patched : Nat := 0
  importAdded : Bool := false

namespace FileUpdate

/-- Something is changed. -/
def changed (u : FileUpdate) : Bool := u.plan.isChange

/-- The new text of the file. -/
def output (u : FileUpdate) : Except Edit.Overlap Bytes := u.plan.apply u.file.src

/-- Plans the replacement of a method name and the context as the first argument of its call. -/
def retarget (u : FileUpdate) (call : Tree) (hit : Tree × String) : FileUpdate :=
  match u.plan.replace hit.1 hit.2 with
  | (true, p) =>
    { u with plan := (p.prependContext u.file.src call).2, renamed := u.renamed + 1 }
  | (false, p) => { u with plan := p }

/-- Plans the context as the first parameter of a function, if it has parameters; also says
whether it has. -/
def augmentParams (src : Bytes) (func : Tree) (p : Plan) : Bool × Plan :=
  match func.child? .parameters with
  | none => (false, p)
  | some list =>
    let e := leadingItem src list list.paramDecls Naming.contextParameter
    (true, p.replaceSpan e.start e.stop e.text)

/-- Plans the context parameter of a declaration and the argument of its call sites. -/
def augment (u : FileUpdate) (decl : Tree) : FileUpdate :=
  let p := (augmentParams u.file.src decl u.plan).2
  let name := decl.nameText?.getD ""
  let (n, p) := CallSite.patch name u.file.src u.file.root p
  { u with plan := p, augmented := u.augmented ++ [name], patched := u.patched + n }

/-- Plans the statement that binds the context in a function. -/
def seed (u : FileUpdate) (func : Tree) (statement : String) : FileUpdate :=
  match Seed.plan u.file.src func statement u.plan with
  | (true, p) =>
    { u with plan := p, seeded := u.seeded ++ [Handler.label u.file.src func] }
  | (false, p) => { u with plan := p }

/-- Plans the changes of a function or method declaration. -/
def declaration (u : FileUpdate) (s : Settings) (decl : Tree) : FileUpdate :=
  let u := if Handler.gainsContext s decl then u.augment decl else u
  let u := if Handler.isHttp s decl then u.seed decl Naming.httpSeed else u
  if Handler.isEcho s decl then u.seed decl Naming.echoSeed else u

/-- Plans the changes that one node gives rise to. -/
def visit (env : Env) (s : Settings) (file : Nat) (u : FileUpdate) (site : Site) :
    Resolving FileUpdate := do
  let t := site.node
  if t.kind = .callExpression then
    match ← Retarget.hit env ⟨file, site⟩ with
    | some hit => return u.retarget t hit
    | none => return u
  else if t.kind.isFuncDecl then return u.declaration s t
  else if t.kind = .funcLiteral && Handler.isEcho s t then return u.seed t Naming.echoSeed
  else return u

/-- Plans the import of the context package in a file that is changed. -/
def finish (u : FileUpdate) : FileUpdate :=
  if u.changed then
    match ContextImport.plan u.file u.plan with
    | (added, p) => { u with plan := p, importAdded := added }
  else u

end FileUpdate

/-- Plans the changes of file number `i` of a package. -/
def updateFile (env : Env) (s : Settings) (i : Nat) (f : SourceFile) :
    Resolving FileUpdate := do
  let u ← (Site.root f.root).walk.foldlM (FileUpdate.visit env s i) { file := f }
  return u.finish

/-- Whether a file is among those asked for: all are, unless names are given. -/
def isSelected (only : List String) (f : SourceFile) : Bool :=
  only.isEmpty || only.any fun n => (Path.ofString n).name = f.path.name

/-- Plans the changes of the files of a package that are asked for. The other files still tell
what is declared. -/
def updatePackage (p : Package) (s : Settings) (only : List String) :
    Option (List FileUpdate) :=
  let env := Env.ofPackage p
  let chosen := p.files.zipIdx.filter fun f => isSelected only f.1
  (chosen.mapM fun f => updateFile env s f.2 f.1).run' {}

/-- The new text of a file that is a package of its own. -/
def updateSource (f : SourceFile) (s : Settings) : Option (Except Edit.Overlap Bytes) :=
  (updatePackage ⟨f.packageName, [f]⟩ s []).bind fun us => us.head?.map (·.output)

end CtxThread
