import CtxThread.Source
import CtxThread.Text.Digit

/-!
# Imports

Which packages a file imports, and under which local names.

## Main definitions

- `Import.defaultName`: the name of a package imported without one
- `SourceFile.importSpecs`, `SourceFile.importPaths`: the import specs and their paths
- `SourceFile.imports`: the local names and what they stand for
-/

namespace CtxThread

open Code (Tree)

namespace Import

/-- The parts of a text between single characters `sep`. -/
def splitAt (sep : Char) (s : String) : List String :=
  (s.toList.splitOnP (· = sep)).map String.ofList

/-- A path segment that only tells a major version: `v` and digits. -/
def isVersion (segment : String) : Bool :=
  match segment.toList with
  | 'v' :: c :: cs => (c :: cs).all Text.isDigit
  | _ => false

/-- The text without the leading `go-`, if it has one. -/
def dropGo (s : String) : String :=
  match s.toList with
  | 'g' :: 'o' :: '-' :: rest => String.ofList rest
  | _ => s

/-- The name that a package is referred to by when it is imported without one: the last segment
of its path that is no version, without a leading `go-`, up to the first dot, with underscores
for hyphens. -/
def defaultName (path : String) : String :=
  match ((splitAt '/' path).filter (· ≠ "")).reverse with
  | [] => path
  | last :: before =>
    let segment :=
      match before with
      | previous :: _ => if isVersion last then previous else last
      | [] => last
    let stem := (dropGo segment).toList.takeWhile (· ≠ '.')
    String.ofList (stem.map fun c => if c = '-' then '_' else c)

/-- The path that a string literal spells: its text without the quotes around it. -/
def unquote (literal : String) : String :=
  let isQuote (c : Char) : Bool := c = '"' || c = Char.ofNat 0x60
  String.ofList ((literal.toList.dropWhile isQuote).reverse.dropWhile isQuote).reverse

/-- The path of an import spec. -/
def path? (spec : Tree) : Option String := (spec.child? .path).map fun t => unquote t.text

/-- The local name that an import spec binds. A blank import and one into the file itself bind
none. -/
def boundName? (spec : Tree) : Option String :=
  match spec.child? .name with
  | none => (path? spec).map defaultName
  | some given =>
    if given.kind = .blankIdentifier ∨ given.kind = .dot then none else some given.text

/-- Binds a name in a table, in place of what it stood for before. -/
def bind (table : List (String × String)) (name path : String) : List (String × String) :=
  if table.any (·.1 = name) then table.map fun e => if e.1 = name then (name, path) else e
  else table ++ [(name, path)]

end Import

namespace SourceFile

/-- The import specs of a file in order. -/
def importSpecs (f : SourceFile) : List Tree :=
  (f.root.children.filter (·.kind = .importDeclaration)).flatMap (·.allOfKind .importSpec)

/-- The paths of the import specs in order. -/
def importPaths (f : SourceFile) : List String := f.importSpecs.filterMap Import.path?

/-- How many import specs have the path `path`. -/
def importCount (f : SourceFile) (path : String) : Nat := f.importPaths.count path

/-- The local names that imports bind, and the paths they stand for. The last import of a name
wins. -/
def imports (f : SourceFile) : List (String × String) :=
  f.importSpecs.foldl
    (fun table spec =>
      match Import.boundName? spec, Import.path? spec with
      | some name, some path => Import.bind table name path
      | _, _ => table)
    []

/-- The path that a local name stands for. -/
def importPath? (f : SourceFile) (name : String) : Option String := f.imports.lookup name

end SourceFile

end CtxThread
