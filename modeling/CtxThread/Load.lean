import CtxThread.Disk
import CtxThread.Naming
import CtxThread.Source

/-!
# Loading a directory

The source files directly inside a directory, grouped by package. A package with a file that
cannot be read or parsed is kept with its errors, so that it can be left alone. What is told of a
text that does not parse is a parameter.

## Main definitions

- `Diagnosis`: what is told of a text that does not parse
- `FileError`, `LoadError`: what can go wrong
- `Loaded`: the files and the errors of one package
- `load`: the packages of a directory
-/

namespace CtxThread

/-- What is told of a text that does not parse. -/
structure Diagnosis where
  /-- The package that the text claims to belong to. -/
  package : String
  /-- The line and the column of the first error, if they are told. -/
  place : Option (Nat × Nat) := none

/-- Why a file is not part of its package. -/
inductive FileError where
  | unreadable (path : Path) (cause : OsError)
  | malformed (path : Path) (place : Option (Nat × Nat))

/-- How a file that is left out is reported. -/
def FileError.message : FileError → String
  | .unreadable path cause => "Failed to read " ++ path.render ++ ": " ++ cause.message
  | .malformed path none => path.render ++ ": syntax error"
  | .malformed path (some (line, column)) =>
    path.render ++ ":" ++ toString line ++ ":" ++ toString column ++ ": syntax error"

/-- Why a directory is not loaded. -/
inductive LoadError where
  /-- The directory cannot be listed. -/
  | unlisted (directory : Path) (cause : OsError)
  /-- It cannot be told whether an entry of the directory is a directory itself. -/
  | untold (cause : OsError)

/-- How a directory that is not loaded is reported. -/
def LoadError.message : LoadError → String
  | .unlisted directory cause =>
    "Failed to read directory " ++ directory.render ++ ": " ++ cause.message
  | .untold cause => cause.message

/-- The files of one package, and the errors of those that could not be used. -/
structure Loaded where
  name : String
  files : List SourceFile := []
  errors : List FileError := []

namespace Loaded

/-- All files of the package could be used. -/
def ok (l : Loaded) : Bool := l.errors.isEmpty

/-- The package. -/
def package (l : Loaded) : Package := ⟨l.name, l.files⟩

/-- Changes the package `name`, which joins the others when it is not among them yet. -/
def update (name : String) (change : Loaded → Loaded) : List Loaded → List Loaded
  | [] => [change { name := name }]
  | l :: ls => if l.name = name then change l :: ls else l :: update name change ls

end Loaded

/-- A name that source files have: it ends in the extension and is longer. -/
def isSourceName (name : String) : Bool :=
  Naming.extension.toList.isSuffixOf name.toList && Naming.extension.length < name.length

/-- The path of an entry of a directory. -/
def entryPath (dir : Path) (name : String) : Path := dir.join ⟨"", [name]⟩

/-- The paths of the source files among the entries of a directory. Every entry is looked up. -/
def sourcesAmong (d : Disk) (dir : Path) : List String → Except OsError (List Path)
  | [] => .ok []
  | name :: names => do
    let status ← d.status (entryPath dir name)
    let paths ← sourcesAmong d dir names
    if status.any Entry.isDirectory || !isSourceName name then return paths
    else return entryPath dir name :: paths

/-- The paths of the source files directly inside a directory, in ascending order. -/
def sourcePaths (d : Disk) (dir : Path) : Except LoadError (List Path) :=
  match d.list dir with
  | .error e => .error (.unlisted dir e)
  | .ok names => (sourcesAmong d dir names).mapError .untold

/-- Adds one file to its package. -/
def addFile (diagnose : Bytes → Diagnosis) (d : Disk) (packages : List Loaded) (path : Path) :
    List Loaded :=
  match d.read path with
  | .error e =>
    Loaded.update "" (fun l => { l with errors := l.errors ++ [.unreadable path e] }) packages
  | .ok src =>
    match SourceFile.read? path src with
    | none =>
      Loaded.update (diagnose src).package
        (fun l => { l with errors := l.errors ++ [.malformed path (diagnose src).place] }) packages
    | some f =>
      Loaded.update f.packageName (fun l => { l with files := l.files ++ [f] }) packages

/-- The packages of a directory, in the order of their first files. -/
def load (diagnose : Bytes → Diagnosis) (d : Disk) (dir : Path) : Except LoadError (List Loaded) :=
  (sourcePaths d dir).map fun paths => paths.foldl (addFile diagnose d) []

end CtxThread
