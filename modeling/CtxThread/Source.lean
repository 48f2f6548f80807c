import CtxThread.Code.Parse
import CtxThread.Path

/-!
# Source files and packages

A source file is a text that parses, together with its tree. Files with the same package name
form a package.

## Main definitions

- `SourceFile`: a parsed file
- `SourceFile.read?`: parsing a file
- `Package`: files that belong together
-/

namespace CtxThread

open Code (Tree)

/-- A parsed source file. -/
structure SourceFile where
  path : Path
  src : Bytes
  root : Tree

/-- The text of any node of a tree over `src`. -/
def nodeText (src : Bytes) (t : Tree) : String := Utf8.decode (src.slice t.start t.stop)

namespace SourceFile

/-- Parses a file; `none` when the text has a syntax error. -/
def read? (path : Path) (src : Bytes) : Option SourceFile :=
  (Code.parse? src).map fun root => ⟨path, src, root⟩

/-- The package clause of a file. -/
def clause? (f : SourceFile) : Option Tree := f.root.childOfKind? .packageClause

/-- The name in the package clause, empty when there is no clause. -/
def packageName (f : SourceFile) : String :=
  ((f.clause?.bind (·.childOfKind? .packageIdentifier)).map Tree.text).getD ""

end SourceFile

/-- Files that belong together. -/
structure Package where
  name : String
  files : List SourceFile

end CtxThread
