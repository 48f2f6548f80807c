import CtxThread.Edit.Plan
import CtxThread.Source.Import

/-!
# Importing the context package

A file that uses the context and does not import it gains an import right after its package
clause.
-/

namespace CtxThread.ContextImport

/-- The import that a file gains. -/
def group : String := "import (\n\t\"" ++ Naming.contextPath ++ "\"\n)"

/-- Plans the import of the context package unless the file has it; also says whether it did. It
goes to the end of the line of the package clause, so that a comment stays with the clause. -/
def plan (f : SourceFile) (p : Plan) : Bool × Plan :=
  if f.importCount Naming.contextPath ≠ 0 then (false, p)
  else match f.clause? with
    | none => (true, p.insert 0 (group ++ "\n\n"))
    | some clause =>
      match f.src.lineEnd? clause.stop with
      | some eol => (true, p.insert eol ("\n\n" ++ group))
      | none => (true, (p.insert f.src.length ("\n\n" ++ group)).insert f.src.length "\n")

end CtxThread.ContextImport
