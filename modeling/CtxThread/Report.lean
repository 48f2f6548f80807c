import CtxThread.Text.Json
import CtxThread.Update

/-!
# The report of a run

What was changed in each file, and totals over all files, as a JSON document.
-/

namespace CtxThread.Report

open Text (Json)

/-- The account of one file. -/
def ofFile (u : FileUpdate) : Json :=
  .object [
    ("renamed_calls", .number u.renamed),
    ("augmented_functions", .list (u.augmented.map .string)),
    ("seeded_entry_points", .list (u.seeded.map .string)),
    ("patched_call_sites", .number u.patched),
    ("import_added", .bool u.importAdded),
    ("edits", .number u.plan.size)]

/-- A total over all files. -/
def total (us : List FileUpdate) (count : FileUpdate → Nat) : Json :=
  .number (us.foldr (fun u n => count u + n) 0)

/-- The totals over all files. -/
def totals (us : List FileUpdate) : Json :=
  .object [
    ("renamed_calls", total us (·.renamed)),
    ("patched_call_sites", total us (·.patched)),
    ("edits", total us (·.plan.size)),
    ("augmented_functions", total us (·.augmented.length)),
    ("seeded_entry_points", total us (·.seeded.length)),
    ("imports_added", total us (·.importAdded.toNat)),
    ("files_changed", total us (·.changed.toNat))]

/-- The report of a run that updated the given files. -/
def ofFiles (us : List FileUpdate) : Json :=
  .object [
    ("files", .object (us.map fun u => (u.file.path.render, ofFile u))),
    ("global_totals", totals us)]

end CtxThread.Report
