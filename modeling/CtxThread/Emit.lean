import CtxThread.Disk
import CtxThread.Text.Blank
import CtxThread.Text.Utf8
import CtxThread.Update

/-!
# Formatting and emitting files

An updated file goes through the formatter, if there is one, before it is written.

## Main definitions

- `Formatter`: what running the formatter leads to
- `EmitError`: why a file was not emitted
- `formatSource`: a text as the formatter leaves it
-/

namespace CtxThread

/-- What running the formatter leads to. -/
inductive Formatter where
  /-- There is no formatter. -/
  | absent
  /-- The formatter is there, but cannot be started. -/
  | failing (cause : OsCause)
  /-- The formatter yields a text, or fails with a message. -/
  | present (format : Bytes → Except Bytes Bytes)

/-- The name by which the formatter is started. -/
def Formatter.command : String := "gofmt"

/-- Why a file was not emitted. -/
inductive EmitError where
  /-- The formatter could not be started. -/
  | unstarted (cause : OsError)
  | rejected (message : Bytes)
  | unwritable (path : Path) (cause : OsError)
  | overlap (o : Edit.Overlap)

/-- How a file that was not emitted is reported. -/
def EmitError.message : EmitError → String
  | .unstarted cause => cause.message
  | .rejected m => "gofmt failed: " ++ Text.strip (Utf8.decode m)
  | .unwritable path cause => "Failed to write the file " ++ path.render ++ ": " ++ cause.message
  | .overlap o => o.message

/-- A text as the formatter leaves it. Without a formatter, or with one that is gone when it is
started, it stays as it is. -/
def formatSource (formatter : Formatter) (use : Bool) (src : Bytes) : Except EmitError Bytes :=
  if use then
    match formatter with
    | .absent => .ok src
    | .failing cause =>
      if cause = .notFound then .ok src else .error (.unstarted ⟨cause, Formatter.command⟩)
    | .present format => (format src).mapError .rejected
  else .ok src

/-- The formatted text of an updated file. -/
def FileUpdate.formatted (u : FileUpdate) (formatter : Formatter) (use : Bool) :
    Except EmitError Bytes :=
  (u.output.mapError .overlap).bind (formatSource formatter use)

end CtxThread
