/-!
# File paths

A path is a root, which a relative path lacks, and the names that lead from there to a file.
Empty names and names that stay where they are do not count; a name that goes up does.

## Main definitions

- `Path.ofString`, `Path.render`: reading and writing a path
- `Path.asWritten`: a path with the names that stay where they are
- `Path.join`, `Path.parent`, `Path.name`: taking paths apart and putting them together
-/

namespace CtxThread

/-- A file path. The root is empty for a relative path. -/
structure Path where
  root : String
  parts : List String
  deriving DecidableEq

namespace Path

/-- The names of a written path. -/
def splitNames (s : String) : List String :=
  (s.toList.splitOnP (· = '/')).map String.ofList |>.filter fun n => n ≠ "" && n ≠ "."

/-- The root of a written path: two leading slashes are a root of their own, any other number of
them is one slash. -/
def rootOf (s : String) : String :=
  match (s.toList.takeWhile (· = '/')).length with
  | 0 => ""
  | 2 => "//"
  | _ => "/"

/-- Reads a path. -/
def ofString (s : String) : Path := ⟨rootOf s, splitNames s⟩

/-- Reads a path, and keeps the names that stay where they are. -/
def asWritten (s : String) : Path :=
  ⟨rootOf s, (s.toList.splitOnP (· = '/')).map String.ofList |>.filter (· ≠ "")⟩

/-- The place where a path starts: the working directory or the root. -/
def start (p : Path) : List String := if p.root = "" then [] else ["/"]

/-- The names to follow from there; the path to the current directory is a dot. -/
def steps (p : Path) : List String :=
  if p.root = "" && p.parts.isEmpty then ["."] else p.parts

/-- Writes a path; the path to the current directory is a dot. -/
def render (p : Path) : String :=
  if p.root = "" && p.parts.isEmpty then "." else p.root ++ "/".intercalate p.parts

/-- The last name of a path, empty when it has none. -/
def name (p : Path) : String := p.parts.getLast?.getD ""

/-- The path without its last name. -/
def parent (p : Path) : Path := { p with parts := p.parts.dropLast }

/-- The path `q` as seen from `p`. -/
def join (p q : Path) : Path := if q.root = "" then ⟨p.root, p.parts ++ q.parts⟩ else q

end Path

end CtxThread
