import CtxThread.Code.Tree

/-!
# Listing a tree

A syntax tree as indented lines, one for each node: its kind and the points where it starts and
ends.

## Main definitions

- `Code.Point`: a line and a column, counted from zero
- `Code.Point.ofOffset`: the point at an offset of a text
- `Code.Point.table`: the points at all offsets of a text
- `Code.Tree.listing`: the lines of a tree

## Main statements

- `Code.Point.table_getElem?`: the table holds the point of each offset up to the end of the text
-/

namespace CtxThread.Code

/-- A place in a text: its line and the byte column in that line, both counted from zero. -/
structure Point where
  row : Nat
  column : Nat
  deriving DecidableEq

namespace Point

/-- The point where a text starts. -/
def origin : Point := ⟨0, 0⟩

/-- The point after the byte `b`. -/
def next (p : Point) (b : UInt8) : Point :=
  if b = Bytes.lineFeed then ⟨p.row + 1, 0⟩ else ⟨p.row, p.column + 1⟩

/-- The point at the offset `pos`. -/
def ofOffset (src : Bytes) (pos : Nat) : Point := (src.take pos).foldl next origin

/-- Adds to the points passed so far the one after the byte `b`; the last point is kept beside
them. -/
def pass (passed : Array Point × Point) (b : UInt8) : Array Point × Point :=
  (passed.1.push (passed.2.next b), passed.2.next b)

/-- The points at all offsets of a text, its end included. -/
def table (src : Bytes) : Array Point := (src.foldl pass (#[origin], origin)).1

/-- How a point is written. -/
def render (p : Point) : String :=
  "<Point row=" ++ toString p.row ++ ", column=" ++ toString p.column ++ ">"

/-- Passing over `src` from the point `p` keeps the points passed before and adds the point
after each byte. -/
theorem foldl_pass_toList (src : Bytes) (points : Array Point) (p : Point) :
    (src.foldl pass (points, p)).1.toList =
      points.toList ++ (List.range src.length).map fun i => (src.take (i + 1)).foldl next p := by
  induction src generalizing points p with
  | nil => simp
  | cons b rest ih =>
    rw [List.foldl_cons, pass, ih]
    simp [List.range_succ_eq_map, Function.comp_def]

/-- The table holds the point of each offset up to the end of the text. -/
theorem table_getElem? (src : Bytes) (pos : Nat) (h : pos ≤ src.length) :
    (table src)[pos]? = some (ofOffset src pos) := by
  rw [← Array.getElem?_toList, table, foldl_pass_toList]
  cases pos with
  | zero => simp [ofOffset]
  | succ i =>
    have hi : i < src.length := h
    simp [ofOffset, hi]

end Point

namespace Tree

/-- The line of one node, `depth` levels below the root. `points` are those of the text. -/
def line (points : Array Point) (depth : Nat) (t : Tree) : String :=
  let point (pos : Nat) := (points[pos]?.getD .origin).render
  String.ofList (List.replicate (2 * depth) ' ') ++ t.kind.name ++ " (" ++
    point t.start ++ " - " ++ point t.stop ++ ")"

mutual

/-- The lines of a tree whose root is `depth` levels deep: its own, then those of its children
one level deeper. -/
def listingFrom (points : Array Point) (depth : Nat) : Tree → List String
  | ⟨kind, role, start, stop, bytes, children⟩ =>
    line points depth ⟨kind, role, start, stop, bytes, children⟩ ::
      listingsFrom points (depth + 1) children

/-- The lines of the trees of a list, one tree after the other. -/
def listingsFrom (points : Array Point) (depth : Nat) : List Tree → List String
  | [] => []
  | t :: ts => listingFrom points depth t ++ listingsFrom points depth ts

end

/-- The lines of a tree of the text `src`. -/
def listing (src : Bytes) (t : Tree) : List String := listingFrom (Point.table src) 0 t

end Tree

end CtxThread.Code
