import CtxThread.Order
import CtxThread.Text.Bytes

/-!
# Edits of a text

An edit replaces the bytes between two positions by a text. Several edits are applied at once:
they are taken in the order of their positions, and edits of the same span keep the order in
which they were given.

## Main definitions

- `Edit`: one replacement
- `Edit.splice`: a text with edits applied, or the overlap that prevents it
-/

namespace CtxThread

/-- The bytes from `start` up to `stop` are replaced by `text`. Positions are signed, because a
negative `stop` counts from the end of the text. -/
structure Edit where
  start : Int
  stop : Int
  text : String
  deriving DecidableEq

namespace Edit

/-- An edit that only inserts. -/
def insertion (pos : Int) (text : String) : Edit := ⟨pos, pos, text⟩

/-- Edits come in the order of their start, then of their stop. -/
def le (a b : Edit) : Bool := a.start < b.start || (a.start = b.start && a.stop ≤ b.stop)

/-- An edit that starts at `pos`, before the edit in front of it ends. -/
structure Overlap where
  pos : Int
  deriving DecidableEq

/-- How an overlap is reported. -/
def Overlap.message (o : Overlap) : String := "overlapping edits at byte " ++ toString o.pos

/-- Applies edits that are in order to the part of `src` that starts at `last`. -/
def weave (src : Bytes) : Int → List Edit → Except Overlap Bytes
  | last, [] => .ok (src.suffix last)
  | last, e :: es =>
    if e.start < last then .error ⟨e.start⟩
    else (weave src e.stop es).map fun tail =>
      src.between last e.start ++ Bytes.ofString e.text ++ tail

/-- The text with all edits applied. Insertions at one point keep their order. -/
def splice (src : Bytes) (es : List Edit) : Except Overlap Bytes :=
  weave src 0 (Order.sort le es)

end Edit

end CtxThread
