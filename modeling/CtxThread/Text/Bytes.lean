/-!
# Byte strings and byte positions

Source text is a list of bytes, and every position in it is a byte offset.

## Main definitions

- `Bytes`: source text
- `Bytes.slice`: the bytes between two offsets
- `Bytes.between`: the same for signed offsets, where a negative one counts from the end
- `Bytes.indentAt`: the blanks that open the line of an offset
- `Bytes.sameLine`: no line ends between two offsets
-/

namespace CtxThread

/-- Source text: a string of bytes. It need not be valid UTF-8. -/
abbrev Bytes := List UInt8

namespace Bytes

/-- The byte that ends a line. -/
def lineFeed : UInt8 := 0x0A

/-- The UTF-8 form of a text. -/
def ofString (s : String) : Bytes := s.toUTF8.data.toList

/-- The bytes from offset `start` up to offset `stop`; empty when `stop ≤ start`. -/
def slice (src : Bytes) (start stop : Nat) : Bytes := (src.take stop).drop start

/-- The offset that a signed position stands for: a negative position counts from the end, and
no position leaves the text. -/
def offset (src : Bytes) (i : Int) : Nat :=
  if i < 0 then (src.length + i).toNat else min i.toNat src.length

/-- The bytes between two signed positions. -/
def between (src : Bytes) (start stop : Int) : Bytes :=
  src.slice (src.offset start) (src.offset stop)

/-- The bytes from a signed position to the end. -/
def suffix (src : Bytes) (start : Int) : Bytes := src.drop (src.offset start)

/-- The number of bytes before the first `b`, or `none` when there is no `b`. -/
def indexOf? (b : UInt8) : Bytes → Option Nat
  | [] => none
  | c :: rest => if c = b then some 0 else (indexOf? b rest).map (· + 1)

/-- The offset of the first line end at or after `pos`. -/
def lineEnd? (src : Bytes) (pos : Nat) : Option Nat :=
  (indexOf? lineFeed (src.drop pos)).map (pos + ·)

/-- The offset at which the line of `pos` starts. -/
def lineStart (src : Bytes) (pos : Nat) : Nat :=
  (src.take pos).length - ((src.take pos).reverse.takeWhile (· ≠ lineFeed)).length

/-- A blank of a line's indentation: a tab or a space. -/
def isIndent (b : UInt8) : Bool := b = 0x09 || b = 0x20

/-- The tabs and spaces that open the line of `pos`. -/
def indentBytes (src : Bytes) (pos : Nat) : Bytes :=
  (src.drop (src.lineStart pos)).takeWhile isIndent

/-- No line ends between the offsets `a` and `b`, given in either order. -/
def sameLine (src : Bytes) (a b : Nat) : Bool :=
  !(src.slice (min a b) (max a b)).contains lineFeed

/-- White space between tokens: space, tab, line feed, vertical tab, form feed, carriage
return. -/
def isBlank (b : UInt8) : Bool := b = 0x20 || (0x09 ≤ b && b ≤ 0x0D)

/-- A byte that can stand between two statements without belonging to either: white space or a
semicolon. -/
def isSeparator (b : UInt8) : Bool := isBlank b || b = 0x3B

/-- Nothing but separators stands between `start` and `stop`. -/
def onlySeparators (src : Bytes) (start stop : Nat) : Bool :=
  (src.slice start stop).all isSeparator

end Bytes

end CtxThread
