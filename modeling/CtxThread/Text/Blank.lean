/-!
# White space in text

The white space that is dropped when two statements are compared for their wording: the ASCII
blanks, the separators U+001C to U+001F, and the Unicode spaces and line separators.
-/

namespace CtxThread.Text

/-- A white-space character. -/
def isBlank (c : Char) : Bool :=
  let n := c.toNat
  n = 0x20 || (0x09 ≤ n && n ≤ 0x0D) || (0x1C ≤ n && n ≤ 0x1F) || n = 0x85 || n = 0xA0 ||
    n = 0x1680 || (0x2000 ≤ n && n ≤ 0x200A) || n = 0x2028 || n = 0x2029 || n = 0x202F ||
    n = 0x205F || n = 0x3000

/-- The text without its white space. -/
def squash (s : String) : String := String.ofList (s.toList.filter (!isBlank ·))

/-- The text without the white space at its two ends. -/
def strip (s : String) : String :=
  let front := s.toList.dropWhile isBlank
  String.ofList (front.reverse.dropWhile isBlank).reverse

end CtxThread.Text
