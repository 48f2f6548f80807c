import CtxThread.Text.Printable

/-!
# Quoting text in messages

A text in a message stands in single quotes, or in double quotes when it holds single quotes
only. The quote itself, backslashes and characters that are not printable are escaped.
-/

namespace CtxThread.Text

/-- The last `width` hexadecimal digits of `n`. -/
def hexDigits (width n : Nat) : String :=
  String.ofList ((List.range width).reverse.map fun i => Nat.digitChar ((n >>> (4 * i)) % 16))

/-- A character that is not printable, as an escape sequence. -/
def escapeCode (c : Char) : String :=
  if c.toNat < 0x100 then "\\x" ++ hexDigits 2 c.toNat
  else if c.toNat < 0x10000 then "\\u" ++ hexDigits 4 c.toNat
  else "\\U" ++ hexDigits 8 c.toNat

/-- A character inside the quotation marks `mark`. -/
def quoteChar (mark c : Char) : String :=
  if c = mark || c = '\\' then String.ofList ['\\', c]
  else if c = '\t' then "\\t"
  else if c = '\n' then "\\n"
  else if c = '\r' then "\\r"
  else if isPrintable c then String.ofList [c]
  else escapeCode c

/-- The quotation mark for a text. -/
def markFor (s : String) : Char :=
  if s.toList.contains '\'' && !s.toList.contains '"' then '"' else '\''

/-- The text in quotation marks. -/
def quote (s : String) : String :=
  let mark := markFor s
  String.ofList [mark] ++ String.join (s.toList.map (quoteChar mark)) ++ String.ofList [mark]

end CtxThread.Text
