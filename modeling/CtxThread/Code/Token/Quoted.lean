import CtxThread.Code.Token.Number

/-!
# Quoted literals

String literals in double quotes or back quotes, and rune literals. A string in double quotes
is made of runs of ordinary bytes and of escape sequences.

## Main definitions

- `Code.Quoted.escape?`: the length of the escape sequence a text opens with
- `Code.Quoted.parts?`: the parts of a string up to its closing quote
- `Code.Quoted.rune?`: the length of the rune literal a text opens with
-/

namespace CtxThread.Code.Quoted

/-- The double quote. -/
def doubleQuote : UInt8 := 0x22

/-- The single quote. -/
def singleQuote : UInt8 := 0x27

/-- The back quote. -/
def backQuote : UInt8 := 0x60

/-- The backslash. -/
def backslash : UInt8 := 0x5C

/-- Whether the text opens with `n` hexadecimal digits. -/
def hexes (n : Nat) (src : Bytes) : Bool :=
  (src.take n).length = n && (src.take n).all Number.isHex

/-- The number of bytes of the first character of a text. -/
def charWidth : Bytes → Nat
  | [] => 0
  | b :: rest => (Utf8.first b rest).width

/-- The length of the escape sequence that `src` continues after a backslash, the backslash
included. -/
def escape? (src : Bytes) : Option Nat :=
  match src with
  | [] => none
  | b :: rest =>
    if b = 0x00 then none
    else if b = 0x78 then
      let n := (rest.takeWhile Number.isHex).length
      if 2 ≤ n then some (2 + n) else none
    else if b = 0x75 then if hexes 4 rest then some 6 else none
    else if b = 0x55 then if hexes 8 rest then some 10 else none
    else if Number.isDecimal b then
      some (1 + ((src.take 3).takeWhile Number.isDecimal).length)
    else some (1 + charWidth src)

/-- A byte of a string in double quotes that stands for itself. -/
def isOrdinary (b : UInt8) : Bool :=
  b ≠ doubleQuote && b ≠ backslash && b ≠ Bytes.lineFeed && b ≠ 0x00

/-- The parts of a string after its opening double quote, up to the closing one, as kinds and
lengths; `none` when the quote is not closed on its line. -/
def parts? : Nat → Bytes → Option (List (Kind × Nat))
  | 0, _ => none
  | _ + 1, [] => none
  | fuel + 1, b :: rest =>
    if b = doubleQuote then some []
    else if b = backslash then
      (escape? rest).bind fun n =>
        (parts? fuel (rest.drop (n - 1))).map ((.escapeSequence, n) :: ·)
    else if isOrdinary b then
      let n := (rest.takeWhile isOrdinary).length
      (parts? fuel (rest.drop n)).map ((.interpretedStringLiteralContent, n + 1) :: ·)
    else none

/-- The length of the text in back quotes that follows an opening back quote. -/
def raw? (src : Bytes) : Option Nat :=
  let n := (src.takeWhile fun b => b ≠ backQuote && b ≠ 0x00).length
  if Number.opens (· = backQuote) (src.drop n) then some n else none

/-- The bytes that may follow a backslash by themselves in a rune literal. -/
def runeEscapes : Bytes := Bytes.ofString "abfnrtv\\'\""

/-- The length of what stands between the quotes of a rune literal: one character or one escape
sequence. -/
def runeBody? (src : Bytes) : Option Nat :=
  match src with
  | [] => none
  | b :: rest =>
    if b = singleQuote || b = 0x00 then none
    else if b ≠ backslash then some (charWidth src)
    else match rest with
      | [] => none
      | c :: more =>
        if runeEscapes.contains c then some 2
        else if c = 0x78 then if hexes 2 more then some 4 else none
        else if c = 0x75 then if hexes 4 more then some 6 else none
        else if c = 0x55 then if hexes 8 more then some 10 else none
        else if (rest.take 3).length = 3 && (rest.take 3).all Number.isOctal then some 4
        else none

/-- The length of a rune literal, given what follows its opening quote. -/
def rune? (src : Bytes) : Option Nat :=
  (runeBody? src).bind fun n =>
    if Number.opens (· = singleQuote) (src.drop n) then some (n + 2) else none

end CtxThread.Code.Quoted
