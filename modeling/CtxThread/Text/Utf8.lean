import CtxThread.Text.Bytes

/-!
# Reading bytes as UTF-8

Text is read from bytes leniently: each maximal run of bytes that starts a character but does
not complete it, and each byte that starts none, reads as one replacement character U+FFFD.

## Main definitions

- `Utf8.first`: the first character of a byte string and how many bytes it takes
- `Utf8.decode`: the text of a byte string
- `Utf8.isValid`: every byte belongs to a character
-/

namespace CtxThread.Utf8

/-- What a byte string opens with: a character or a piece that is none, and the number of bytes
it takes. -/
structure Opening where
  char : Option Char
  width : Nat
  deriving DecidableEq

/-- A byte that continues a character. -/
def isContinuation (b : UInt8) : Bool := 0x80 ≤ b && b ≤ 0xBF

/-- The bytes that may follow the lead byte `b`, and how many bytes follow in all. The narrower
ranges after E0, ED, F0 and F4 shut out overlong forms, surrogates and values past U+10FFFF. -/
def followers (b : UInt8) : Option (UInt8 × UInt8 × Nat) :=
  if 0xC2 ≤ b && b ≤ 0xDF then some (0x80, 0xBF, 1)
  else if b = 0xE0 then some (0xA0, 0xBF, 2)
  else if b = 0xED then some (0x80, 0x9F, 2)
  else if 0xE1 ≤ b && b ≤ 0xEF then some (0x80, 0xBF, 2)
  else if b = 0xF0 then some (0x90, 0xBF, 3)
  else if b = 0xF4 then some (0x80, 0x8F, 3)
  else if 0xF1 ≤ b && b ≤ 0xF3 then some (0x80, 0xBF, 3)
  else none

/-- The payload of a lead byte with `n` followers. -/
def leadBits (b : UInt8) (n : Nat) : Nat := b.toNat % (64 >>> n)

/-- The first character of a non-empty byte string. -/
def first (b : UInt8) (rest : Bytes) : Opening :=
  if b < 0x80 then ⟨some (Char.ofNat b.toNat), 1⟩
  else match followers b with
    | none => ⟨none, 1⟩
    | some (lo, hi, n) =>
      match rest with
      | [] => ⟨none, 1⟩
      | c :: more =>
        if lo ≤ c && c ≤ hi then
          let tail := (more.take (n - 1)).takeWhile isContinuation
          if tail.length = n - 1 then
            let value := (c :: tail).foldl (fun v d => v * 64 + d.toNat % 64) (leadBits b n)
            ⟨some (Char.ofNat value), n + 1⟩
          else ⟨none, 2 + tail.length⟩
        else ⟨none, 1⟩

/-- The pieces of a byte string in order; `fuel` bounds their number. -/
def openings : Nat → Bytes → List Opening
  | 0, _ => []
  | _, [] => []
  | fuel + 1, b :: rest =>
    let o := first b rest
    o :: openings fuel (rest.drop (o.width - 1))

/-- The character that stands for bytes that are none. -/
def replacement : Char := Char.ofNat 0xFFFD

/-- The characters of a byte string. -/
def decodeChars (src : Bytes) : List Char :=
  (openings src.length src).map fun o => o.char.getD replacement

/-- The text of a byte string. -/
def decode (src : Bytes) : String := String.ofList (decodeChars src)

/-- Every byte belongs to a character. -/
def isValid (src : Bytes) : Bool := (openings src.length src).all (·.char.isSome)

end CtxThread.Utf8
