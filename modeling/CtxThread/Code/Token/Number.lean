import CtxThread.Code.Token

/-!
# Number literals

Integers, floating-point numbers and imaginary numbers, in the bases Go knows, with single
underscores between digits. Of all forms that fit, the longest is taken.

## Main definitions

- `Code.Number.forms`: every form of number that a text opens with
- `Code.Number.longest?`: the longest of them
-/

namespace CtxThread.Code.Number

/-- A digit of base ten. -/
def isDecimal (b : UInt8) : Bool := 0x30 ≤ b && b ≤ 0x39

/-- A digit of base two. -/
def isBinary (b : UInt8) : Bool := b = 0x30 || b = 0x31

/-- A digit of base eight. -/
def isOctal (b : UInt8) : Bool := 0x30 ≤ b && b ≤ 0x37

/-- A digit of base sixteen. -/
def isHex (b : UInt8) : Bool :=
  isDecimal b || (0x41 ≤ b && b ≤ 0x46) || (0x61 ≤ b && b ≤ 0x66)

/-- Whether the text opens with a byte of the class `p`. -/
def opens (p : UInt8 → Bool) : Bytes → Bool
  | [] => false
  | b :: _ => p b

/-- The length of the leading run of digits, each of which may follow one underscore. -/
def groups (p : UInt8 → Bool) : Bytes → Nat
  | [] => 0
  | b :: rest => if p b || (b = 0x5F && opens p rest) then groups p rest + 1 else 0

/-- The length of the leading run of digits, where no underscore comes first. -/
def digits (p : UInt8 → Bool) (src : Bytes) : Nat := if opens p src then groups p src else 0

/-- The length of an exponent: one of the two marks, a sign if any, and decimal digits. -/
def exponent (lower upper : UInt8) : Bytes → Nat
  | [] => 0
  | b :: rest =>
    if b = lower || b = upper then
      let sign := if opens (fun c => c = 0x2B || c = 0x2D) rest then 1 else 0
      let n := digits isDecimal (rest.drop sign)
      if n = 0 then 0 else 1 + sign + n
    else 0

/-- The integers a text opens with. -/
def integers (src : Bytes) : List Nat :=
  match src with
  | [] => []
  | b :: rest =>
    if b = 0x30 then
      let based (lower upper : UInt8) (p : UInt8 → Bool) : List Nat :=
        match rest with
        | c :: more =>
          if (c = lower || c = upper) && groups p more ≠ 0 then [2 + groups p more] else []
        | [] => []
      (1 + groups isOctal rest) ::
        (based 0x78 0x58 isHex ++ based 0x6F 0x4F isOctal ++ based 0x62 0x42 isBinary)
    else if isDecimal b then [groups isDecimal src] else []

/-- Whether the text opens with a decimal point. -/
def point (src : Bytes) : Bool := opens (· = 0x2E) src

/-- The decimal floating-point numbers a text opens with. -/
def decimalFloats (src : Bytes) : List Nat :=
  let whole := digits isDecimal src
  let rest := src.drop whole
  let withPoint :=
    if point rest then
      let places := digits isDecimal (rest.drop 1)
      if whole = 0 && places = 0 then []
      else
        let n := whole + 1 + places
        [n + exponent 0x65 0x45 (src.drop n)]
    else []
  let withExponent :=
    let e := exponent 0x65 0x45 rest
    if whole ≠ 0 && e ≠ 0 then [whole + e] else []
  withPoint ++ withExponent

/-- The hexadecimal floating-point numbers a text opens with; their exponent is required. -/
def hexFloats (src : Bytes) : List Nat :=
  match src with
  | b :: c :: rest =>
    if b = 0x30 && (c = 0x78 || c = 0x58) then
      let whole := groups isHex rest
      let places :=
        if point (rest.drop whole) then
          let n := digits isHex (rest.drop (whole + 1))
          if whole = 0 && n = 0 then [] else [whole + 1 + n]
        else []
      let mantissas := places ++ (if whole = 0 then [] else [whole])
      mantissas.filterMap fun m =>
        let e := exponent 0x70 0x50 (rest.drop m)
        if e = 0 then none else some (2 + m + e)
    else []
  | _ => []

/-- Every form of number a text opens with, as kind and length. -/
def forms (src : Bytes) : List (Kind × Nat) :=
  let ints := integers src
  let floats := decimalFloats src ++ hexFloats src
  let whole := digits isDecimal src
  let bases := ints ++ floats ++ (if whole = 0 then [] else [whole])
  let imaginaries := bases.filter fun n => opens (· = 0x69) (src.drop n)
  ints.map (.intLiteral, ·) ++ floats.map (.floatLiteral, ·) ++
    imaginaries.map fun n => (.imaginaryLiteral, n + 1)

/-- The longest number a text opens with. -/
def longest? (src : Bytes) : Option (Kind × Nat) :=
  (forms src).foldl
    (fun best form =>
      match best with
      | none => some form
      | some b => if b.2 < form.2 then some form else some b)
    none

end CtxThread.Code.Number
