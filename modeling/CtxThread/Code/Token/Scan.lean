import CtxThread.Code.Token.Quoted
import CtxThread.Text.Letter

/-!
# Scanning

Cutting source text into tokens. Blanks separate tokens and are dropped; a byte that no token
can start with is kept as a `stray` token, so every text has tokens.

## Main definitions

- `Code.Token.next`: the token a text opens with
- `Code.Token.scan`: the tokens of a text
-/

namespace CtxThread.Code.Token

/-- The number of bytes up to and including the star and slash that close a comment. -/
def commentClose? : Bytes → Option Nat
  | [] => none
  | b :: rest =>
    if b = 0x00 then none
    else if b = 0x2A && Number.opens (· = 0x2F) rest then some 2
    else (commentClose? rest).map (· + 1)

/-- The length of the comment that a text opens with: to the end of the line after two slashes,
to the closing mark after a slash and a star. -/
def comment? (src : Bytes) : Option Nat :=
  match src with
  | b :: c :: rest =>
    if b = 0x2F && c = 0x2F then
      some (2 + (rest.takeWhile fun d => d ≠ Bytes.lineFeed && d ≠ 0x00).length)
    else if b = 0x2F && c = 0x2A then (commentClose? rest).map (2 + ·)
    else none
  | _ => none

/-- A character that an identifier may start with. -/
def isNameStart (c : Char) : Bool := c = '_' || Text.isLetter c

/-- A character that an identifier may hold. -/
def isNamePart (c : Char) : Bool := isNameStart c || Text.isDecimal c

/-- The number of leading bytes that form characters of the class `p`, where the first `skip`
bytes belong to a character that has been looked at. -/
def spanChars (p : Char → Bool) : Nat → Bytes → Nat
  | _, [] => 0
  | skip + 1, _ :: rest => 1 + spanChars p skip rest
  | 0, b :: rest =>
    let o := Utf8.first b rest
    match o.char with
    | some c => if p c then 1 + spanChars p (o.width - 1) rest else 0
    | none => 0

/-- The length of the identifier or keyword that a text opens with. -/
def nameLength (src : Bytes) : Nat :=
  match src with
  | [] => 0
  | b :: rest =>
    match (Utf8.first b rest).char with
    | some c => if isNameStart c then spanChars isNamePart 0 src else 0
    | none => 0

/-- What a name is: a keyword, or a word. -/
def nameLexeme (name : Bytes) : Lexeme :=
  let s := Utf8.decode name
  match Sign.keywords.lookup s with
  | some k => .sign k
  | none => .word ((Word.table.lookup s).getD .plain)

/-- The operator or bracket that a text opens with; of several, the longest. -/
def punctuation? (src : Bytes) : Option (Sign × Nat) :=
  (Sign.punctuation.find? fun e => (Bytes.ofString e.1).isPrefixOf src).map fun e =>
    (e.2, (Bytes.ofString e.1).length)

/-- A token without its place: what it is, its length and the parts of a string literal. -/
structure Shape where
  lexeme : Lexeme
  length : Nat
  parts : List (Kind × Nat) := []

/-- The parts of a string literal between its quotation marks `mark`. -/
def quoted (k : Kind) (mark : Sign) (parts : List (Kind × Nat)) : Shape :=
  ⟨.literal k, 2 + parts.foldr (fun p n => p.2 + n) 0,
    (.sign mark, 1) :: parts ++ [(.sign mark, 1)]⟩

/-- The literal in quotation marks that a text opens with. -/
def quoted? (src : Bytes) : Option Shape :=
  match src with
  | [] => none
  | b :: rest =>
    if b = Quoted.doubleQuote then
      (Quoted.parts? src.length rest).map (quoted .interpretedStringLiteral .quote)
    else if b = Quoted.backQuote then
      (Quoted.raw? rest).map fun n =>
        quoted .rawStringLiteral .backquote [(.rawStringLiteralContent, n)]
    else if b = Quoted.singleQuote then
      (Quoted.rune? rest).map fun n => ⟨.literal .runeLiteral, n, []⟩
    else none

/-- The token that a text opens with, where the text does not open with a blank. -/
def next (src : Bytes) : Shape :=
  if Number.opens (· = Bytes.lineFeed) src then
    ⟨.newline, (src.takeWhile (· = Bytes.lineFeed)).length, []⟩
  else if let some n := comment? src then ⟨.comment, n, []⟩
  else if let some s := quoted? src then s
  else if let some (k, n) := Number.longest? src then ⟨.literal k, n, []⟩
  else if nameLength src ≠ 0 then
    ⟨nameLexeme (src.take (nameLength src)), nameLength src, []⟩
  else if let some (s, n) := punctuation? src then ⟨.sign s, n, []⟩
  else ⟨.stray, 1, []⟩

/-- The nodes inside a literal that starts at `pos`, one for each part. -/
def innerTrees : Nat → Bytes → List (Kind × Nat) → List Tree
  | _, _, [] => []
  | pos, src, (k, n) :: parts =>
    ⟨k, none, pos, pos + n, src.take n, []⟩ :: innerTrees (pos + n) (src.drop n) parts

/-- The token of the given shape at `pos`, where `src` is the text from `pos` on. -/
def ofShape (pos : Nat) (src : Bytes) (s : Shape) : Token :=
  ⟨s.lexeme, pos, src.take s.length, innerTrees pos src s.parts⟩

/-- The tokens of the text `src` that starts at offset `pos`; `fuel` bounds the number of
steps. -/
def scanFrom : Nat → Nat → Bytes → List Token
  | 0, _, _ => []
  | _ + 1, _, [] => []
  | fuel + 1, pos, b :: rest =>
    if Bytes.isBlank b && b ≠ Bytes.lineFeed then scanFrom fuel (pos + 1) rest
    else
      let t := ofShape pos (b :: rest) (next (b :: rest))
      t :: scanFrom fuel (pos + t.bytes.length) (rest.drop (t.bytes.length - 1))

/-- The byte order mark that may open a file. -/
def byteOrderMark : Bytes := [0xEF, 0xBB, 0xBF]

/-- The tokens of a text, comments and line ends included. A byte order mark at the very start
is skipped. -/
def scan (src : Bytes) : List Token :=
  if byteOrderMark.isPrefixOf src then scanFrom src.length 3 (src.drop 3)
  else scanFrom src.length 0 src

end CtxThread.Code.Token
