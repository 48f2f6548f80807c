import CtxThread.Code.Outline
import CtxThread.Edit.Plan
import CtxThread.Source
import CtxThread.Text.Blank

/-!
# Seeding a body

Planning a statement as the first of a function's body. A body on one line is laid out over
several lines.

## Main definitions

- `Seed.isSeeded`: the body starts with the statement already
- `Seed.edits`: the edits that seed a body
- `Seed.plan`: planning them
-/

namespace CtxThread.Seed

open Code (Tree)

/-- Whether the first of the statements reads like `statement` but for white space. -/
def isSeeded (src : Bytes) (statements : List Tree) (statement : String) : Bool :=
  match statements with
  | first :: _ => Text.squash (nodeText src first) = Text.squash statement
  | [] => false

/-- The blanks that open the line a function starts on. -/
def indentOf (src : Bytes) (func : Tree) : String := Utf8.decode (src.indentBytes func.start)

/-- Replaces what stands between two places on one line by `text`, if it only separates. -/
def respace (src : Bytes) (start stop : Nat) (text : String) : List Edit :=
  if src.sameLine start stop && src.onlySeparators start stop then [⟨start, stop, text⟩] else []

/-- Puts each statement but the first on a line of its own, with the indentation `inner`, where
it shares one with the statement before it. -/
def respaceAll (src : Bytes) (inner : String) : List Tree → List Edit
  | a :: b :: rest => respace src a.stop b.start ("\n" ++ inner) ++ respaceAll src inner (b :: rest)
  | _ => []

/-- The edits that put `statement` before the statements of `body`, a block of the function
`func`. -/
def edits (src : Bytes) (func body : Tree) (statement : String) : List Edit :=
  let indent := indentOf src func
  let inner := indent ++ "\t"
  let opening := body.start + 1
  let closing := body.stop - 1
  let statements := body.statements
  let front := ((statements.head?).map (·.start)).getD closing
  if !src.sameLine body.start front then
    match src.lineEnd? opening with
    | some eol => [.insertion (eol + 1) (inner ++ statement ++ "\n")]
    | none => []
  else
    let before := "\n" ++ inner ++ statement ++ "\n"
    let first : Edit :=
      if src.onlySeparators opening front then
        ⟨opening, front, before ++ (if statements.isEmpty then indent else inner)⟩
      else .insertion opening (before ++ inner)
    let last :=
      match statements.getLast? with
      | some t => respace src t.stop closing ("\n" ++ indent)
      | none => []
    first :: (respaceAll src inner statements ++ last)

/-- Plans `statement` as the first statement of a function; also says whether that was needed. A
function without a body, and one that starts with the statement, stays as it is. -/
def plan (src : Bytes) (func : Tree) (statement : String) (p : Plan) : Bool × Plan :=
  match func.child? .body with
  | none => (false, p)
  | some body =>
    if isSeeded src body.statements statement then (false, p)
    else (true, { p with plain := p.plain ++ edits src func body statement })

end CtxThread.Seed
