/-!
# Replacing parts of a text

All occurrences of a text are replaced at once, from left to right, where they do not overlap.

## Main definitions

- `Text.replaceAll`: a text with all occurrences of another replaced
-/

namespace CtxThread.Text

/-- Leaves out the first `skip` characters, then puts `new` in the place of each occurrence of
`old`. -/
def replaceFrom (old new : List Char) : Nat → List Char → List Char
  | _, [] => []
  | skip + 1, _ :: cs => replaceFrom old new skip cs
  | 0, c :: cs =>
    if old.isPrefixOf (c :: cs) then new ++ replaceFrom old new (old.length - 1) cs
    else c :: replaceFrom old new 0 cs

/-- The text with `new` in the place of each occurrence of `old`, which is not empty. -/
def replaceAll (s old new : String) : String :=
  String.ofList (replaceFrom old.toList new.toList 0 s.toList)

end CtxThread.Text
