import CtxThread.Text.Quoted

/-!
# JSON documents

JSON values and their layout: two spaces for each level, every member on a line of its own, and
empty lists and objects on one line. Only what has to be escaped is escaped.
-/

namespace CtxThread.Text

/-- A JSON value. The members of an object keep their order. -/
inductive Json where
  | number (n : Nat)
  | bool (b : Bool)
  | string (s : String)
  | list (items : List Json)
  | object (members : List (String × Json))

namespace Json

/-- A character inside a JSON string. -/
def escape (c : Char) : String :=
  if c = '"' then "\\\""
  else if c = '\\' then "\\\\"
  else if c = '\n' then "\\n"
  else if c = '\r' then "\\r"
  else if c = '\t' then "\\t"
  else if c.toNat = 0x08 then "\\b"
  else if c.toNat = 0x0C then "\\f"
  else if c.toNat < 0x20 then "\\u" ++ hexDigits 4 c.toNat
  else String.ofList [c]

/-- A text as a JSON string. -/
def quote (s : String) : String := "\"" ++ String.join (s.toList.map escape) ++ "\""

/-- The start of a line at a level. -/
def newline (level : Nat) : String := "\n" ++ String.ofList (List.replicate (2 * level) ' ')

mutual

/-- A value laid out at a level. -/
def layout (level : Nat) : Json → String
  | .number n => toString n
  | .bool b => if b then "true" else "false"
  | .string s => quote s
  | .list [] => "[]"
  | .list (j :: js) =>
    "[" ++ newline (level + 1) ++ layout (level + 1) j ++ layoutItems (level + 1) js ++
      newline level ++ "]"
  | .object [] => "\x7b\x7d"
  | .object (m :: ms) =>
    "\x7b" ++ newline (level + 1) ++ layoutMember (level + 1) m ++ layoutMembers (level + 1) ms ++
      newline level ++ "\x7d"

/-- The items of a list after its first. -/
def layoutItems (level : Nat) : List Json → String
  | [] => ""
  | j :: js => "," ++ newline level ++ layout level j ++ layoutItems level js

/-- One member of an object. -/
def layoutMember (level : Nat) : String × Json → String
  | (key, value) => quote key ++ ": " ++ layout level value

/-- The members of an object after its first. -/
def layoutMembers (level : Nat) : List (String × Json) → String
  | [] => ""
  | m :: ms => "," ++ newline level ++ layoutMember level m ++ layoutMembers level ms

end

/-- A document. -/
def render (j : Json) : String := layout 0 j

end Json

end CtxThread.Text
