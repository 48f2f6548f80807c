import CtxThread.Text.Letter
import CtxThread.Text.Quoted

/-!
# Command-line options

Reading the arguments of the command. A flag may be shortened as long as it stays unambiguous,
its value may follow it or an equals sign, and flags of one letter may be run together. File
names may stand before, between or after the flags, but in one place only.

## Main definitions

- `Options`: what the arguments ask for
- `Options.Error`: what is wrong with the arguments
- `Options.parse`: reading the arguments
-/

namespace CtxThread

/-- What the arguments ask for. -/
structure Options where
  write : Bool := false
  dir : String := "."
  files : List String := []
  noFormat : Bool := false
  report : String := ""
  dumpTrees : String := ""
  http : String := "http"
  echo : String := "echo"
  verbose : Bool := false

namespace Options

/-- What a flag does. -/
inductive Action where
  | help
  | switch (set : Options → Options)
  | value (set : String → Options → Options)

/-- A flag: its spellings and what it does. -/
structure Flag where
  names : List String
  action : Action

/-- How a flag is referred to. -/
def Flag.label (f : Flag) : String := "/".intercalate f.names

/-- The flags of the command. -/
def flags : List Flag :=
  [⟨["-h", "--help"], .help⟩,
   ⟨["-w"], .switch fun o => { o with write := true }⟩,
   ⟨["-dir"], .value fun v o => { o with dir := v }⟩,
   ⟨["-no-gofmt"], .switch fun o => { o with noFormat := true }⟩,
   ⟨["-report"], .value fun v o => { o with report := v }⟩,
   ⟨["-dump-ast"], .value fun v o => { o with dumpTrees := v }⟩,
   ⟨["-http-ident"], .value fun v o => { o with http := v }⟩,
   ⟨["-echo-ident"], .value fun v o => { o with echo := v }⟩,
   ⟨["-v"], .switch fun o => { o with verbose := true }⟩]

/-- The spellings of all flags, each with its flag. -/
def spellings : List (String × Flag) := flags.flatMap fun f => f.names.map (·, f)

/-- What is wrong with the arguments. -/
inductive Error where
  | missingValue (flag : Flag)
  | unwantedValue (flag : Flag) (value : String)
  | ambiguous (arg : String) (matched : List String)
  | unrecognized (args : List String)

/-- How wrong arguments are reported. -/
def Error.message : Error → String
  | .missingValue f => "argument " ++ f.label ++ ": expected one argument"
  | .unwantedValue f v =>
    "argument " ++ f.label ++ ": ignored explicit argument " ++ Text.quote v
  | .ambiguous arg matched =>
    "ambiguous option: " ++ arg ++ " could match " ++ ", ".intercalate matched
  | .unrecognized args => "unrecognized arguments: " ++ " ".intercalate args

/-- An argument as it looks by itself. -/
inductive Arg where
  /-- The mark after which nothing is a flag. -/
  | mark
  | plain (s : String)
  /-- A flag under one of its spellings, perhaps with a value of its own. -/
  | flag (f : Flag) (spelling : String) (value : Option String)
  /-- Something that looks like a flag and is none. -/
  | unknown (s : String)

/-- The text of an argument that is no flag. -/
def Arg.text : Arg → String
  | .mark => "--"
  | .plain s => s
  | .flag _ s _ => s
  | .unknown s => s

/-- A text without the line end at its end. -/
def chomp (s : List Char) : List Char := if s.getLast? = some '\n' then s.dropLast else s

/-- A negative number: digits after a minus sign, perhaps with one point before the last of
them. A line end after it does not count. -/
def isNegativeNumber (s : List Char) : Bool :=
  match chomp s with
  | '-' :: rest =>
    let whole := rest.takeWhile Text.isDecimal
    match rest.dropWhile Text.isDecimal with
    | [] => !whole.isEmpty
    | '.' :: places => !places.isEmpty && places.all Text.isDecimal
    | _ => false
  | _ => false

/-- The flags that an argument may be short for. After one dash, a flag of one letter may be
followed by its value. -/
def shortened (arg : String) : List (Flag × String × Option String) :=
  let cs := arg.toList
  if cs.take 2 = ['-', '-'] then
    let stem := cs.takeWhile (· ≠ '=')
    let value := if cs.contains '=' then some (String.ofList (cs.drop (stem.length + 1))) else none
    spellings.filterMap fun (name, f) =>
      if stem.isPrefixOf name.toList then some (f, name, value) else none
  else
    spellings.filterMap fun (name, f) =>
      if name.toList = cs.take 2 then some (f, name, some (String.ofList (cs.drop 2)))
      else if cs.isPrefixOf name.toList then some (f, name, none)
      else none

/-- Reads an argument by itself. -/
def classify (arg : String) : Except Error Arg :=
  let cs := arg.toList
  let stem := cs.takeWhile (· ≠ '=')
  if cs.head? ≠ some '-' then .ok (.plain arg)
  else match spellings.lookup arg with
    | some f => .ok (.flag f arg none)
    | none =>
      if cs.length = 1 then .ok (.plain arg)
      else match (if cs.contains '=' then spellings.lookup (String.ofList stem) else none) with
        | some f =>
          .ok (.flag f (String.ofList stem) (some (String.ofList (cs.drop (stem.length + 1)))))
        | none =>
          match shortened arg with
          | [(f, name, value)] => .ok (.flag f name value)
          | _ :: _ :: _ => .error (.ambiguous arg ((shortened arg).map (·.2.1)))
          | [] =>
            if isNegativeNumber cs || cs.contains ' ' then .ok (.plain arg)
            else .ok (.unknown arg)

/-- Reads the arguments one by one; after the mark all are plain. -/
def classifyAll : List String → Except Error (List Arg)
  | [] => .ok []
  | arg :: args =>
    if arg = "--" then .ok (.mark :: args.map .plain)
    else do
      let a ← classify arg
      let as ← classifyAll args
      return a :: as

/-- What reading the arguments leads to. -/
inductive Outcome where
  | options (o : Options)
  | help
  | error (e : Error)

/-- The arguments read so far. -/
structure Progress where
  options : Options := {}
  /-- File names have been given. -/
  filesGiven : Bool := false
  /-- Arguments that nothing is made of. -/
  extras : List String := []

/-- The flags of one letter that follow the flag `f` in one argument, `f` first. What follows a
flag that takes a value is its value. -/
def letters (f : Flag) : List Char → Except Error (List (Flag × Option String))
  | [] => .ok [(f, none)]
  | c :: cs =>
    match f.action with
    | .value _ => .ok [(f, some (String.ofList (c :: cs)))]
    | _ =>
      match spellings.lookup (String.ofList ['-', c]) with
      | none => .error (.unwantedValue f (String.ofList (c :: cs)))
      | some f' => (letters f' cs).map ((f, none) :: ·)

/-- The flags of one argument, with the values they bring along. -/
def expand (f : Flag) (spelling : String) (value : Option String) :
    Except Error (List (Flag × Option String)) :=
  match value, f.action with
  | none, _ => .ok [(f, none)]
  | some v, .value _ => .ok [(f, some v)]
  | some v, _ =>
    if spelling.toList.take 2 = ['-', '-'] || v = "" then .error (.unwantedValue f v)
    else letters f v.toList

/-- What the flags of one argument lead to. -/
inductive Effect where
  | set (o : Options)
  | help
  /-- The value of the flag `f` is the next argument. -/
  | needs (f : Flag) (set : String → Options)

/-- Acts on the flags of one argument. -/
def act (o : Options) : List (Flag × Option String) → Effect
  | [] => .set o
  | (f, value) :: rest =>
    match f.action, value with
    | .help, _ => .help
    | .switch set, _ => act (set o) rest
    | .value set, some v => act (set v o) rest
    | .value set, none => .needs f fun v => set v o

/-- An argument that is neither a flag nor looks like one. -/
def Arg.isPlain : Arg → Bool
  | .mark => true
  | .plain _ => true
  | _ => false

/-- Takes arguments that are no flags for file names, unless there are some already. The first
mark among them does not count. -/
def Progress.take (p : Progress) (names : List String) : Progress :=
  if p.filesGiven then { p with extras := p.extras ++ names }
  else { p with options := { p.options with files := names.erase "--" }, filesGiven := true }

/-- What the arguments lead to when all are read. -/
def Progress.finish (p : Progress) : Outcome :=
  if p.extras.isEmpty then .options p.options else .error (.unrecognized p.extras)

/-- Reads the arguments left, of which there are at most `fuel`. -/
def consume : Nat → Progress → List Arg → Outcome
  | 0, p, _ => p.finish
  | _ + 1, p, [] => p.finish
  | fuel + 1, p, a :: as =>
    match a with
    | .unknown s => consume fuel { p with extras := p.extras ++ [s] } as
    | .flag f spelling value =>
      match expand f spelling value with
      | .error e => .error e
      | .ok steps =>
        match act p.options steps with
        | .set o => consume fuel { p with options := o } as
        | .help => .help
        | .needs f set =>
          match as with
          | .plain v :: as => consume fuel { p with options := set v } as
          | _ => .error (.missingValue f)
    | _ =>
      consume fuel (p.take (((a :: as).takeWhile Arg.isPlain).map Arg.text))
        ((a :: as).dropWhile Arg.isPlain)

/-- Reads the arguments of the command. -/
def parse (args : List String) : Outcome :=
  match classifyAll args with
  | .error e => .error e
  | .ok as => consume as.length {} as

end Options

end CtxThread
