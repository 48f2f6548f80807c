import CtxThread.Command.Run

/-!
# The command line

The outer layer of the command. It looks up the part of the file system that a run can see, lets
the run work on that, and then carries out what the run has changed. No formatter is called.

## Main definitions

- `Main.places`: the places that a path leads through
- `Main.snapshot`: what stands at the places that a run can see
- `Main.changes`: the entries that differ from those of an earlier disk
- `main`: the command
-/

namespace CtxThread.Main

/-- The places that a path leads through, its own last. -/
def places (p : Path) : List Location :=
  let start : Location := if p.root = "" then [] else ["/"]
  (List.range (p.parts.length + 1)).map fun n => (p.parts.take n).foldl Disk.step start

/-- The directories in which a run with the given options looks for names. -/
def directoriesOf (o : Options) : List Path :=
  (o.dir :: [o.dumpTrees].filter (· ≠ "")).map .ofString

/-- The paths that a run with the given options looks at or writes to. -/
def pathsOf (o : Options) : List Path := .ofString o.report :: directoriesOf o

/-- A place as the system wants it. -/
def systemPath : Location → String
  | [] => "."
  | "/" :: names => "/" ++ "/".intercalate names
  | names => "/".intercalate names

/-- The entries that differ from those of the disk `d`, in the order in which they were made. -/
def changes (d d' : Disk) : List (Location × Entry) :=
  d'.entries.reverse.filter fun e =>
    match e.2, d.entry? e.1 with
    | .file content, some (.file before) => content ≠ before
    | .directory, some .directory => false
    | .dangling, _ => false
    | _, _ => true

/-- Looks up a file. Only source files are read. -/
def lookAt (d : Disk) (l : Location) : IO Disk := do
  let path := (← IO.currentDir) / systemPath l
  let d ←
    try
      let content ← if l.getLast?.any isSourceName then IO.FS.readBinFile path else pure .empty
      pure (d.put l (.file content.data.toList))
    catch _ => pure { d.put l (.file []) with unreadable := l :: d.unreadable }
  try
    let _ ← IO.FS.Handle.mk path .append
    return d
  catch _ => return { d with readonly := l :: d.readonly }

/-- Looks up a place; `listed` says that a directory holds the name. In which directories nothing
may be made is found out by the changes that fail. -/
def lookUp (d : Disk) (l : Location) (listed : Bool) : IO Disk := do
  let path := (← IO.currentDir) / systemPath l
  if ← path.isDir then
    let d := if Disk.isBase l then d else d.put l .directory
    if ← (path / ".").pathExists then return d
    else return { d with sealed := l :: d.sealed }
  else if ← path.pathExists then lookAt d l
  else if listed then return d.put l .dangling
  else return d

/-- Looks up the names in a directory. -/
def lookInto (d : Disk) (l : Location) : IO Disk := do
  let path := (← IO.currentDir) / systemPath l
  if ← path.isDir then
    try
      (← path.readDir).foldlM (fun d e => lookUp d (l ++ [e.fileName]) true) d
    catch _ => return { d with unreadable := l :: d.unreadable }
  else return d

/-- What stands at the places that a run with the given options can see. -/
def snapshot (o : Options) : IO Disk := do
  let d ← ((pathsOf o).flatMap places).foldlM (fun d l => lookUp d l false) { entries := [] }
  ((directoriesOf o).filterMap fun p => (places p).getLast?).foldlM lookInto d

/-- Carries out one change. -/
def carryOut (e : Location × Entry) : IO Unit :=
  match e.2 with
  | .file content => IO.FS.writeBinFile (systemPath e.1) ⟨content.toArray⟩
  | .directory => IO.FS.createDir (systemPath e.1)
  | .dangling => return ()

/-- What a crash says last. -/
def crashMessage : Crash → String
  | .os e => e.message
  | .unresolved => "types are nested too deep"

end CtxThread.Main

open CtxThread in
/-- The command: its exit code is that of the run, or one after a crash. -/
def main (args : List String) : IO UInt32 := do
  let before ← match Options.parse args with
    | .options o => Main.snapshot o
    | _ => pure { entries := [] }
  let (result, after) :=
    Command.runArguments args { disk := before, formatter := .absent }
  (← IO.getStdout).write ⟨after.stdout.toArray⟩
  (← IO.getStderr).putStr after.stderr
  (Main.changes before after.disk).forM Main.carryOut
  match result with
  | .ok code => return code.toUInt32
  | .error c =>
    (← IO.getStderr).putStrLn (Main.crashMessage c)
    return 1
