import CtxThread.Code.Listing
import CtxThread.Command.Help
import CtxThread.Command.Options
import CtxThread.Emit
import CtxThread.Load
import CtxThread.Report
import CtxThread.Text.Replace

/-!
# Running the command

A run loads a directory, updates its packages and prints or writes the results. What goes wrong
with reading, parsing or writing one file is logged, and the run goes on with the next. A run ends
early where a path cannot be looked up, where the formatter cannot be started, and where the
directory for syntax trees cannot be made or one of them not written.

## Main definitions

- `World`: what a run can see and change
- `Crash`: what ends a run early
- `Command`: a step of a run
- `Command.runOptions`: a run with given options
- `Command.runArguments`: a run with given arguments
-/

namespace CtxThread

/-- What a run can see and change: the disk, the formatter, and what has been printed so far. What
is told of texts that do not parse is part of it. -/
structure World where
  disk : Disk
  formatter : Formatter
  diagnose : Bytes → Diagnosis := fun src => { package := Code.claimedPackage src }
  stdout : Bytes := []
  stderr : String := ""

/-- What ends a run early. -/
inductive Crash where
  /-- An operation on the disk failed where nothing is made of it. -/
  | os (e : OsError)
  /-- The declarations of a package refer to each other without end. -/
  | unresolved

/-- A step of a run. What has happened before a crash has happened. -/
abbrev Command := ExceptT Crash (StateM World)

namespace Command

/-- Logs a message. -/
def log (message : String) : Command Unit :=
  modify fun w => { w with stderr := w.stderr ++ "[sqlctxize] " ++ message ++ "\n" }

/-- Prints updated text. -/
def print (bytes : Bytes) : Command Unit :=
  modify fun w => { w with stdout := w.stdout ++ bytes }

/-- What a path leads to. The run ends if that cannot be told. -/
def look (p : Path) : Command (Option Entry) := do
  match (← get).disk.status p with
  | .ok e => return e
  | .error e => throw (.os e)

/-- Attempts to change the disk; gives the reason if that fails. -/
def change (operation : Disk → Disk.Attempt) : Command (Option OsError) := do
  let w ← get
  let made := operation w.disk
  set { w with disk := made.disk }
  return made.failure

/-- Ends the run if an operation failed. -/
def orCrash (failure : Option OsError) : Command Unit :=
  match failure with
  | none => return ()
  | some e => throw (.os e)

/-- Formats an updated file and prints it, or writes it if it is changed. A formatter that cannot be
started ends the run. -/
def emit (o : Options) (u : FileUpdate) : Command (Except EmitError Unit) := do
  match u.formatted (← get).formatter !o.noFormat with
  | .error (.unstarted e) => throw (.os e)
  | .error e => return .error e
  | .ok data =>
    if o.write then
      if u.changed then
        match ← change fun d => .of d (d.write u.file.path data) with
        | none => return .ok ()
        | some e => return .error (.unwritable u.file.path e)
      else return .ok ()
    else
      print data
      return .ok ()

/-- Emits an updated file and logs how that went. -/
def emitAndLog (o : Options) (u : FileUpdate) : Command Unit := do
  let path := u.file.path.render
  if o.verbose then log ("Processing " ++ path ++ " (" ++ toString u.plan.size ++ " edits)")
  match ← emit o u with
  | .error e => log ("[ERROR] " ++ path ++ ": " ++ e.message)
  | .ok () => if o.write && u.changed then log ("[OK] Rewrote " ++ path)

/-- The name of the file that lists the tree of a source file. -/
def treeFileName (f : SourceFile) : String :=
  Text.replaceAll f.path.name Naming.extension "_ast.txt"

/-- Writes the tree of a file to the directory `dir`, as written in the arguments. -/
def dumpTree (dir : String) (f : SourceFile) : Command Unit := do
  let path := (Path.ofString dir).join ⟨"", [treeFileName f]⟩
  let text := "\n".intercalate (f.root.listing f.src)
  orCrash (← change fun d => d.makePath dir)
  orCrash (← change fun d => .of d (d.write path (Bytes.ofString text)))
  log ("AST written to " ++ path.render)

/-- Updates and emits the files of one package, or logs why the package is left alone. -/
def package (o : Options) (l : Loaded) : Command (List FileUpdate) := do
  if l.ok then
    match updatePackage l.package ⟨o.http, o.echo⟩ o.files with
    | none => throw .unresolved
    | some us =>
      us.forM (emitAndLog o)
      if o.dumpTrees ≠ "" then us.forM fun u => dumpTree o.dumpTrees u.file
      return us
  else
    l.errors.forM fun e => log ("[ERROR] " ++ e.message)
    log ("[SKIP] package " ++ (if l.name = "" then "<unknown>" else l.name))
    return []

/-- Makes the directory that the report goes to, unless something is there. -/
def makeParent (path : Path) (d : Disk) : Disk.Attempt :=
  match d.status path.parent with
  | .error e => ⟨d, some e⟩
  | .ok (some _) => ⟨d, none⟩
  | .ok none => d.makeDirectory path.parent

/-- Writes the report, after making the directory it goes to; gives the reason if that fails. -/
def writeReport (path : Path) (us : List FileUpdate) : Command (Option OsError) := do
  match ← change (makeParent path) with
  | some e => return some e
  | none => change fun d => .of d (d.write path (Bytes.ofString (Report.ofFiles us).render))

/-- Writes the report, and logs how that went. -/
def report (written : String) (us : List FileUpdate) : Command Unit := do
  let path := Path.ofString written
  match ← writeReport path us with
  | none => log ("Report written to " ++ path.render)
  | some e => log ("[ERROR] Failed to write report " ++ written ++ ": " ++ e.message)

/-- The path at which a file name that was asked for is looked up. -/
def namedPath (dir : Path) (name : String) : Path :=
  dir.join ⟨"", [(Path.ofString name).name].filter (· ≠ "")⟩

/-- Logs a file name that was asked for and is not there. -/
def checkName (dir : Path) (name : String) : Command Unit := do
  if !(← look (namedPath dir name)).any Entry.isFile then
    log ("[SKIP] " ++ name ++ ": no such file in " ++ dir.render)

/-- Updates the packages of a directory. -/
def packages (o : Options) (dir : Path) (loaded : List Loaded) : Command Unit := do
  if loaded.isEmpty then log ("No .go files found in " ++ dir.render)
  o.files.forM (checkName dir)
  let us ← loaded.mapM (package o)
  if o.report ≠ "" then report o.report us.flatten

/-- A run with given options; its result is the exit code. -/
def runOptions (o : Options) : Command Nat := do
  let dir := Path.ofString o.dir
  if !(← look dir).any Entry.isDirectory then
    log ("ERROR: -dir does not exist or is not a directory: " ++ dir.render)
    return 2
  else
    let w ← get
    match load w.diagnose w.disk dir with
    | .error (.untold e) => throw (.os e)
    | .error e =>
      log ("ERROR: " ++ e.message)
      return 2
    | .ok loaded =>
      packages o dir loaded
      return 0

/-- A run with given arguments; its result is the exit code. -/
def runArguments (args : List String) : Command Nat := do
  match Options.parse args with
  | .help =>
    print (Bytes.ofString Help.help)
    return 0
  | .error e =>
    modify fun w => { w with stderr := w.stderr ++ Help.complaint e.message }
    return 2
  | .options o => runOptions o

end Command

end CtxThread
