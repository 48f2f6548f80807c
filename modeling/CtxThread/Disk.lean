import CtxThread.Order
import CtxThread.Path
import CtxThread.Text.Bytes
import CtxThread.Text.Quoted

/-!
# Directories and files

The part of a file system that a run can see: files, directories and links that lead nowhere,
each at its place below the working directory. What may not be done with them is listed beside
them: files may be closed to reading or writing, and directories to listing, to looking up names
and to making new ones.

## Main definitions

- `Disk`: what is where, and what is denied
- `OsError`: why an operation failed, and on which path
- `Disk.locate`: where a path leads
- `Disk.exists?`, `Disk.isDirectory`: what a path can be seen to lead to
- `Disk.status`: what a path leads to, unless this cannot be told
- `Disk.list`, `Disk.read`, `Disk.write`: listing directories, reading and writing files
- `Disk.makeDirectory`, `Disk.makePath`: two ways to make a directory with those above it
-/

namespace CtxThread

/-- Why an operation on a path failed. -/
inductive OsCause where
  | notFound | denied | exists | notDirectory | isDirectory | nameTooLong
  /-- Any other cause, with its number and its description. -/
  | other (number : Nat) (description : String)
  deriving DecidableEq

namespace OsCause

/-- The number of a cause. -/
def number : OsCause → Nat
  | .notFound => 2
  | .denied => 13
  | .exists => 17
  | .notDirectory => 20
  | .isDirectory => 21
  | .nameTooLong => 36
  | .other number _ => number

/-- The description of a cause. -/
def description : OsCause → String
  | .notFound => "No such file or directory"
  | .denied => "Permission denied"
  | .exists => "File exists"
  | .notDirectory => "Not a directory"
  | .isDirectory => "Is a directory"
  | .nameTooLong => "File name too long"
  | .other _ description => description

end OsCause

/-- An operation that failed, with the path it was given. -/
structure OsError where
  cause : OsCause
  path : String
  deriving DecidableEq

/-- How a failed operation is reported. -/
def OsError.message (e : OsError) : String :=
  "[Errno " ++ toString e.cause.number ++ "] " ++ e.cause.description ++ ": " ++
    Text.quote e.path

/-- What stands at a place. -/
inductive Entry where
  | file (content : Bytes)
  | directory
  /-- A link that leads nowhere. -/
  | dangling

namespace Entry

/-- The entry is a directory. -/
def isDirectory : Entry → Bool
  | .directory => true
  | _ => false

/-- The entry is a file. -/
def isFile : Entry → Bool
  | .file _ => true
  | _ => false

end Entry

/-- A place: the names that lead to it from the working directory. -/
abbrev Location := List String

/-- What may not be done, and where. -/
structure Denials where
  /-- Files that may not be written. -/
  readonly : List Location := []
  /-- Directories that may not be listed, and files that may not be read. -/
  unreadable : List Location := []
  /-- Directories in which names may not be looked up. -/
  sealed : List Location := []
  /-- Directories in which nothing may be made. -/
  locked : List Location := []

/-- What is where, and what is denied. Places listed first hide later entries for the same
place. -/
structure Disk extends Denials where
  entries : List (Location × Entry)

namespace Disk

/-- A place that is a directory without being listed: the working directory, those above it, and
the root. -/
def isBase (l : Location) : Bool := l.all (· = "..") || l = ["/"]

/-- What stands at a place. -/
def entry? (d : Disk) (l : Location) : Option Entry :=
  if isBase l then some .directory else d.entries.lookup l

/-! ## Following paths -/

/-- The longest name that can be looked up, in bytes. -/
def nameLimit : Nat := 255

/-- The longest path that can be followed, in bytes. -/
def pathLimit : Nat := 4095

/-- One step from a directory: up, down to a name, or none. -/
def step (l : Location) (name : String) : Location :=
  if name = "." then l
  else if name ≠ ".." then l ++ [name]
  else if l = ["/"] then l
  else match l.getLast? with
    | none => [".."]
    | some last => if last = ".." then l ++ [".."] else l.dropLast

/-- Follows names from a place. Every place on the way must be a directory in which names may be
looked up. -/
def follow (d : Disk) : Location → List String → Except OsCause Location
  | l, [] => .ok l
  | l, name :: names =>
    match d.entry? l with
    | some .directory =>
      if d.sealed.contains l then .error .denied
      else if nameLimit < name.utf8ByteSize then .error .nameTooLong
      else d.follow (step l name) names
    | some (.file _) => .error .notDirectory
    | _ => .error .notFound

/-- The place that a path leads to, when the system is given the path as it is written. -/
def locate (d : Disk) (p : Path) (written : String := p.render) : Except OsCause Location :=
  if pathLimit < written.utf8ByteSize then .error .nameTooLong
  else d.follow p.start p.steps

/-- What a path leads to, where a link that leads nowhere leads to nothing. -/
def stat? (d : Disk) (p : Path) (written : String := p.render) :
    Except OsCause (Location × Entry) := do
  let l ← d.locate p written
  match d.entry? l with
  | some (.file content) => return (l, .file content)
  | some .directory => return (l, .directory)
  | _ => throw .notFound

/-- The path can be seen to lead to something. -/
def exists? (d : Disk) (p : Path) (written : String := p.render) : Bool :=
  (d.stat? p written).toBool

/-- The path can be seen to lead to a directory. -/
def isDirectory (d : Disk) (p : Path) (written : String := p.render) : Bool :=
  match d.stat? p written with
  | .ok (_, e) => e.isDirectory
  | .error _ => false

/-- What the path leads to, if anything. A path that ends on the way leads to nothing; where it is
denied to go on, or the path is too long, this cannot be told. -/
def status (d : Disk) (p : Path) : Except OsError (Option Entry) :=
  match d.stat? p with
  | .ok (_, e) => .ok (some e)
  | .error c =>
    if c = .notFound || c = .notDirectory then .ok none else .error ⟨c, p.render⟩

/-! ## Listing, reading and writing -/

/-- The names in the directory at a place, in ascending order. -/
def namesIn (d : Disk) (l : Location) : List String :=
  let names := d.entries.filterMap fun e =>
    if e.1.dropLast = l && !e.1.isEmpty then e.1.getLast? else none
  Order.sort (fun a b => decide (a ≤ b)) names.eraseDups

/-- The names in a directory, in ascending order. -/
def list (d : Disk) (p : Path) : Except OsError (List String) :=
  match d.stat? p with
  | .error c => .error ⟨c, p.render⟩
  | .ok (l, .directory) =>
    if d.unreadable.contains l then .error ⟨.denied, p.render⟩ else .ok (d.namesIn l)
  | .ok _ => .error ⟨.notDirectory, p.render⟩

/-- The content of a file. -/
def read (d : Disk) (p : Path) : Except OsError Bytes :=
  match d.stat? p with
  | .error c => .error ⟨c, p.render⟩
  | .ok (l, .file content) =>
    if d.unreadable.contains l then .error ⟨.denied, p.render⟩ else .ok content
  | .ok _ => .error ⟨.isDirectory, p.render⟩

/-- Puts an entry at a place. -/
def put (d : Disk) (l : Location) (e : Entry) : Disk :=
  { d with entries := (l, e) :: d.entries.filter (·.1 ≠ l) }

/-- Writes a file, which is made if it is not there. -/
def write (d : Disk) (p : Path) (content : Bytes) : Except OsError Disk :=
  match d.locate p with
  | .error c => .error ⟨c, p.render⟩
  | .ok l =>
    if d.readonly.contains l then .error ⟨.denied, p.render⟩
    else match d.entry? l with
      | some .directory => .error ⟨.isDirectory, p.render⟩
      | none =>
        if d.locked.contains l.dropLast then .error ⟨.denied, p.render⟩
        else .ok (d.put l (.file content))
      | _ => .ok (d.put l (.file content))

/-! ## Making directories -/

/-- Makes one directory. -/
def makeOne (d : Disk) (p : Path) (written : String := p.render) : Except OsError Disk :=
  match d.locate p written with
  | .error c => .error ⟨c, written⟩
  | .ok l =>
    match d.entry? l with
    | some _ => .error ⟨.exists, written⟩
    | none =>
      if d.locked.contains l.dropLast then .error ⟨.denied, written⟩
      else .ok (d.put l .directory)

/-- Makes one directory unless it is there. -/
def makeIfAbsent (d : Disk) (p : Path) (written : String := p.render) : Except OsError Disk :=
  match d.makeOne p written with
  | .ok d => .ok d
  | .error e => if d.isDirectory p written then .ok d else .error e

/-- The disk after an attempt to change it, and why the attempt failed if it did. What was done
before it failed has been done. -/
structure Attempt where
  disk : Disk
  failure : Option OsError

/-- An operation that changes nothing if it fails, as an attempt to change the disk `d`. -/
def Attempt.of (d : Disk) : Except OsError Disk → Attempt
  | .ok d => ⟨d, none⟩
  | .error e => ⟨d, some e⟩

/-- Makes a directory, and first those above it when they turn out to be missing. The names are
those of a path from the last to the first. -/
def makeUpward (d : Disk) (root : String) : List String → Attempt
  | [] => .of d (d.makeIfAbsent ⟨root, []⟩)
  | name :: above =>
    let p : Path := ⟨root, (name :: above).reverse⟩
    match d.makeIfAbsent p with
    | .ok d => ⟨d, none⟩
    | .error e =>
      if e.cause = .notFound then
        match d.makeUpward root above with
        | ⟨d, none⟩ => .of d (d.makeIfAbsent p)
        | failed => failed
      else ⟨d, some e⟩

/-- Makes a directory, and first those above it when they turn out to be missing. -/
def makeDirectory (d : Disk) (p : Path) : Attempt := d.makeUpward p.root p.parts.reverse

/-- A written path without the slashes at its end; a path of slashes only stays as it is. -/
def dropSlashes (s : List Char) : List Char :=
  if s.all (· = '/') then s else (s.reverse.dropWhile (· = '/')).reverse

/-- A written path split before its last name. -/
def splitLast (s : List Char) : List Char × List Char :=
  let tail := (s.reverse.takeWhile (· ≠ '/')).reverse
  (dropSlashes (s.take (s.length - tail.length)), tail)

/-- A written path split before its last name, where slashes at the end do not count. -/
def splitName (s : List Char) : List Char × List Char :=
  match splitLast s with
  | (head, []) => splitLast head
  | split => split

/-- Makes a directory after making those above it that are missing, the topmost first. The path
is taken as written; `fuel` bounds the number of directories. -/
def makeDownward (d : Disk) : Nat → List Char → Attempt
  | 0, _ => ⟨d, none⟩
  | fuel + 1, written =>
    let name := String.ofList written
    let (head, tail) := splitName written
    let above := String.ofList head
    if !head.isEmpty && !tail.isEmpty && !d.exists? (.asWritten above) above then
      let made := d.makeDownward fuel head
      if made.failure.any (·.cause ≠ .exists) then made
      else if tail = ['.'] then ⟨made.disk, none⟩
      else .of made.disk (made.disk.makeIfAbsent (.asWritten name) name)
    else .of d (d.makeIfAbsent (.asWritten name) name)

/-- Makes a directory after making those above it that are missing, the topmost first. The path
is taken as written. -/
def makePath (d : Disk) (written : String) : Attempt :=
  d.makeDownward (written.length + 1) written.toList

end Disk

end CtxThread
