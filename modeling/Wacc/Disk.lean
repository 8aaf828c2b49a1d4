/-
  A disk: directories and files, and what goes wrong with them.

  Entries are known by the names on the way from the root.  Paths are followed name by name, and
  everything before the last name has to be a directory; relative paths start at the working
  directory.
-/
import Wacc.Source.Path

namespace Wacc

namespace Disk

abbrev Place := List Text

inductive Entry where
  | dir
  | file (content : Text)
  deriving DecidableEq, Repr

inductive Cause where
  | notFound
  | notDir
  | isDir
  | exists
  | nameTooLong
  | badPath
  deriving DecidableEq, Repr

def Cause.message : Cause → Text
  | .notFound => lit "no such file or directory"
  | .notDir => lit "not a directory"
  | .isDir => lit "is a directory"
  | .exists => lit "file exists"
  | .nameTooLong => lit "file name too long"
  | .badPath => lit "invalid argument"

structure Error where
  op : Text
  path : Text
  cause : Cause
  deriving DecidableEq, Repr

def Error.message (e : Error) : Text := e.op ++ lit " " ++ e.path ++ lit ": " ++ e.cause.message

def maxName : Nat := 255

end Disk

/-- A disk with a working directory.  Entries are in the order in which they were made. -/
structure Disk where
  work : Disk.Place := []
  entries : List (Disk.Place × Disk.Entry) := []
  deriving Repr

namespace Disk

def entry? (d : Disk) (p : Place) : Option Entry :=
  if p.isEmpty then some .dir else d.entries.lookup p

def needDir (d : Disk) (p : Place) : Except Cause Unit :=
  match d.entry? p with
  | none => .error .notFound
  | some (.file _) => .error .notDir
  | some .dir => .ok ()

def follow (d : Disk) (p : Place) : List Text → Except Cause Place
  | [] => .ok p
  | n :: ns => do
    d.needDir p
    if n.length > maxName then .error .nameTooLong
    else if n.isEmpty || n == lit "." then d.follow p ns
    else if n == lit ".." then d.follow p.dropLast ns
    else d.follow (p ++ [n]) ns

def place (d : Disk) (path : Text) : Except Cause Place :=
  if path.isEmpty then .error .notFound
  else if List.elem 0 path then .error .badPath
  else d.follow (if Path.isAbs path then [] else d.work) (path.splitOn Path.slash)

def find (d : Disk) (op path : Text) : Except Error Entry :=
  match d.place path with
  | .error c => .error ⟨op, path, c⟩
  | .ok p =>
    match d.entry? p with
    | none => .error ⟨op, path, .notFound⟩
    | some e => .ok e

def stat (d : Disk) (path : Text) : Except Error Entry := d.find (lit "stat") path

def put (d : Disk) (p : Place) (e : Entry) : Disk :=
  if d.entries.any (·.1 == p) then
    { d with entries := d.entries.map fun (q, x) => (q, if q = p then e else x) }
  else { d with entries := d.entries ++ [(p, e)] }

def read (d : Disk) (path : Text) : Except Error Text := do
  match ← d.find (lit "open") path with
  | .file content => .ok content
  | .dir => .error ⟨lit "read", path, .isDir⟩

def write (d : Disk) (path content : Text) : Except Error Disk :=
  let fail (c : Cause) : Except Error Disk := .error ⟨lit "open", path, c⟩
  match d.place path with
  | .error c =>
    match c, Text.endsWith path [Path.slash], d.place ((path.reverse.dropWhile (· == Path.slash)).reverse) with
    | .notFound, true, .ok _ => fail .isDir
    | _, _, _ => fail c
  | .ok p =>
    match d.entry? p with
    | some .dir => fail .isDir
    | _ => .ok (d.put p (.file content))

def makeDir (d : Disk) (path : Text) : Except Error Disk :=
  let fail (c : Cause) : Except Error Disk := .error ⟨lit "mkdir", path, c⟩
  let bare := (path.reverse.dropWhile (· == Path.slash)).reverse
  if bare.isEmpty && !path.isEmpty then fail .exists
  else match d.place bare with
    | .error c => fail c
    | .ok p =>
      match d.entry? p with
      | some _ => fail .exists
      | none => .ok (d.put p .dir)

/-- The path of the directory that a path lies in, with its last separator. -/
def parent (path : Text) : Text := Path.head ((path.reverse.dropWhile (· == Path.slash)).reverse)

/-- Make a directory with those that it lies in.  Each step goes to a shorter path, so the length
    of the path is enough for `fuel`. -/
def makeDirsWithin : Nat → Disk → Text → Except Error Disk
  | 0, _, path => .error ⟨lit "mkdir", path, .notFound⟩
  | fuel + 1, d, path =>
    match d.stat path with
    | .ok .dir => .ok d
    | .ok (.file _) => .error ⟨lit "mkdir", path, .notDir⟩
    | .error _ => do
      let d ← if (parent path).isEmpty then pure d else makeDirsWithin fuel d (parent path)
      match d.makeDir path with
      | .ok d => .ok d
      | .error e => if (d.stat path).toOption = some .dir then .ok d else .error e

def makeDirs (d : Disk) (path : Text) : Except Error Disk := makeDirsWithin (path.length + 1) d path

def remove (d : Disk) (path : Text) : Except Error Disk :=
  match d.place path with
  | .error c => .error ⟨lit "rename", path, c⟩
  | .ok p =>
    match d.entry? p with
    | none => .error ⟨lit "rename", path, .notFound⟩
    | some _ => .ok { d with entries := d.entries.filter fun (q, _) => !p.isPrefixOf q }

def names (d : Disk) (path : Text) : List Text :=
  match d.place path with
  | .error _ => []
  | .ok p =>
    (d.entries.filterMap fun (q, _) =>
      if q.dropLast = p then q.getLast? else none).mergeSort fun a b => !Text.lt b a

def absolute (d : Disk) (path : Text) : Text :=
  if Path.isAbs path then Path.clean path
  else Path.join [Path.slash :: Text.joinWith [Path.slash] d.work, path]

/-- A disk with a working directory and files in it; a path with a final separator is a directory. -/
def ofFiles (work : Text) (files : List (Text × Text)) : Disk :=
  files.foldl (fun d (path, content) =>
      if Text.endsWith path [Path.slash] then (d.makeDirs path).toOption.getD d
      else
        let d := (d.makeDirs (Path.dir path)).toOption.getD d
        (d.write path content).toOption.getD d)
    { work := [work], entries := [([work], .dir)] }

/-- The files below the working directory that are not as they were before, by their paths from
    it. -/
def changes (before after : Disk) : List (Text × Text) :=
  after.entries.filterMap fun (p, e) =>
    match e with
    | .dir => none
    | .file content =>
      if after.work.isPrefixOf p && before.entry? p ≠ some (.file content) then
        some (Text.joinWith [Path.slash] (p.drop after.work.length), content)
      else none

end Disk

end Wacc
