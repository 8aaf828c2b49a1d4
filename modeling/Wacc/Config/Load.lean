/-
  Finding and reading the configuration of a project.

  The nearest `waccc.toml` at or above a directory is used.  Keys in it are matched without regard
  to case, and a key that means nothing is refused.
-/
import Wacc.Config.Basic
import Wacc.Disk
import Wacc.Toml.Reader

namespace Wacc.Config

inductive Problem where
  | unseen (path : Text) (e : Disk.Error)
  | malformed (path : Text)
  | unknownKeys (path : Text) (keys : List Toml.Key)
  | invalid (path : Text) (violations : List Violation)
  deriving DecidableEq, Repr

namespace Problem

def message : Problem → Text
  | .unseen path e => lit "failed to stat " ++ Quoted.quote path ++ lit ": " ++ e.message
  | .malformed path => path ++ lit ": failed to parse TOML"
  | .unknownKeys path keys =>
    path ++ lit ": unknown keys: " ++ Text.joinWith (lit ", ") (keys.map Toml.Key.text)
  | .invalid path vs => path ++ lit ": " ++ listed vs

def violations : Problem → List Violation
  | .invalid _ vs => vs
  | _ => []

end Problem

def fileName : Text := lit "waccc.toml"

/-! ## Finding the file -/

def findFrom (d : Disk) : Nat → Text → Except Problem (Option Text)
  | 0, _ => .ok none
  | n + 1, dir =>
    let candidate := Path.join [dir, fileName]
    match d.stat candidate with
    | .ok _ => .ok (some candidate)
    | .error e =>
      if e.cause ≠ .notFound then .error (.unseen candidate e)
      else if Path.dir dir = dir then .ok none
      else findFrom d n (Path.dir dir)

def find (d : Disk) (start : Text) : Except Problem (Option Text) :=
  let dir := d.absolute (if start.isEmpty then lit "." else start)
  findFrom d (dir.length + 1) dir

def root (d : Disk) (start : Text) : Except Problem (Option Text) :=
  (find d start).map (·.map Path.dir)

/-! ## Reading it -/

/-- The name that a key means: the same one, or else one that differs in case only. -/
def meant (names : List Text) (key : Text) : Option Text :=
  if names.contains key then some key else names.find? fun n => Utf8.fold n == Utf8.fold key

def Build.set (b : Build) (name : Text) (v : Toml.Value) : Option Build :=
  if name = lit "output_dir" then
    match v with
    | .text t => some { b with outputDir := t }
    | _ => none
  else if name = lit "cache" then
    match v with
    | .bool x => some { b with cache := x }
    | _ => none
  else
    match v with
    | .text t => some { b with cacheDir := t }
    | _ => none

def Diagnostics.set (s : Diagnostics) (name : Text) (v : Toml.Value) : Option Diagnostics :=
  if name = lit "max" then
    match v with
    | .int n => some { s with max := n }
    | _ => none
  else
    match v with
    | .text t => some (if name = lit "color" then { s with color := t } else { s with format := t })
    | _ => none

def Tracing.set (s : Tracing) (name : Text) (v : Toml.Value) : Option Tracing :=
  match v with
  | .text t =>
    some (if name = lit "level" then { s with level := t }
      else if name = lit "format" then { s with format := t } else { s with output := t })
  | _ => none

def section? {α : Type} (names : List Text) (set : α → Text → Toml.Value → Option α) :
    α → Toml.Fields → Option (α × List Text)
  | a, [] => some (a, [])
  | a, (key, v) :: fs =>
    match meant names key with
    | none => section? names set a fs
    | some name => do
      let (a, used) ← section? names set (← set a name v) fs
      return (a, key :: used)

def setSection (c : Config) (name : Text) (fs : Toml.Fields) : Option (Config × List Text) :=
  if name = lit "build" then
    (section? [lit "output_dir", lit "cache", lit "cache_dir"] Build.set c.build fs).map
      fun (b, used) => ({ c with build := b }, used)
  else if name = lit "diagnostics" then
    (section? [lit "max", lit "color", lit "format"] Diagnostics.set c.diagnostics fs).map
      fun (s, used) => ({ c with diagnostics := s }, used)
  else
    (section? [lit "level", lit "format", lit "output"] Tracing.set c.trace fs).map
      fun (s, used) => ({ c with trace := s }, used)

/-- Apply the known sections of a document; also the keys that were used.  Fails if a value is of
    the wrong kind. -/
def sections? (c : Config) : Toml.Fields → Option (Config × List Toml.Key)
  | [] => some (c, [])
  | (key, v) :: fs =>
    match meant [lit "build", lit "diagnostics", lit "trace"] key with
    | none => sections? c fs
    | some name =>
      match v with
      | .table inner => do
        let (c, here) ← setSection c name inner
        let (c, used) ← sections? c fs
        return (c, [key] :: here.map ([key, ·]) ++ used)
      | _ => none

/-- Without a cache there is no directory for one, unless the file names it. -/
def withoutCacheDir (doc : Toml.Document) (c : Config) : Config :=
  if Toml.Fields.defines doc.root [lit "build", lit "cache"] && !c.build.cache &&
      !Toml.Fields.defines doc.root [lit "build", lit "cache_dir"] then
    { c with build := { c.build with cacheDir := [] } }
  else c

def ofText (path content : Text) : Except Problem Config :=
  match Toml.Document.ofText? content with
  | none => .error (.malformed path)
  | some doc =>
    match sections? {} doc.root with
    | none => .error (.malformed path)
    | some (c, used) =>
      match doc.keys.filter fun k => !used.contains k with
      | [] =>
        let c := { withoutCacheDir doc c with dir := Path.dir path }
        match c.violations with
        | [] => .ok c
        | vs => .error (.invalid path vs)
      | keys => .error (.unknownKeys path keys)

def load (d : Disk) (path : Text) : Except Problem Config :=
  match d.read path with
  | .error _ => .error (.malformed path)
  | .ok content => ofText path content

/-- The configuration for a directory: that of the nearest file, or the defaults. -/
def discover (d : Disk) (start : Text) : Except Problem Config := do
  match ← find d start with
  | none => return {}
  | some path => load d path

end Wacc.Config
