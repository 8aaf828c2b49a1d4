/-
  A cache of assembly on disk.

  The key of an entry is a digest of all that the assembly depends on.  An entry also holds its
  key, so that a renamed file is never trusted, and the version of its form.
-/
import Wacc.Cache.Digest
import Wacc.Cache.Pack
import Wacc.Disk
import Wacc.Version

namespace Wacc

structure Cache where
  dir : Text
  deriving DecidableEq, Repr

namespace Cache

inductive Problem where
  | noDirectory
  | cannotCreate (e : Disk.Error)
  | disk (e : Disk.Error)
  | corrupt (key : UInt64)
  deriving DecidableEq, Repr

def Problem.message : Problem → Text
  | .noDirectory => lit "cache directory is empty"
  | .cannotCreate e => lit "failed to create cache dir: " ++ e.message
  | .disk e => e.message
  | .corrupt k => lit "corrupt cache entry " ++ hex 16 k.toNat ++ lit ": malformed entry"

def schema : UInt16 := 1

def key (stage : UInt8) (content : Text) : UInt64 :=
  Digest.ofText ([schema.toUInt8, (schema >>> 8).toUInt8, stage] ++ Version.current ++ [0] ++ content)

def openAt (d : Disk) (dir : Text) : Except Problem (Cache × Disk) :=
  if dir.isEmpty then .error .noDirectory
  else match d.makeDirs dir with
    | .ok d => .ok (⟨dir⟩, d)
    | .error e => .error (.cannotCreate e)

def folder (c : Cache) : Text := Path.join [c.dir, lit "asm"]

def path (c : Cache) (key : UInt64) : Text :=
  Path.join [c.dir, lit "asm", hex 16 key.toNat ++ lit ".mp"]

def put (c : Cache) (d : Disk) (key : UInt64) (entry : Cached) : Except Problem Disk :=
  match d.makeDirs (Path.dir (c.path key)) with
  | .error e => .error (.disk e)
  | .ok d =>
    match d.write (c.path key) (Pack.encode entry) with
    | .error e => .error (.disk e)
    | .ok d => .ok d

/-- Read an entry.  None is there if the file is missing, or if the entry is of another form or was
    put under another key. -/
def get (c : Cache) (d : Disk) (key : UInt64) : Except Problem (Option Cached) :=
  match d.find (lit "open") (c.path key) with
  | .error e => if e.cause = .notFound then .ok none else .error (.disk e)
  | .ok .dir => .error (.corrupt key)
  | .ok (.file t) =>
    match Pack.decode? t with
    | none => .error (.corrupt key)
    | some e => .ok (if e.schema = schema && e.key = key then some e else none)

def drop (c : Cache) (d : Disk) : Except Problem Disk :=
  match d.remove c.folder with
  | .ok d => .ok d
  | .error e => if e.cause = .notFound then .ok d else .error (.disk e)

end Cache

end Wacc
