/-
  The program: a command line, run on the part of the file system that it can reach.

  Before the run the files and directories that the command line may look at are read: the
  arguments, the directories above them with their configurations, and the cache.  After it the
  changes are made.
-/
import Wacc.Command.Run
import Wacc.Trace.Time

namespace Wacc.Shell

open Command

def pathOf (t : Text) : String := (Text.toString? t).getD ""

def absolutePath (p : Disk.Place) : String := "/" ++ "/".intercalate (p.map pathOf)

def placeOf (t : Text) : Disk.Place := Path.elements t

def listing (path : String) : IO (Array IO.FS.DirEntry) := (IO.FS.DirEntry.mk path "").root.readDir

def look (path : String) : IO (Option Disk.Entry) := do
  try
    let _ ← listing path
    return some .dir
  catch _ =>
    try
      let content ← IO.FS.readBinFile path
      return some (.file content.data.toList)
    catch _ => return none

def copyEntry (d : Disk) (p : Disk.Place) : IO Disk := do
  if p.isEmpty || (d.entry? p).isSome then return d
  match ← look (absolutePath p) with
  | some e => return d.put p e
  | none => return d

/-- Copy the directories on the way to a place, each with its configuration, and the entry there. -/
def copyWay (d : Disk) (p : Disk.Place) : IO Disk := do
  let mut d := d
  for n in List.range (p.length + 1) do
    d ← copyEntry d (p.take n)
    d ← copyEntry d (p.take n ++ [Config.fileName])
  return d

def copyTree (d : Disk) (p : Disk.Place) : Nat → IO Disk
  | 0 => return d
  | n + 1 => do
    let mut d ← copyWay d p
    if d.entry? p = some .dir then
      for e in ← listing (absolutePath p) do
        d ← copyTree d (p ++ [lit e.fileName]) n
    return d

def paths (args : List Text) : List Text :=
  args.flatMap fun a =>
    match splitLong a with
    | (n, some v) => [n, v]
    | (n, none) => [n]

def copyDisk (m : Machine) (args : List Text) : IO Machine := do
  let mut d ← copyWay m.disk m.disk.work
  for a in paths args do
    d ← copyWay d (placeOf (d.absolute a))
  for a in lit "." :: paths args do
    for start in [a, Path.dir a] do
      match Config.discover d start with
      | .error _ => pure ()
      | .ok c =>
        d ← copyWay d (placeOf (d.absolute (c.resolveDir c.build.outputDir)))
        match cacheDir m c with
        | .error _ => pure ()
        | .ok dir => if !dir.isEmpty then d ← copyTree d (placeOf (d.absolute dir)) 3
  return { m with disk := d }

def makeChanges (before after : Disk) : IO Unit := do
  for (p, e) in before.entries.reverse do
    if (after.entry? p).isNone then
      match e with
      | .dir => IO.FS.removeDir (absolutePath p)
      | .file _ => IO.FS.removeFile (absolutePath p)
  for (p, e) in after.entries do
    if before.entry? p ≠ some e then
      match e with
      | .dir => IO.FS.createDir (absolutePath p)
      | .file content => IO.FS.writeBinFile (absolutePath p) ⟨content.toArray⟩

end Wacc.Shell

def main (args : List String) : IO UInt32 := do
  let work ← IO.currentDir
  let home := (← IO.getEnv "HOME").getD ""
  let cacheHome := (← IO.getEnv "XDG_CACHE_HOME").getD ""
  let args := args.map Wacc.lit
  let m ← Wacc.Shell.copyDisk
    { disk := { work := Wacc.Shell.placeOf (Wacc.lit work.toString) }, home := Wacc.lit home,
      cacheHome := Wacc.lit cacheHome,
      clock := (Wacc.Trace.Time.ofNanos (← IO.monoNanosNow)).render } args
  let (code, after) := Wacc.Command.run args m
  (← IO.getStdout).write ⟨after.out.toArray⟩
  (← IO.getStderr).write ⟨after.err.toArray⟩
  Wacc.Shell.makeChanges m.disk after.disk
  return code.toUInt32
