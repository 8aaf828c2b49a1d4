/-
  The surroundings of a command: the disk, the environment, and what was printed.

  Every way in which a command can end early is a value: with an exit code after a report, or with
  a complaint.
-/
import Wacc.Command.Request
import Wacc.Compile
import Wacc.Config.Load

namespace Wacc.Command

structure Machine where
  disk : Disk := {}
  home : Text := []
  cacheHome : Text := []
  terminal : Bool := false
  clock : Text := []
  measured : Phase → Float := fun _ => 0
  seq : Nat := 0
  spans : Nat := 0
  out : Text := []
  err : Text := []

inductive Profile where
  | cpu
  | heap
  | events
  deriving DecidableEq, Repr

def Profile.name : Profile → Text
  | .cpu => lit "cpu profile"
  | .heap => lit "heap profile"
  | .events => lit "runtime trace"

inductive Complaint where
  | request (r : BadRequest)
  | profile (p : Profile) (e : Disk.Error)
  | config (p : Config.Problem)
  | settings (vs : List Config.Violation)
  | noHome
  | cache (p : Cache.Problem)
  | traceLevel (b : Trace.BadName)
  | traceFormat (b : Trace.BadName)
  | traceMode (b : Trace.BadName)
  | traceKind (m : Trace.Mode)
  | traceOutput (e : Disk.Error)
  | notLoaded (path : Text) (e : Disk.Error)
  | failed (f : Compile.Failure)
  | outputDir (e : Disk.Error)
  | notWritten (path : Text) (e : Disk.Error)
  | tokenFormat (name : Text)
  | versionFormat (name : Text)
  | notSeen (path : Text) (e : Disk.Error)
  | notCleaned (dir : Text) (p : Cache.Problem)
  deriving DecidableEq, Repr

def Complaint.message : Complaint → Text
  | .request r => r.message
  | .profile p e => p.name ++ lit ": " ++ e.message
  | .config p => p.message
  | .settings vs => Config.listed vs
  | .noHome => lit "$HOME is not defined"
  | .cache p => p.message
  | .traceLevel b => lit "invalid trace level: " ++ b.message
  | .traceFormat b => b.message
  | .traceMode b => lit "invalid trace mode: " ++ b.message
  | .traceKind m => lit "failed to create tracer: unknown storage mode: " ++ m.name
  | .traceOutput e => lit "failed to create tracer: failed to open trace output: " ++ e.message
  | .notLoaded path e => lit "failed to load " ++ path ++ lit ": " ++ e.message
  | .failed f => f.message
  | .outputDir e => lit "failed to create output dir: " ++ e.message
  | .notWritten path e => lit "failed to write " ++ path ++ lit ": " ++ e.message
  | .tokenFormat n => lit "unknown format: " ++ n
  | .versionFormat n =>
    lit "unsupported format " ++ Quoted.quote n ++ lit " (must be pretty or json)"
  | .notSeen path e => lit "failed to stat " ++ Quoted.quote path ++ lit ": " ++ e.message
  | .notCleaned dir p => lit "failed to clean " ++ Quoted.quote dir ++ lit ": " ++ p.message

inductive Stop where
  | exit (code : Nat)
  | complaint (c : Complaint)
  deriving DecidableEq, Repr

abbrev Act := ExceptT Stop (StateM Machine)

def complain {α : Type} (c : Complaint) : Act α := throw (.complaint c)

def print (t : Text) : Act Unit := modifyThe Machine fun m => { m with out := m.out ++ t }

def printErr (t : Text) : Act Unit := modifyThe Machine fun m => { m with err := m.err ++ t }

def disk : Act Disk := return (← getThe Machine).disk

def setDisk (d : Disk) : Act Unit := modifyThe Machine fun m => { m with disk := d }

def orComplain {α ε : Type} (f : ε → Complaint) : Except ε α → Act α
  | .ok a => return a
  | .error e => complain (f e)

def writeFile (f : Disk.Error → Complaint) (path content : Text) : Act Unit := do
  setDisk (← orComplain f ((← disk).write path content))

end Wacc.Command
