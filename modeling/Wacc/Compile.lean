/-
  Compilation of one file: parsing, typing, the return check and code generation.

  A rejected program is not a failure: its problems are in the bag of the outcome, and the exit
  code says which phase found them.  A compilation fails only if there is no such file, if it is
  cancelled, or if an invariant of the compiler is broken.

  Before parsing, typing and code generation it is asked whether the compilation was cancelled.
  Every phase is a span of the trace inside the span of the compilation, every return check of a
  function a span inside its phase.
-/
import Wacc.Arm.Program
import Wacc.Cache.Basic
import Wacc.Diagnostic.Bag
import Wacc.Returns
import Wacc.Timings
import Wacc.Trace.Basic
import Wacc.Tree.Program
import Wacc.Typing.Program

namespace Wacc

structure Stage where
  number : UInt8
  deriving DecidableEq, Repr, Inhabited

namespace Stage

def unset : Stage := ⟨0⟩

def parse : Stage := ⟨1⟩

def sema : Stage := ⟨2⟩

def codegen : Stage := ⟨3⟩

def name (s : Stage) : Text :=
  if s = parse then lit "parse"
  else if s = sema then lit "sema"
  else if s = codegen || s = unset then lit "codegen"
  else lit "unknown"

def resolve (s : Stage) : Stage := if s = unset then codegen else s

end Stage

namespace Compile

structure Options where
  max : Int := 0
  stage : Stage := .unset
  cache : Option Cache := none
  deriving Repr

inductive Checkpoint where
  | parse
  | build
  | codegen
  deriving DecidableEq, Repr

abbrev Context := Checkpoint → Bool

def background : Context := fun _ => false

def cancelled : Context := fun _ => true

inductive Failure where
  | unknownFile (id : UInt32)
  | cancelled
  | typing (f : Fault)
  | codegen (f : Fault)
  deriving DecidableEq, Repr

namespace Failure

def fault? : Failure → Option Fault
  | .typing f | .codegen f => some f
  | _ => none

def message : Failure → Text
  | .unknownFile id => lit "unknown file id " ++ decimal id.toNat
  | .cancelled => lit "context canceled"
  | .typing f | .codegen f => f.message

def exit? : Failure → Option Nat
  | .unknownFile _ | .cancelled => none
  | .typing _ => some 0
  | .codegen _ => some 1

end Failure

structure Outcome where
  tree : Option Tree := none
  program : Option Program := none
  asm : Text := []
  runtime : List Text := []
  bag : Bag
  exitCode : Nat := 0
  cached : Bool := false
  phases : List Phase := []

def Outcome.finish (o : Outcome) : Outcome :=
  let bag := o.bag.sort
  { o with bag, exitCode := bag.exitCode }

structure World where
  trace : Trace := {}
  disk : Disk := {}

abbrev Step := ExceptT Failure (StateM World)

def start (scope : Trace.Scope) (name : Text) (parent : Nat) : Step Trace.Span := do
  let w ← getThe World
  let (s, t) := w.trace.start scope name parent
  set { w with trace := t }
  return s

def annotate (s : Trace.Span) (key value : Text) : Step Trace.Span := do
  let w ← getThe World
  let (s, t) := w.trace.annotate s key value
  set { w with trace := t }
  return s

def stop (s : Trace.Span) (detail : Text) : Step Unit :=
  modifyThe World fun w => { w with trace := w.trace.stop s detail }

def point (scope : Trace.Scope) (name detail : Text) (parent : Nat) : Step Unit :=
  modifyThe World fun w => { w with trace := w.trace.point scope name detail parent }

def stopCounted (s : Trace.Span) (n : Nat) : Step Unit := do
  let s ← annotate s (lit "errors") (decimal n)
  stop s []

def checkpoint (ctx : Context) (c : Checkpoint) : Step Unit :=
  if ctx c then throw .cancelled else return

def lookup (root : Nat) (cache : Cache) (key : UInt64) : Step (Option Cached) := do
  let w ← getThe World
  match cache.get w.disk key with
  | .error p =>
    point .pass (lit "cache") (lit "read failed: " ++ p.message) root
    return none
  | .ok none => return none
  | .ok (some e) =>
    point .pass (lit "cache") (lit "hit") root
    return some e

def remember (root : Nat) (cache : Cache) (key : UInt64) (o : Outcome) : Step Unit := do
  let w ← getThe World
  match cache.put w.disk key { schema := Cache.schema, key, asm := o.asm, runtime := o.runtime } with
  | .error p => point .pass (lit "cache") (lit "write failed: " ++ p.message) root
  | .ok d => set { w with disk := d }

def returns (parent : Nat) (bag : Bag) : List Func → Step Bag
  | [] => return bag
  | f :: fs => do
    let s ← start .func f.name parent
    let ds := Returns.check f
    stopCounted s ds.length
    returns parent (bag.addAll ds) fs

def routines (parent : Nat) : List Text → Step Unit
  | [] => return
  | r :: rs => do
    point .node (lit "runtime") r parent
    routines parent rs

def parse (root : Nat) (o : Outcome) (f : File) : Step Outcome := do
  let s ← start .pass (lit "parse") root
  let p := Parsed.ofFile f
  stopCounted s p.count
  return { o with tree := p.tree? 0, bag := o.bag.addAll (p.reported o.bag.limit.toNat 0),
                  phases := o.phases ++ [{ name := lit "parse" }] }

def build (root : Nat) (o : Outcome) (t : Tree) : Step (Outcome × Option Program) := do
  let s ← start .pass (lit "build") root
  match Typing.check t with
  | .error f => throw (.typing f)
  | .ok (c, _) =>
    stopCounted s c.problems.length
    return ({ o with bag := o.bag.addAll c.problems, phases := o.phases ++ [{ name := lit "build" }] },
      c.value?)

def checkReturns (root : Nat) (o : Outcome) (p : Program) : Step Outcome := do
  let s ← start .pass (lit "returns") root
  let bag ← returns s.id o.bag p.funcs
  stop s []
  return { o with bag, program := if bag.hasErrors then none else some p,
                  phases := o.phases ++ [⟨lit "returns", decimal p.funcs.length ++ lit " funcs"⟩] }

def codegen (root : Nat) (o : Outcome) (p : Program) : Step Outcome := do
  let s ← start .pass (lit "codegen") root
  match Arm.Assembly.ofProgram p with
  | .error f =>
    stop s f.message
    throw (.codegen f)
  | .ok a =>
    let runtime := a.runtime.map Arm.Routine.name
    routines s.id runtime
    let s ← annotate s (lit "lines") (decimal a.lines.length)
    let s ← annotate s (lit "strings") (decimal a.consts)
    stop s []
    return { o with asm := a.text, runtime, phases := o.phases ++ [{ name := lit "codegen" }] }

def phases (ctx : Context) (root : Nat) (stage : Stage) (o : Outcome) (f : File) : Step Outcome := do
  checkpoint ctx .parse
  let o ← parse root o f
  match o.tree with
  | none => return o
  | some t =>
    if stage = .parse then return o
    checkpoint ctx .build
    let (o, program) ← build root o t
    match program with
    | none => return o
    | some p =>
      let o ← checkReturns root o p
      if o.program.isNone || stage = .sema then return o
      checkpoint ctx .codegen
      codegen root o p

/-- The phases, unless the cache has the assembly.  Only whole compilations use the cache, and only
    accepted programs get into it. -/
def throughCache (ctx : Context) (root : Nat) (opts : Options) (f : File) : Step Outcome := do
  let stage := opts.stage.resolve
  let o : Outcome := { bag := { limit := opts.max } }
  match (if stage = .codegen then opts.cache else none) with
  | none => return (← phases ctx root stage o f).finish
  | some cache =>
    let key := Cache.key stage.number f.content
    match ← lookup root cache key with
    | some e => return { o with asm := e.asm, runtime := e.runtime, cached := true }
    | none =>
      let o ← phases ctx root stage o f
      if o.program.isSome then remember root cache key o
      return o.finish

def file (ctx : Context) (opts : Options) (f : File) : Step Outcome := do
  let root ← start .driver (lit "compile") 0
  let root ← annotate root (lit "file") f.path
  let root ← annotate root (lit "stage") opts.stage.resolve.name
  let close (exit : Option Nat) : Step Unit := do
    let root ← match exit with
      | some n => annotate root (lit "exit") (decimal n)
      | none => pure root
    stop root []
  try
    let o ← throughCache ctx root.id opts f
    close (some o.exitCode)
    return o
  catch e =>
    close e.exit?
    throw e

def run (ctx : Context) (opts : Options) (files : FileSet) (id : UInt32) (w : World) :
    Except Failure Outcome × World :=
  match files.get? id with
  | none => (.error (.unknownFile id), w)
  | some f => (file ctx opts f).run w

end Compile

end Wacc
