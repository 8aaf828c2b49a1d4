/-
  Assembly of whole programs: the string constants, the main program, its functions, and the
  routines that any of them needs.
-/
import Wacc.Arm.Stat

namespace Wacc.Arm

namespace Gen

def mainBody (body : Stat) : Gen Unit := do
  label .main
  pushReg .lr
  enter Table.global
  stat body
  leave Table.global
  emit (.number .r0 0)
  popReturn
  lines [.pool]

/-- A function.  The caller pushed the arguments, so the parameters lie above the return address. -/
def function (f : Func) : Gen Unit := do
  let size ← footprint f.scope
  update fun s => { s with depth := 0, entry := [(f.scope, -size)] }
  label (.func f.name)
  pushReg .lr
  block f.body
  lines [.pool]

def functions : List Func → Gen Unit
  | [] => return
  | f :: fs => do
    function f
    functions fs

def routine (r : Routine) : Gen Unit := do
  let n := (← stage).consts.length
  update fun s => { s with consts := s.consts ++ r.messages }
  label (.routine r)
  lines ((r.body n).map .instr)

def routines : List Routine → Gen Unit
  | [] => return
  | r :: rs => do
    routine r
    routines rs

def program (p : Program) : Gen Unit := do
  mainBody p.body
  functions p.funcs
  let s ← stage
  routines s.used

end Gen

def constLines (n : Nat) (t : Text) : List Line := [.label (.const n), .word t.length, .ascii t]

def dataLines (consts : List Text) : List Line :=
  .data :: (consts.zipIdx.flatMap fun (t, n) => constLines n t)

structure Assembly where
  lines : List Line
  runtime : List Routine
  consts : Nat
  deriving Repr

namespace Assembly

def text (a : Assembly) : Text := render a.lines

def ofProgram (p : Program) : Except Fault Assembly :=
  match Gen.program p p.table {} with
  | .error f => .error f
  | .ok (_, code, s) =>
    .ok { lines := dataLines s.consts ++ [.text, .global .main] ++ code,
          runtime := s.used, consts := s.consts.length }

end Assembly

end Wacc.Arm
