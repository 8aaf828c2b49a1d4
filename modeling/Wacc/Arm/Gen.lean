/-
  The code generator's state and its stack frame.

  A generation step gives the lines it adds.  It knows how many bytes the current routine has
  pushed (`depth`) and how many there were when each open scope was entered, so that the place of
  every variable relative to the stack pointer is known at every point.  Calls are made with the
  stack pointer aligned; the frames themselves are byte-exact.
-/
import Wacc.Arm.Routine
import Wacc.Table.Basic

namespace Wacc.Arm

structure Stage where
  /-- bytes pushed since the routine was entered, the return address included -/
  depth : Int := 0
  /-- the depth right before each open scope was entered -/
  entry : List (ScopeId × Int) := []
  consts : List Text := []
  shared : List (Text × Nat) := []
  places : Nat := 0
  used : List Routine := []

def Gen (α : Type) : Type := Table → Stage → Except Fault (α × List Line × Stage)

namespace Gen

instance : Monad Gen where
  pure a := fun _ s => .ok (a, [], s)
  bind x f := fun t s =>
    match x t s with
    | .error e => .error e
    | .ok (a, out, s) =>
      match f a t s with
      | .error e => .error e
      | .ok (b, more, s) => .ok (b, out ++ more, s)

def fail {α : Type} (f : Fault) : Gen α := fun _ _ => .error f

def table : Gen Table := fun t s => .ok (t, [], s)

def stage : Gen Stage := fun _ s => .ok (s, [], s)

def update (f : Stage → Stage) : Gen Unit := fun _ s => .ok ((), [], f s)

def lift {α : Type} (x : Except Fault α) : Gen α := fun _ s => x.map fun a => (a, [], s)

def lines (ls : List Line) : Gen Unit := fun _ s => .ok ((), ls, s)

def emit (i : Instr) : Gen Unit := lines [.instr i]

def label (l : Label) : Gen Unit := lines [.label l]

def newPlace : Gen Label := do
  let s ← stage
  update fun s => { s with places := s.places + 1 }
  return .place s.places

def stringConst (t : Text) : Gen Label := do
  let s ← stage
  match s.shared.lookup t with
  | some n => return .const n
  | none =>
    let n := s.consts.length
    update fun s => { s with consts := s.consts ++ [t], shared := s.shared ++ [(t, n)] }
    return .const n

def useRoutine (r : Routine) : Gen Unit :=
  update fun s => { s with used := Routine.use 4 s.used [r] }

/-! ## The stack -/

/-- Steps of the stack pointer that add up to `n` bytes, at most `maxStep` each. -/
def stepsOf (op : Alu) (n : Nat) : List Instr :=
  if _h : n = 0 then []
  else .alu op .sp .sp (.imm (min n maxStep)) :: stepsOf op (n - min n maxStep)
termination_by n
decreasing_by simp [maxStep]; omega

def moveStack (op : Alu) (n : Int) : Gen Unit := lines ((stepsOf op n.toNat).map .instr)

def deepen (n : Int) : Gen Unit := update fun s => { s with depth := s.depth + n }

def grow (n : Int) : Gen Unit := do
  moveStack .sub n
  deepen n

def shrink (n : Int) : Gen Unit := do
  moveStack .add n
  deepen (-n)

def pushReg (r : Reg) : Gen Unit := do
  emit (.push [r])
  deepen 4

def popReg (r : Reg) : Gen Unit := do
  emit (.pop [r])
  deepen (-4)

def footprint (scope : ScopeId) : Gen Int := do
  return ((((← table).scope? scope).map Scope.footprint).getD 0).toNat

def enter (scope : ScopeId) : Gen Unit := do
  update fun s => { s with entry := (scope, s.depth) :: s.entry }
  grow (← footprint scope)

def leave (scope : ScopeId) : Gen Unit := do
  shrink (← footprint scope)
  let s ← stage
  let before := (s.entry.lookup scope).getD 0
  if s.depth ≠ before then fail (.unbalancedScope scope s.depth before)
  update fun s => { s with entry := s.entry.filter (·.1 != scope) }

def popReturn : Gen Unit := do
  let s ← stage
  if s.depth ≠ 4 then fail (.unbalancedReturn s.depth)
  emit (.pop [.pc])

/-! ## Variables and memory -/

def slot (id : VarId) : Gen (Int × Ty) := do
  match (← table).var? id with
  | none => fail (.outsideFrame [])
  | some v =>
    let s ← stage
    match s.entry.lookup v.scope with
    | none => fail (.outsideFrame v.name)
    | some base =>
      let off := s.depth - base - v.offset.toNat
      if off < 0 then fail (.belowStack v.name off)
      return (off, v.type)

def widthOf (t : Ty) : Width := if t.size = 1 then .byte else .word

/-- Move between a register and `[base, #off]`, through the scratch register when the offset is
    too large. -/
def access (mk : Address → Instr) (limit : Int) (base : Reg) (off : Int) : Gen Unit := do
  if off ≤ limit then emit (mk (.offset base off))
  else
    emit (.number scratch off)
    emit (mk (.index base scratch))

def load (d base : Reg) (off : Int) (t : Ty) : Gen Unit :=
  match widthOf t with
  | .word => access (.load .word d) maxWordOffset base off
  | .byte => access (.load .byte d) maxByteOffset base off

def store (s base : Reg) (off : Int) (t : Ty) : Gen Unit :=
  access (.store (widthOf t) s) maxWordOffset base off

def loadVar (d : Reg) (id : VarId) : Gen Unit := do
  let (off, t) ← slot id
  load d .sp off t

def storeVar (s : Reg) (id : VarId) : Gen Unit := do
  let (off, t) ← slot id
  store s .sp off t

def addressOf (d : Reg) (id : VarId) : Gen Unit := do
  let (off, _) ← slot id
  if encodable off.toNat.toUInt32 then emit (.alu .add d .sp (.imm off))
  else
    emit (.number scratch off)
    emit (.alu .add d .sp (.reg scratch))

def pushValue (r : Reg) (t : Ty) : Gen Unit := do
  emit (.pushStore (widthOf t) r t.size.toNat)
  deepen t.size.toNat

/-! ## Calls -/

def alignment : Int := 8

def padding (depth : Int) : Int := (alignment - depth.tmod alignment).tmod alignment

def callOut (c : Cond) (f : Callee) : Gen Unit := do
  let pad := padding (← stage).depth
  grow pad
  emit (.call c f)
  shrink pad

def callRoutine (c : Cond) (r : Routine) : Gen Unit := do
  useRoutine r
  callOut c (.label (.routine r))

def callExtern (e : Extern) : Gen Unit := callOut .always (.extern_ e)

def copy (d s : Reg) : Gen Unit := emit (.mov .always d (.reg s))

end Gen

end Wacc.Arm
