/-
  Code generation with notes about the stack.

  `Noted` is the generator with two notes: what each byte of the stack is for, from the stack pointer
  upwards, and at which points the place of a variable was asked for.  Without the notes it is the
  generator itself.
-/
import Wacc.Proofs.Arm.Gen

namespace Wacc.Arm

/-- What a byte of the stack is for. -/
inductive Held where
  /-- the return address -/
  | link
  | vars (scope : ScopeId)
  | value
  | padding
  | argument
  deriving DecidableEq, Repr

/-- A question for the place of a variable: what was known, and what the bytes from the stack pointer
    upwards were for. -/
structure Lookup where
  var : VarId
  stage : Stage
  held : List Held

def Noted (α : Type) : Type := List Held → Gen (α × List Held × List Lookup)

namespace Noted

instance : Monad Noted where
  pure a := fun h => pure (a, h, [])
  bind x f := fun h => do
    let (a, h, ls) ← x h
    let (b, h, more) ← f a h
    return (b, h, ls ++ more)

def plain {α : Type} (x : Gen α) : Noted α := fun h => do return (← x, h, [])

instance : MonadLift Gen Noted := ⟨plain⟩

/-! ## The stack -/

def hold (x : Gen Unit) (f : List Held → List Held) : Noted Unit := fun h => do return (← x, f h, [])

def pushReg (r : Reg) (what : Held) : Noted Unit := hold (Gen.pushReg r) (List.replicate 4 what ++ ·)

def popReg (r : Reg) : Noted Unit := hold (Gen.popReg r) (List.drop 4)

def grow (n : Int) : Noted Unit := hold (Gen.grow n) (List.replicate n.toNat .padding ++ ·)

def shrink (n : Int) : Noted Unit := hold (Gen.shrink n) (List.drop n.toNat)

def pushValue (r : Reg) (t : Ty) : Noted Unit :=
  hold (Gen.pushValue r t) (List.replicate t.size.toNat .argument ++ ·)

def enter (scope : ScopeId) : Noted Unit := do
  let n ← Gen.footprint scope
  hold (Gen.enter scope) (List.replicate n.toNat (.vars scope) ++ ·)

def leave (scope : ScopeId) : Noted Unit := do
  let n ← Gen.footprint scope
  hold (Gen.leave scope) (List.drop n.toNat)

/-! ## Variables -/

def slot (id : VarId) : Noted (Int × Ty) := fun h => do
  let s ← Gen.stage
  return (← Gen.slot id, h, [⟨id, s, h⟩])

def loadVar (d : Reg) (id : VarId) : Noted Unit := do
  let (off, t) ← slot id
  Gen.load d .sp off t

def storeVar (s : Reg) (id : VarId) : Noted Unit := do
  let (off, t) ← slot id
  Gen.store s .sp off t

def addressOf (d : Reg) (id : VarId) : Noted Unit := do
  let (off, _) ← slot id
  if encodable off.toNat.toUInt32 then Gen.emit (.alu .add d .sp (.imm off))
  else
    Gen.emit (.number scratch off)
    Gen.emit (.alu .add d .sp (.reg scratch))

/-! ## Expressions -/

mutual

def expr : Expr → List Reg → Noted Unit
  | _, [] => Gen.fail .noRegister
  | .int _ n, d :: _ => Gen.emit (.number d n)
  | .bool _ b, d :: _ => Gen.emit (.mov .always d (.imm (if b then 1 else 0)))
  | .char _ c, d :: _ => Gen.emit (.mov .always d (.imm c.toNat))
  | .str _ s, d :: _ => do Gen.emit (.address .always d (← Gen.stringConst s))
  | .null _, d :: _ => Gen.emit (.number d 0)
  | .var id, d :: _ => loadVar d id.var
  | .elem _ t id is, d :: rest => do
    loadVar d id.var
    indices id.type 0 is d rest
    Gen.load d d 0 t
  | .unary _ _ op e, d :: rest => do
    expr e (d :: rest)
    Gen.applyUnary op d
  | .binary _ _ op l r, [d] => do
    expr r [d]
    pushReg d .value
    expr l [d]
    popReg scratch
    Gen.apply op d d scratch
  | .binary _ _ op l r, d :: e :: rest =>
    if weight r ≤ weight l then do
      expr l (d :: e :: rest)
      expr r (e :: rest)
      Gen.apply op d d e
    else do
      expr r (d :: e :: rest)
      expr l (e :: rest)
      Gen.apply op d e d

def indices (array : Ty) (done : Nat) : List Expr → Reg → List Reg → Noted Unit
  | [], _, _ => return
  | i :: is, arr, [] => do
    pushReg arr .value
    expr i [arr]
    Gen.copy scratch arr
    popReg arr
    Gen.step arr scratch (← Gen.lift (array.nested (done + 1).toUInt32))
    if !is.isEmpty then Gen.emit (.load .word arr (.offset arr 0))
    indices array (done + 1) is arr []
  | i :: is, arr, r :: rest => do
    expr i (r :: rest)
    Gen.step arr r (← Gen.lift (array.nested (done + 1).toUInt32))
    if !is.isEmpty then Gen.emit (.load .word arr (.offset arr 0))
    indices array (done + 1) is arr (r :: rest)

end

/-! ## Places and values -/

def address : Target → List Reg → Noted Unit
  | _, [] => Gen.fail .noRegister
  | .var id, d :: _ => addressOf d id.var
  | .elem _ _ id is, d :: rest => do
    loadVar d id.var
    indices id.type 0 is d rest
  | .slot _ _ snd pair, d :: rest => do
    match pair with
    | .var id => loadVar d id.var
    | p =>
      address p (d :: rest)
      Gen.load d d 0 p.type
    Gen.copy .r0 d
    Gen.callRoutine .always .checkNullPointer
    if snd then Gen.emit (.alu .add d d (.imm Gen.slotSize))

def assign (value : Reg) : Target → List Reg → Noted Unit
  | _, [] => Gen.fail .noRegister
  | .var id, _ => storeVar value id.var
  | target, d :: rest => do
    address target (d :: rest)
    Gen.store value d 0 target.type

def args (d : Reg) (rest : List Reg) : List Expr → Noted Unit
  | [] => return
  | e :: es => do
    expr e (d :: rest)
    pushValue d e.type
    args d rest es

def callFunc (name : Text) (es : List Expr) (d : Reg) (rest : List Reg) : Noted Unit := do
  let size : Nat := es.foldr (fun e n => e.type.size.toNat + n) 0
  let pad := Gen.padding ((← Gen.stage).depth + size)
  grow pad
  args d rest es
  Gen.emit (.call .always (.label (.func name)))
  shrink (pad + size)
  Gen.copy d .r0

mutual

def value : Value → List Reg → Noted Unit
  | .expr e, pool => expr e pool
  | .array _ t vs, arr :: tmp :: rest => do
    let size ← Gen.elemSize t
    Gen.malloc arr (4 + vs.length * size)
    elements size 0 vs arr tmp rest
    Gen.emit (.number tmp vs.length)
    Gen.emit (.store .word tmp (.offset arr 0))
  | .array _ _ _, _ => Gen.fail .arrayRegisters
  | .newPair _ a b, cell :: tmp :: rest => do
    Gen.malloc cell (2 * Gen.slotSize)
    expr a (tmp :: rest)
    Gen.store tmp cell 0 a.type
    expr b (tmp :: rest)
    Gen.store tmp cell Gen.slotSize b.type
  | .newPair _ _ _, _ => Gen.fail .pairRegisters
  | .slot s t snd pair, d :: rest => do
    address (.slot s t snd pair) (d :: rest)
    Gen.load d d 0 t
  | .call _ _ _ name es, d :: rest => callFunc name es d rest
  | _, [] => Gen.fail .noRegister

def elements (size i : Nat) : List Value → Reg → Reg → List Reg → Noted Unit
  | [], _, _, _ => return
  | v :: vs, arr, tmp, rest => do
    match v, rest with
    | .array _ _ _, [] =>
      pushReg arr .value
      value v [arr, tmp]
      Gen.copy tmp arr
      popReg arr
    | _, _ => value v (tmp :: rest)
    Gen.store tmp arr (4 + i * size : Nat) v.type
    elements size (i + 1) vs arr tmp rest

end

/-! ## Statements -/

def argument (e : Expr) : Noted Unit := do
  expr e pool
  Gen.copy .r0 Gen.result

def jumpUnless (cond : Expr) (l : Label) : Noted Unit := do
  expr cond pool
  Gen.emit (.cmp Gen.result (.imm 0))
  Gen.emit (.branch .eq l)

def ret (scope : ScopeId) (e : Expr) : Noted Unit := do
  argument e
  let n ← Gen.unwound scope
  let d := (← Gen.stage).depth
  if n ≠ d - 4 then Gen.fail (.unbalancedFrames n d)
  Gen.moveStack .add n
  Gen.emit (.pop [.pc])

mutual

def stat : Stat → Noted Unit
  | .skip _ => return
  | .seq _ ss => stats ss
  | .declare _ id _ _ v => do
    value v pool
    storeVar Gen.result id
  | .assign _ target v => do
    value v pool
    assign Gen.result target Gen.others
  | .read _ target => do
    match Gen.reader? target.type with
    | none => Gen.fail (.unreadable target.type.render)
    | some r =>
      address target pool
      Gen.copy .r0 Gen.result
      Gen.callRoutine .always r
  | .free _ e => do
    argument e
    if e.type.isPair then Gen.callRoutine .always .freePair else Gen.callExtern .free
  | .ret site e => ret site.scope e
  | .exit _ e => do
    argument e
    Gen.callExtern .exit
  | .print _ e newline => do
    argument e
    Gen.callRoutine .always (Gen.printer e.type)
    if newline then Gen.callRoutine .always .printLn
  | .block b => block b
  | .ifThen _ cond yes => do
    let stop ← Gen.newPlace
    jumpUnless cond stop
    block yes
    Gen.label stop
  | .ifElse _ cond yes no => do
    let stop ← Gen.newPlace
    let other ← Gen.newPlace
    jumpUnless cond other
    block yes
    Gen.emit (.branch .always stop)
    Gen.label other
    block no
    Gen.label stop
  | .while _ cond body => do
    let top ← Gen.newPlace
    let stop ← Gen.newPlace
    Gen.label top
    jumpUnless cond stop
    block body
    Gen.emit (.branch .always top)
    Gen.label stop
  | .for _ header init cond step body => do
    enter header
    stat init
    let top ← Gen.newPlace
    let stop ← Gen.newPlace
    Gen.label top
    jumpUnless cond stop
    block body
    stat step
    Gen.emit (.branch .always top)
    Gen.label stop
    leave header

def stats : List Stat → Noted Unit
  | [] => return
  | s :: ss => do
    stat s
    stats ss

def block : Block → Noted Unit
  | .mk _ inner body => do
    enter inner
    stat body
    leave inner

end

/-! ## Programs -/

def mainBody (body : Stat) : Noted Unit := do
  Gen.label .main
  pushReg .lr .link
  enter Table.global
  stat body
  leave Table.global
  Gen.emit (.number .r0 0)
  Gen.popReturn
  Gen.lines [.pool]

def function (f : Func) : Noted Unit := do
  let size ← Gen.footprint f.scope
  hold (Gen.update fun s => { s with depth := 0, entry := [(f.scope, -size)] }) fun _ =>
    List.replicate size.toNat (.vars f.scope)
  Gen.label (.func f.name)
  pushReg .lr .link
  block f.body
  Gen.lines [.pool]

def functions : List Func → Noted Unit
  | [] => return
  | f :: fs => do
    function f
    functions fs

def program (p : Program) : Noted Unit := do
  mainBody p.body
  functions p.funcs
  let s ← Gen.stage
  Gen.routines s.used

/-! ## With and without the notes -/

section
variable {α β : Type} {T : Table} {s : Stage} {h : List Held}

/-- Where the generator gives a result, the generator with notes gives the same one, with notes that
    satisfy `Q`. -/
def Follows (x : Noted α) (y : Gen α) (T : Table) (s : Stage) (h : List Held)
    (Q : α → Stage → List Held → List Lookup → Prop) : Prop :=
  ∀ a out s', y T s = .ok (a, out, s') → ∃ h' ls, x h T s = .ok ((a, h', ls), out, s') ∧ Q a s' h' ls

theorem run_return {y : Gen α} {a : α} {out : List Line} {s' : Stage} (hy : y T s = .ok (a, out, s')) (g : α → β) :
    (y >>= fun a => pure (g a)) T s = .ok (g a, out, s') := by
  simp only [bind, pure, hy, List.append_nil]

namespace Follows

variable {x : Noted α} {y : Gen α} {P Q : α → Stage → List Held → List Lookup → Prop}

theorem bind {f : α → Noted β} {g : α → Gen β} {Q : β → Stage → List Held → List Lookup → Prop}
    (hx : Follows x y T s h P)
    (hf : ∀ a s1 h1 ls, P a s1 h1 ls → Follows (f a) (g a) T s1 h1 fun b s2 h2 more => Q b s2 h2 (ls ++ more)) :
    Follows (x >>= f) (y >>= g) T s h Q := by
  intro b out s' hrun
  obtain ⟨a, o, s1, o', h1, h2, rfl⟩ := Gen.bind_eq_ok hrun
  obtain ⟨held, ls, hx1, hp⟩ := hx a o s1 h1
  obtain ⟨held', more, hf2, hq⟩ := hf a s1 held ls hp b o' s' h2
  refine ⟨held', ls ++ more, ?_, hq⟩
  have hrest := run_return hf2 fun q => (q.1, q.2.1, ls ++ q.2.2)
  simp only [Bind.bind, hx1] at hrest ⊢
  rw [hrest]

theorem weaken (hx : Follows x y T s h P) (hq : ∀ a s' h' ls, P a s' h' ls → Q a s' h' ls) :
    Follows x y T s h Q := by
  intro a out s' hrun
  obtain ⟨held, ls, hx1, hp⟩ := hx a out s' hrun
  exact ⟨held, ls, hx1, hq a s' held ls hp⟩

theorem plain (hy : ∀ a out s', y T s = .ok (a, out, s') → Q a s' h []) : Follows (Noted.plain y) y T s h Q :=
  fun a out s' hrun => ⟨h, [], run_return hrun _, hy a out s' hrun⟩

theorem hold {y : Gen Unit} {f : List Held → List Held} {Q : Unit → Stage → List Held → List Lookup → Prop}
    (hy : ∀ out s', y T s = .ok ((), out, s') → Q () s' (f h) []) : Follows (Noted.hold y f) y T s h Q :=
  fun _ out s' hrun => ⟨f h, [], run_return hrun _, hy out s' hrun⟩

end Follows

end

end Noted

end Wacc.Arm
