/-
  Code for statements.

  Every statement starts with all registers of the pool free and leaves the stack pointer where it
  was.
-/
import Wacc.Arm.Value

namespace Wacc.Arm.Gen

def result : Reg := .r4

def others : List Reg := pool.tail

def argument (e : Expr) : Gen Unit := do
  expr e pool
  copy .r0 result

def printer (t : Ty) : Routine :=
  match t with
  | .int => .printInt
  | .bool => .printBool
  | .char => .printChar
  | .string => .printString
  | t => if t.isCharArray then .printString else .printReference

def reader? (t : Ty) : Option Routine :=
  match t with
  | .int => some .readInt
  | .char => some .readChar
  | .string => some .readString
  | t => if t.isCharArray then some .readString else none

def jumpUnless (cond : Expr) (l : Label) : Gen Unit := do
  expr cond pool
  emit (.cmp result (.imm 0))
  emit (.branch .eq l)

def unwound (scope : ScopeId) : Gen Int := do
  let t ← table
  let blocks := (t.frameChain scope).filterMap fun id =>
    (t.scope? id).filter (·.kind == .block)
  return (blocks.foldr (fun s n => s.footprint.toNat + n) 0 : Nat)

/-- Return from a function: all blocks are given back at once.  What follows is generated for the
    depth before. -/
def ret (scope : ScopeId) (e : Expr) : Gen Unit := do
  argument e
  let n ← unwound scope
  let d := (← stage).depth
  if n ≠ d - 4 then fail (.unbalancedFrames n d)
  moveStack .add n
  emit (.pop [.pc])

mutual

def stat : Stat → Gen Unit
  | .skip _ => return
  | .seq _ ss => stats ss
  | .declare _ id _ _ v => do
    value v pool
    storeVar result id
  | .assign _ target v => do
    value v pool
    assign result target others
  | .read _ target => do
    match reader? target.type with
    | none => fail (.unreadable target.type.render)
    | some r =>
      address target pool
      copy .r0 result
      callRoutine .always r
  | .free _ e => do
    argument e
    if e.type.isPair then callRoutine .always .freePair else callExtern .free
  | .ret site e => ret site.scope e
  | .exit _ e => do
    argument e
    callExtern .exit
  | .print _ e newline => do
    argument e
    callRoutine .always (printer e.type)
    if newline then callRoutine .always .printLn
  | .block b => block b
  | .ifThen _ cond yes => do
    let stop ← newPlace
    jumpUnless cond stop
    block yes
    label stop
  | .ifElse _ cond yes no => do
    let stop ← newPlace
    let other ← newPlace
    jumpUnless cond other
    block yes
    emit (.branch .always stop)
    label other
    block no
    label stop
  | .while _ cond body => do
    let top ← newPlace
    let stop ← newPlace
    label top
    jumpUnless cond stop
    block body
    emit (.branch .always top)
    label stop
  | .for _ header init cond step body => do
    enter header
    stat init
    let top ← newPlace
    let stop ← newPlace
    label top
    jumpUnless cond stop
    block body
    stat step
    emit (.branch .always top)
    label stop
    leave header

def stats : List Stat → Gen Unit
  | [] => return
  | s :: ss => do
    stat s
    stats ss

def block : Block → Gen Unit
  | .mk _ inner body => do
    enter inner
    stat body
    leave inner

end

end Wacc.Arm.Gen
