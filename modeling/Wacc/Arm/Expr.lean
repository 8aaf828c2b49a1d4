/-
  Code for expressions.

  An expression is evaluated into the first register of a pool, using the others as needed.  Of two
  operands the one that needs more registers goes first; when the pool has one register left, an
  operand is pushed.
-/
import Wacc.Arm.Gen
import Wacc.Ast.Basic

namespace Wacc.Arm

mutual

/-- The number of registers that an expression needs to be evaluated without the stack. -/
def weight : Expr → Nat
  | .elem _ _ _ is => 1 + weightMax is
  | .unary _ _ _ e => weight e
  | .binary _ _ _ l r =>
    let a := weight l
    let b := weight r
    min (max (a + 1) b) (max a (b + 1))
  | _ => 1

def weightMax : List Expr → Nat
  | [] => 0
  | e :: es => max (weight e) (weightMax es)

end

namespace Gen

def conditions? : BinOp → Option (Cond × Cond)
  | .greater => some (.gt, .le)
  | .greaterEq => some (.ge, .lt)
  | .less => some (.lt, .ge)
  | .lessEq => some (.le, .gt)
  | .eq => some (.eq, .ne)
  | .notEq => some (.ne, .eq)
  | _ => none

def apply (op : BinOp) (d l r : Reg) : Gen Unit := do
  match op with
  | .add =>
    emit (.alu .adds d l (.reg r))
    callRoutine .vs .throwOverflow
  | .sub =>
    emit (.alu .subs d l (.reg r))
    callRoutine .vs .throwOverflow
  | .mul =>
    let hi := if r = d then l else r
    emit (.smull d hi l r)
    emit (.cmp hi (.asr d 31))
    callRoutine .ne .throwOverflow
  | .div =>
    copy .r0 l
    copy .r1 r
    callRoutine .always .checkDivideByZero
    callExtern .idiv
    copy d .r0
  | .mod =>
    copy .r0 l
    copy .r1 r
    callRoutine .always .checkDivideByZero
    callExtern .idivmod
    copy d .r1
  | .and => emit (.alu .and d l (.reg r))
  | .or => emit (.alu .orr d l (.reg r))
  | op =>
    match conditions? op with
    | none => fail (.badBinary op.render)
    | some (yes, no) =>
      emit (.cmp l (.reg r))
      emit (.mov yes d (.imm 1))
      emit (.mov no d (.imm 0))

def applyUnary (op : UnOp) (d : Reg) : Gen Unit := do
  match op with
  | .not => emit (.alu .eor d d (.imm 1))
  | .minus =>
    emit (.alu .rsbs d d (.imm 0))
    callRoutine .vs .throwOverflow
  | .len => emit (.load .word d (.offset d 0))
  | .ord | .chr => return
  | .unknown _ => fail (.badUnary op.render)

/-- Go from an array in `arr` to the address of the element with the index in `i`. -/
def step (arr i : Reg) (elem : Ty) : Gen Unit := do
  copy .r0 i
  copy .r1 arr
  callRoutine .always .checkArrayBounds
  emit (.alu .add arr arr (.imm 4))
  emit (.alu .add arr arr (if elem.size = 4 then .lsl i 2 else .reg i))

mutual

def expr : Expr → List Reg → Gen Unit
  | _, [] => fail .noRegister
  | .int _ n, d :: _ => emit (.number d n)
  | .bool _ b, d :: _ => emit (.mov .always d (.imm (if b then 1 else 0)))
  | .char _ c, d :: _ => emit (.mov .always d (.imm c.toNat))
  | .str _ s, d :: _ => do emit (.address .always d (← stringConst s))
  | .null _, d :: _ => emit (.number d 0)
  | .var id, d :: _ => loadVar d id.var
  | .elem _ t id is, d :: rest => do
    loadVar d id.var
    indices id.type 0 is d rest
    load d d 0 t
  | .unary _ _ op e, d :: rest => do
    expr e (d :: rest)
    applyUnary op d
  | .binary _ _ op l r, [d] => do
    expr r [d]
    pushReg d
    expr l [d]
    popReg scratch
    apply op d d scratch
  | .binary _ _ op l r, d :: e :: rest =>
    if weight r ≤ weight l then do
      expr l (d :: e :: rest)
      expr r (e :: rest)
      apply op d d e
    else do
      expr r (d :: e :: rest)
      expr l (e :: rest)
      apply op d e d

/-- Go from the array in `arr` to the address of an element, one index after the other, `done`
    indices being taken already; `rest` are further registers. -/
def indices (array : Ty) (done : Nat) : List Expr → Reg → List Reg → Gen Unit
  | [], _, _ => return
  | i :: is, arr, [] => do
    pushReg arr
    expr i [arr]
    copy scratch arr
    popReg arr
    step arr scratch (← lift (array.nested (done + 1).toUInt32))
    if !is.isEmpty then emit (.load .word arr (.offset arr 0))
    indices array (done + 1) is arr []
  | i :: is, arr, r :: rest => do
    expr i (r :: rest)
    step arr r (← lift (array.nested (done + 1).toUInt32))
    if !is.isEmpty then emit (.load .word arr (.offset arr 0))
    indices array (done + 1) is arr (r :: rest)

end

end Gen

end Wacc.Arm
