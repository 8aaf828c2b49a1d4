/-
  Code for places and for values that are stored.

  Arrays and pairs live on the heap.  An array is its length followed by the elements, a pair two
  words.
-/
import Wacc.Arm.Expr

namespace Wacc.Arm.Gen

def slotSize : Nat := 4

def elemAddress (array : Ident) (is : List Expr) (d : Reg) (rest : List Reg) : Gen Unit := do
  loadVar d array.var
  indices array.type 0 is d rest

/-- The address of a place, in the first register of a pool.  The pointers to pairs on the way are
    checked. -/
def address : Target → List Reg → Gen Unit
  | _, [] => fail .noRegister
  | .var id, d :: _ => addressOf d id.var
  | .elem _ _ id is, d :: rest => elemAddress id is d rest
  | .slot _ _ snd pair, d :: rest => do
    match pair with
    | .var id => loadVar d id.var
    | p =>
      address p (d :: rest)
      load d d 0 p.type
    copy .r0 d
    callRoutine .always .checkNullPointer
    if snd then emit (.alu .add d d (.imm slotSize))

/-- Store a register to a place, whose address is computed in a pool. -/
def assign (value : Reg) : Target → List Reg → Gen Unit
  | _, [] => fail .noRegister
  | .var id, _ => storeVar value id.var
  | target, d :: rest => do
    address target (d :: rest)
    store value d 0 target.type

def malloc (d : Reg) (size : Nat) : Gen Unit := do
  emit (.number .r0 size)
  callExtern .malloc
  copy d .r0

/-- The bytes of one element of a literal.  A literal without elements has none. -/
def elemSize : Ty → Gen Nat
  | .array e n => do return (← lift (Ty.array e n).peel).size.toNat
  | _ => return 0

def args (d : Reg) (rest : List Reg) : List Expr → Gen Unit
  | [] => return
  | e :: es => do
    expr e (d :: rest)
    pushValue d e.type
    args d rest es

/-- Call a function.  The padding lies above the arguments, so that the parameters are next to the
    stack pointer, which is aligned at the call. -/
def callFunc (name : Text) (es : List Expr) (d : Reg) (rest : List Reg) : Gen Unit := do
  let size : Nat := es.foldr (fun e n => e.type.size.toNat + n) 0
  let pad := padding ((← stage).depth + size)
  grow pad
  args d rest es
  emit (.call .always (.label (.func name)))
  shrink (pad + size)
  copy d .r0

mutual

def value : Value → List Reg → Gen Unit
  | .expr e, pool => expr e pool
  | .array _ t vs, arr :: tmp :: rest => do
    let size ← elemSize t
    malloc arr (4 + vs.length * size)
    elements size 0 vs arr tmp rest
    emit (.number tmp vs.length)
    emit (.store .word tmp (.offset arr 0))
  | .array _ _ _, _ => fail .arrayRegisters
  | .newPair _ a b, cell :: tmp :: rest => do
    malloc cell (2 * slotSize)
    expr a (tmp :: rest)
    store tmp cell 0 a.type
    expr b (tmp :: rest)
    store tmp cell slotSize b.type
  | .newPair _ _ _, _ => fail .pairRegisters
  | .slot s t snd pair, d :: rest => do
    address (.slot s t snd pair) (d :: rest)
    load d d 0 t
  | .call _ _ _ name es, d :: rest => callFunc name es d rest
  | _, [] => fail .noRegister

/-- Evaluate the elements of a literal from number `i` on into `tmp` and store each in the array at
    `arr`.  A literal inside a literal needs two registers; with none but `tmp` left it takes those
    of the array, whose address is pushed. -/
def elements (size i : Nat) : List Value → Reg → Reg → List Reg → Gen Unit
  | [], _, _, _ => return
  | v :: vs, arr, tmp, rest => do
    match v, rest with
    | .array _ _ _, [] =>
      pushReg arr
      value v [arr, tmp]
      copy tmp arr
      popReg arr
    | _, _ => value v (tmp :: rest)
    store tmp arr (4 + i * size : Nat) v.type
    elements size (i + 1) vs arr tmp rest

end

end Wacc.Arm.Gen
