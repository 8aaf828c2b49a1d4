/-
  Expressions as computations on words.

  The value of an expression is what its operators make of the words of its variables, whatever these
  words stand for.  There is none where the program stops with an error.
-/
import Mathlib.Algebra.Order.Ring.Abs
import Mathlib.Algebra.Order.Ring.Int
import Mathlib.Tactic.NormNum
import Wacc.Proofs.Machine.Basic

namespace Wacc

open Arm

/-- What expressions are computed from. -/
structure View where
  var : VarId → Word
  const : Text → Word
  mem : Mem

def bit (b : Bool) : Word := if b then 1 else 0

namespace UnOp

def word (mem : Mem) (a : Word) : UnOp → Option Word
  | .not => some (a ^^^ 1)
  | .minus => if BitVec.ssubOverflow 0 a then none else some (0 - a)
  | .len => some (mem.load .word a)
  | .ord | .chr => some a
  | .unknown _ => none

end UnOp

namespace BinOp

def compare (a b : Word) : BinOp → Bool
  | .greater => b.slt a
  | .greaterEq => b.sle a
  | .less => a.slt b
  | .lessEq => a.sle b
  | .eq => a == b
  | .notEq => a != b
  | _ => false

def word (a b : Word) : BinOp → Option Word
  | .add => if BitVec.saddOverflow a b then none else some (a + b)
  | .sub => if BitVec.ssubOverflow a b then none else some (a - b)
  | .mul => if BitVec.smulOverflow a b then none else some (a * b)
  | .div => if b = 0 then none else some (a.sdiv b)
  | .mod => if b = 0 then none else some (a.srem b)
  | .and => some (a &&& b)
  | .or => some (a ||| b)
  | .unknown _ => none
  | op => some (bit (op.compare a b))

end BinOp

def Ty.stride (array : Ty) (n : Nat) : Nat :=
  match array.nested n.toUInt32 with
  | .ok t => t.size.toNat
  | .error _ => 0

/-- The address of the element with index `i` of the array at `a`, if there is one. -/
def View.step (V : View) (a i : Word) (size : Nat) : Option Word :=
  if i.msb || (V.mem.load .word a).ule i then none
  else some (a + 4 + if size = 4 then i <<< 2 else i)

mutual

def Expr.word (V : View) : Expr → Option Word
  | .int _ n => some (BitVec.ofInt 32 n)
  | .bool _ b => some (bit b)
  | .char _ c => some (BitVec.ofNat 32 c.toNat)
  | .str _ t => some (V.const t)
  | .null _ => some 0
  | .var id => some (V.var id.var)
  | .elem _ t id is => (Expr.place V id.type 0 is (V.var id.var)).map (V.mem.load (Gen.widthOf t))
  | .unary _ _ op e => (e.word V).bind fun a => op.word V.mem a
  | .binary _ _ op l r => (l.word V).bind fun a => (r.word V).bind fun b => op.word a b

/-- The address of an element of the array at `a`, of which `done` indices are taken already. -/
def Expr.place (V : View) (array : Ty) (done : Nat) : List Expr → Word → Option Word
  | [], a => some a
  | i :: is, a => (i.word V).bind fun w => (V.step a w (array.stride (done + 1))).bind fun a' =>
    Expr.place V array (done + 1) is (if is.isEmpty then a' else V.mem.load .word a')

end

mutual

def Expr.Safe (V : View) (floor limit : Nat) : Expr → Prop
  | .elem _ t id is => Expr.SafePlace V floor limit id.type 0 is (V.var id.var) ∧
    ∀ a, Expr.place V id.type 0 is (V.var id.var) = some a →
      Mem.Clear floor limit a (Gen.widthOf t).bytes
  | .unary _ _ op e => e.Safe V floor limit ∧
    (op = .len → ∀ a, e.word V = some a → Mem.Clear floor limit a 4)
  | .binary _ _ _ l r => l.Safe V floor limit ∧ r.Safe V floor limit
  | _ => True

def Expr.SafePlace (V : View) (floor limit : Nat) (array : Ty) (done : Nat) : List Expr → Word → Prop
  | [], _ => True
  | i :: is, a => i.Safe V floor limit ∧ Mem.Clear floor limit a 4 ∧ ∀ w a', i.word V = some w →
    V.step a w (array.stride (done + 1)) = some a' → (is ≠ [] → Mem.Clear floor limit a' 4) ∧
      Expr.SafePlace V floor limit array (done + 1) is (if is.isEmpty then a' else V.mem.load .word a')

end

namespace Arm

/-! ## Flags -/

variable (a b : Word)

theorem lt_ofSub : Cond.lt.holds (.ofSub a b) = a.slt b := by
  simp only [Cond.holds, Flags.ofSub]
  rw [BitVec.msb_eq_toInt, BitVec.toInt_sub, BitVec.ssubOverflow, BitVec.slt, Int.bmod]
  grind

theorem gt_ofSub : Cond.gt.holds (.ofSub a b) = b.slt a := by
  have hlt := lt_ofSub a b
  simp only [Cond.holds, Flags.ofSub] at hlt ⊢
  have hne : ((a - b).msb == a.ssubOverflow b) = !a.slt b := by rw [← hlt, bne, Bool.not_not]
  rw [hne, BitVec.slt, BitVec.slt, Bool.eq_iff_iff]
  have heq : a = b ↔ a.toInt = b.toInt := BitVec.toInt_inj.symm
  simp only [Bool.and_eq_true, Bool.not_eq_true', beq_eq_false_iff_ne, ne_eq, decide_eq_false_iff_not,
    decide_eq_true_eq, heq]
  omega

theorem holds_conditions {op : BinOp} {yes no : Cond} (h : Gen.conditions? op = some (yes, no)) :
    yes.holds (.ofSub a b) = op.compare a b ∧ no.holds (.ofSub a b) = !op.compare a b := by
  have hlt := lt_ofSub a b
  have hgt := gt_ofSub a b
  have hge : Cond.ge.holds (.ofSub a b) = !Cond.lt.holds (.ofSub a b) := by simp [Cond.holds, bne]
  have hle : Cond.le.holds (.ofSub a b) = !Cond.gt.holds (.ofSub a b) := by simp [Cond.holds, bne]
  have hsle : ∀ x y : Word, x.sle y = !y.slt x := by
    intro x y
    rw [Bool.eq_iff_iff, Bool.not_eq_true', ← Bool.not_eq_true, BitVec.sle_iff_toInt_le,
      BitVec.slt_iff_toInt_lt, not_lt]
  cases op with
  | greater | greaterEq | less | lessEq =>
    cases h
    simp only [BinOp.compare, hsle, hlt, hgt, hge, hle, Bool.not_not, and_self]
  | eq | notEq =>
    cases h
    simp only [BinOp.compare, Cond.holds, Flags.ofSub, bne, Bool.not_not, and_self]
  | _ => cases h

theorem product_fits :
    (BitVec.ofInt 32 (a.toInt * b.toInt / 2 ^ 32) == (BitVec.ofInt 32 (a.toInt * b.toInt)).sshiftRight 31) =
      !BitVec.smulOverflow a b := by
  have h1 := a.toInt_lt
  have h2 := a.le_toInt
  have h3 := b.toInt_lt
  have h4 := b.le_toInt
  have hproduct : |a.toInt * b.toInt| ≤ 2 ^ 31 * 2 ^ 31 := by
    rw [abs_mul]
    exact mul_le_mul (abs_le.2 ⟨h2, by omega⟩) (abs_le.2 ⟨h4, by omega⟩) (abs_nonneg _) (by norm_num)
  obtain ⟨hlow, hhigh⟩ := abs_le.1 hproduct
  rw [BitVec.smulOverflow, Bool.eq_iff_iff, beq_iff_eq, ← BitVec.toInt_inj, BitVec.toInt_sshiftRight,
    BitVec.toInt_ofInt, BitVec.toInt_ofInt]
  simp only [Int.bmod, Int.shiftRight_eq_div_pow, Bool.not_eq_true', Bool.or_eq_false_iff,
    decide_eq_false_iff_not]
  constructor
  · intro h
    split_ifs at h <;> omega
  · intro h
    split_ifs <;> omega

end Arm

end Wacc
