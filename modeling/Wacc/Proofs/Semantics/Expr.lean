/-
  What expressions mean.

  Numbers are integers, and arithmetic that leaves the 32-bit range has no value.  Both operands of every
  operator are evaluated.  An array is known by its address; within one expression its elements do not
  change.
-/
import Wacc.Proofs.Machine.Words
import Wacc.Proofs.Typing.Expr

namespace Wacc

open Arm

/-- What a variable holds.  Strings and pairs are known by their address only. -/
inductive Datum where
  | int (n : Int)
  | bool (b : Bool)
  | char (n : Int)
  | ref (a : Word)
  | array (a : Word) (elems : List Datum)

namespace Datum

def checked (n : Int) : Option Datum := if Typing.fits n then some (.int n) else none

def address? : Datum → Option Word
  | .ref a | .array a _ => some a
  | _ => none

/-- Whether two values are the same; what has an address is the same at the same address. -/
def same : Datum → Datum → Bool
  | .int a, .int b | .char a, .char b => a == b
  | .bool a, .bool b => a == b
  | x, y => x.address? == y.address?

def ordered (f : Int → Int → Bool) : Datum → Datum → Option Datum
  | .int a, .int b | .char a, .char b => some (.bool (f a b))
  | _, _ => none

def elem? : Datum → Datum → Option Datum
  | .array _ xs, .int i => if 0 ≤ i then xs[i.toNat]? else none
  | _, _ => none

end Datum

def UnOp.eval : UnOp → Datum → Option Datum
  | .not, .bool b => some (.bool !b)
  | .minus, .int n => Datum.checked (-n)
  | .len, .array _ xs => some (.int xs.length)
  | .ord, .char n => some (.int n)
  | .chr, .int n => some (.char n)
  | _, _ => none

/-- Quotients are truncated.  The one quotient that does not fit in 32 bits wraps around. -/
def BinOp.eval : BinOp → Datum → Datum → Option Datum
  | .add, .int a, .int b => Datum.checked (a + b)
  | .sub, .int a, .int b => Datum.checked (a - b)
  | .mul, .int a, .int b => Datum.checked (a * b)
  | .div, .int a, .int b => if b = 0 then none else some (.int ((a.tdiv b).bmod (2 ^ 32)))
  | .mod, .int a, .int b => if b = 0 then none else some (.int (a.tmod b))
  | .and, .bool a, .bool b => some (.bool (a && b))
  | .or, .bool a, .bool b => some (.bool (a || b))
  | .greater, x, y => x.ordered (fun a b => b < a) y
  | .greaterEq, x, y => x.ordered (fun a b => b ≤ a) y
  | .less, x, y => x.ordered (fun a b => a < b) y
  | .lessEq, x, y => x.ordered (fun a b => a ≤ b) y
  | .eq, x, y => some (.bool (x.same y))
  | .notEq, x, y => some (.bool !(x.same y))
  | _, _, _ => none

/-- What expressions are evaluated with: the variables, and where the constants for strings are. -/
structure Env where
  var : VarId → Datum
  const : Text → Word

mutual

def Expr.eval (E : Env) : Expr → Option Datum
  | .int _ n => some (.int n)
  | .bool _ b => some (.bool b)
  | .char _ c => some (.char c.toNat)
  | .str _ t => some (.ref (E.const t))
  | .null _ => some (.ref 0)
  | .var id => some (E.var id.var)
  | .elem _ _ id is => Expr.element E is (E.var id.var)
  | .unary _ _ op e => (e.eval E).bind op.eval
  | .binary _ _ op l r => (l.eval E).bind fun a => (r.eval E).bind fun b => op.eval a b

def Expr.element (E : Env) : List Expr → Datum → Option Datum
  | [], x => some x
  | i :: is, x => (i.eval E).bind fun n => (x.elem? n).bind fun y => Expr.element E is y

end

/-! ## Values in registers and in memory -/

namespace Datum

def word : Datum → Word
  | .int n | .char n => BitVec.ofInt 32 n
  | .bool b => bit b
  | .ref a | .array a _ => a

/-- A value of a type.  In memory an array is its length, followed by its elements; calls leave these
    bytes alone. -/
inductive Has (m : Mem) (floor limit : Nat) : Ty → Datum → Prop
  | int {n} : Typing.fits n = true → Has m floor limit .int (.int n)
  | bool {b} : Has m floor limit .bool (.bool b)
  | char {n} : Typing.fits n = true → Has m floor limit .char (.char n)
  | string {a} : Has m floor limit .string (.ref a)
  | pair {s t a} : Has m floor limit (.pair s t) (.ref a)
  | anyPair {a} : Has m floor limit .anyPair (.ref a)
  | array {e t d a xs} : (Ty.array e d).peel = .ok t →
    xs.length < 2 ^ 31 → m.load .word a = BitVec.ofNat 32 xs.length →
    Mem.Clear floor limit a (4 + xs.length * t.size.toNat) →
    (∀ i x, xs[i]? = some x → m.load (Gen.widthOf t) (a + BitVec.ofNat 32 (4 + i * t.size.toNat)) = x.word) →
    (∀ x ∈ xs, Has m floor limit t x) → Has m floor limit (.array e d) (.array a xs)

end Datum

/-! ## Operators -/

section
variable {a b : Int}

theorem fits_iff : Typing.fits a = true ↔ -2 ^ 31 ≤ a ∧ a < 2 ^ 31 := by
  simp only [Typing.fits, Bool.and_eq_true, decide_eq_true_eq]
  omega

theorem toInt_ofInt (h : Typing.fits a = true) : (BitVec.ofInt 32 a).toInt = a := by
  obtain ⟨h1, h2⟩ := fits_iff.1 h
  rw [BitVec.toInt_ofInt]
  exact Int.bmod_eq_of_le (by omega) (by omega)

theorem fits_toInt (w : Word) : Typing.fits w.toInt = true :=
  fits_iff.2 ⟨w.le_toInt, w.toInt_lt⟩

theorem ofInt_eq_iff (ha : Typing.fits a = true) (hb : Typing.fits b = true) :
    BitVec.ofInt 32 a = BitVec.ofInt 32 b ↔ a = b := by
  rw [← BitVec.toInt_inj, toInt_ofInt ha, toInt_ofInt hb]

theorem overflow_eq (n : Int) : (decide (n ≥ 2 ^ (32 - 1)) || decide (n < -2 ^ (32 - 1))) = !Typing.fits n := by
  rw [Bool.eq_iff_iff, Bool.not_eq_true', ← Bool.not_eq_true, fits_iff]
  simp only [Bool.or_eq_true, decide_eq_true_eq]
  omega

theorem ofInt_eq_zero (ha : Typing.fits a = true) : BitVec.ofInt 32 a = 0 ↔ a = 0 := by
  rw [← ofInt_eq_iff (b := 0) ha (by decide)]
  rfl

theorem word_checked {n : Int} {overflow : Bool} {w : Word} (ho : overflow = !Typing.fits n)
    (hw : w = BitVec.ofInt 32 n) :
    (if overflow then none else some w) = (Datum.checked n).map Datum.word := by
  rw [ho, hw, Datum.checked]
  cases Typing.fits n <;> rfl

end

namespace Datum

variable {m : Mem} {floor limit : Nat} {x y z : Datum} {s t : Ty}

theorem checked_has {n : Int} (h : checked n = some z) : Has m floor limit .int z := by
  rw [checked] at h
  split_ifs at h with hn
  cases h
  exact .int hn

theorem Has.eq_int (h : Has m floor limit .int x) : ∃ n, x = .int n ∧ Typing.fits n = true := by
  cases h with
  | int hn => exact ⟨_, rfl, hn⟩

theorem Has.eq_bool (h : Has m floor limit .bool x) : ∃ b, x = .bool b := by
  cases h with
  | bool => exact ⟨_, rfl⟩

theorem Has.eq_char (h : Has m floor limit .char x) : ∃ n, x = .char n ∧ Typing.fits n = true := by
  cases h with
  | char hn => exact ⟨_, rfl, hn⟩

end Datum

namespace UnOp

variable {m : Mem} {floor limit : Nat} {x : Datum} {t : Ty} {op : UnOp} {rule : UnRule}

theorem word_eval (ho : op.rule? = some rule) (ht : rule.operand.accepts t = true)
    (hx : x.Has m floor limit t) : op.word m x.word = (op.eval x).map Datum.word ∧
      (∀ z, op.eval x = some z → z.Has m floor limit rule.result) ∧
      (op = .len → Mem.Clear floor limit x.word 4) := by
  cases op with
  | not =>
    cases ho
    cases t <;> cases ht
    obtain ⟨b, rfl⟩ := hx.eq_bool
    refine ⟨by cases b <;> rfl, ?_, nofun⟩
    rintro _ ⟨⟩
    exact .bool
  | minus =>
    cases ho
    cases t <;> cases ht
    obtain ⟨n, rfl, hn⟩ := hx.eq_int
    refine ⟨?_, fun z hz => Datum.checked_has hz, nofun⟩
    refine word_checked ?_ ?_
    · rw [BitVec.ssubOverflow, Datum.word, toInt_ofInt hn, ← overflow_eq]
      simp
    · rw [Datum.word, BitVec.ofInt_neg, zero_sub]
  | len =>
    cases ho
    cases hx with
    | @array e t d a xs hp hlen hload hclear hs hxs =>
      refine ⟨?_, ?_, fun _ => ⟨?_, ?_⟩⟩
      · simp only [word, eval, Datum.word, hload, Option.map_some, BitVec.ofInt_natCast]
      · rintro _ ⟨⟩
        exact .int (fits_iff.2 ⟨by omega, by omega⟩)
      · have := hclear.fits
        rw [Datum.word]
        omega
      · have := hclear.apart
        rw [Datum.word]
        omega
    | _ => cases ht
  | ord =>
    cases ho
    cases t <;> cases ht
    obtain ⟨n, rfl, hn⟩ := hx.eq_char
    refine ⟨rfl, ?_, nofun⟩
    rintro _ ⟨⟩
    exact .int hn
  | chr =>
    cases ho
    cases t <;> cases ht
    obtain ⟨n, rfl, hn⟩ := hx.eq_int
    refine ⟨rfl, ?_, nofun⟩
    rintro _ ⟨⟩
    exact .char hn
  | unknown => cases ho

end UnOp

/-- What a value is in a register, by its type. -/
inductive Shape where
  | int
  | bool
  | char
  | address
  deriving DecidableEq

def Ty.shape : Ty → Shape
  | .int => .int
  | .bool => .bool
  | .char => .char
  | _ => .address

theorem Ty.shape_of_accepts {s t : Ty} (h : s.accepts t = true) : s.shape = t.shape := by
  cases s <;> cases t <;> first | rfl | simp [Ty.accepts, Ty.isArray, Ty.isPair] at h

namespace BinOp

variable {m : Mem} {floor limit : Nat} {x y : Datum} {s t : Ty} {op : BinOp} {rule : BinRule}

theorem word_same (hx : x.Has m floor limit s) (hy : y.Has m floor limit t) (hst : s.shape = t.shape) :
    (x.word == y.word) = x.same y := by
  cases hx with
  | int ha =>
    cases hy with
    | int hb => rw [Bool.eq_iff_iff, beq_iff_eq, Datum.word, Datum.word, ofInt_eq_iff ha hb, Datum.same, beq_iff_eq]
    | _ => cases hst
  | char ha =>
    cases hy with
    | char hb => rw [Bool.eq_iff_iff, beq_iff_eq, Datum.word, Datum.word, ofInt_eq_iff ha hb, Datum.same, beq_iff_eq]
    | _ => cases hst
  | @bool a =>
    cases hy with
    | @bool b => cases a <;> cases b <;> rfl
    | _ => cases hst
  | _ =>
    cases hy with
    | int | bool | char => cases hst
    | _ => simp [Datum.same, Datum.word, Datum.address?]

theorem eq_ints (hx : x.Has m floor limit s) (hy : y.Has m floor limit t) (hs : Family.int.accepts s = true)
    (ht : Family.int.accepts t = true) :
    ∃ a b, x = .int a ∧ y = .int b ∧ Typing.fits a = true ∧ Typing.fits b = true := by
  cases s <;> cases hs
  cases t <;> cases ht
  obtain ⟨a, rfl, ha⟩ := hx.eq_int
  obtain ⟨b, rfl, hb⟩ := hy.eq_int
  exact ⟨a, b, rfl, rfl, ha, hb⟩

theorem eq_bools (hx : x.Has m floor limit s) (hy : y.Has m floor limit t) (hs : Family.bool.accepts s = true)
    (ht : Family.bool.accepts t = true) : ∃ a b, x = .bool a ∧ y = .bool b := by
  cases s <;> cases hs
  cases t <;> cases ht
  obtain ⟨a, rfl⟩ := hx.eq_bool
  obtain ⟨b, rfl⟩ := hy.eq_bool
  exact ⟨a, b, rfl, rfl⟩

theorem word_ordered {f : Int → Int → Bool} {c : Word → Word → Bool} (hc : ∀ v w, c v w = f v.toInt w.toInt)
    (hx : x.Has m floor limit s) (hy : y.Has m floor limit t) (hs : Family.intOrChar.accepts s = true)
    (hst : s.shape = t.shape) :
    some (bit (c x.word y.word)) = (x.ordered f y).map Datum.word ∧
      ∀ z, x.ordered f y = some z → z.Has m floor limit .bool := by
  cases hx with
  | int ha =>
    cases hy with
    | int hb =>
      refine ⟨by simp only [hc, Datum.word, toInt_ofInt ha, toInt_ofInt hb, Datum.ordered, Option.map_some], ?_⟩
      rintro _ ⟨⟩
      exact .bool
    | _ => cases hst
  | char ha =>
    cases hy with
    | char hb =>
      refine ⟨by simp only [hc, Datum.word, toInt_ofInt ha, toInt_ofInt hb, Datum.ordered, Option.map_some], ?_⟩
      rintro _ ⟨⟩
      exact .bool
    | _ => cases hst
  | _ => cases hs

theorem shape_of_sameType (h : s.accepts t = true ∨ t.accepts s = true) : s.shape = t.shape :=
  h.elim Ty.shape_of_accepts fun h => (Ty.shape_of_accepts h).symm

/-- **Operators on words do what they do on values.** -/
theorem word_eval (ho : op.rule? = some rule) (hst : rule.Fits s t) (hx : x.Has m floor limit s)
    (hy : y.Has m floor limit t) : op.word x.word y.word = (op.eval x y).map Datum.word ∧
      ∀ z, op.eval x y = some z → z.Has m floor limit rule.result := by
  obtain ⟨hs, ht, hsame⟩ := hst
  cases op with
  | add =>
    cases ho
    obtain ⟨a, b, rfl, rfl, ha, hb⟩ := eq_ints hx hy hs ht
    refine ⟨word_checked ?_ (BitVec.ofInt_add ..).symm, fun z hz => Datum.checked_has hz⟩
    rw [BitVec.saddOverflow, Datum.word, Datum.word, toInt_ofInt ha, toInt_ofInt hb, ← overflow_eq]
  | sub =>
    cases ho
    obtain ⟨a, b, rfl, rfl, ha, hb⟩ := eq_ints hx hy hs ht
    refine ⟨word_checked ?_ ?_, fun z hz => Datum.checked_has hz⟩
    · rw [BitVec.ssubOverflow, Datum.word, Datum.word, toInt_ofInt ha, toInt_ofInt hb, ← overflow_eq]
    · rw [Int.sub_eq_add_neg, BitVec.ofInt_add, BitVec.ofInt_neg, BitVec.sub_eq_add_neg]
      rfl
  | mul =>
    cases ho
    obtain ⟨a, b, rfl, rfl, ha, hb⟩ := eq_ints hx hy hs ht
    refine ⟨word_checked ?_ (BitVec.ofInt_mul ..).symm, fun z hz => Datum.checked_has hz⟩
    rw [BitVec.smulOverflow, Datum.word, Datum.word, toInt_ofInt ha, toInt_ofInt hb, ← overflow_eq]
  | div =>
    cases ho
    obtain ⟨a, b, rfl, rfl, ha, hb⟩ := eq_ints hx hy hs ht
    have hquot : (BitVec.ofInt 32 a).sdiv (BitVec.ofInt 32 b) = BitVec.ofInt 32 ((a.tdiv b).bmod (2 ^ 32)) := by
      rw [← BitVec.toInt_inj, BitVec.toInt_sdiv, toInt_ofInt ha, toInt_ofInt hb, BitVec.toInt_ofInt, Int.bmod_bmod]
    simp only [word, eval, Datum.word, ofInt_eq_zero hb, hquot]
    split_ifs
    · exact ⟨rfl, nofun⟩
    · refine ⟨rfl, ?_⟩
      rintro _ ⟨⟩
      refine .int ?_
      rw [← BitVec.toInt_ofInt]
      exact fits_toInt _
  | mod =>
    cases ho
    obtain ⟨a, b, rfl, rfl, ha, hb⟩ := eq_ints hx hy hs ht
    have hrem : ((BitVec.ofInt 32 a).srem (BitVec.ofInt 32 b)).toInt = a.tmod b := by
      rw [BitVec.toInt_srem, toInt_ofInt ha, toInt_ofInt hb]
    have hword : (BitVec.ofInt 32 a).srem (BitVec.ofInt 32 b) = BitVec.ofInt 32 (a.tmod b) := by
      rw [← hrem, BitVec.ofInt_toInt]
    simp only [word, eval, Datum.word, ofInt_eq_zero hb, hword]
    split_ifs
    · exact ⟨rfl, nofun⟩
    · refine ⟨rfl, ?_⟩
      rintro _ ⟨⟩
      refine .int ?_
      rw [← hrem]
      exact fits_toInt _
  | and | or =>
    cases ho
    obtain ⟨a, b, rfl, rfl⟩ := eq_bools hx hy hs ht
    refine ⟨by cases a <;> cases b <;> rfl, ?_⟩
    rintro _ ⟨⟩
    exact .bool
  | eq =>
    cases ho
    refine ⟨?_, by rintro _ ⟨⟩; exact .bool⟩
    show some (bit (x.word == y.word)) = some (bit (x.same y))
    rw [word_same hx hy (shape_of_sameType (hsame rfl))]
  | notEq =>
    cases ho
    refine ⟨?_, by rintro _ ⟨⟩; exact .bool⟩
    show some (bit !(x.word == y.word)) = some (bit !(x.same y))
    rw [word_same hx hy (shape_of_sameType (hsame rfl))]
  | greater =>
    cases ho
    exact word_ordered (c := fun v w => w.slt v) (fun _ _ => rfl) hx hy hs (shape_of_sameType (hsame rfl))
  | greaterEq =>
    cases ho
    exact word_ordered (c := fun v w => w.sle v) (fun _ _ => rfl) hx hy hs (shape_of_sameType (hsame rfl))
  | less =>
    cases ho
    exact word_ordered (c := fun v w => v.slt w) (fun _ _ => rfl) hx hy hs (shape_of_sameType (hsame rfl))
  | lessEq =>
    cases ho
    exact word_ordered (c := fun v w => v.sle w) (fun _ _ => rfl) hx hy hs (shape_of_sameType (hsame rfl))
  | unknown => cases ho

end BinOp

/-! ## Elements of arrays -/

theorem Ty.size_eq (t : Ty) : t.size.toNat = 1 ∨ t.size.toNat = 4 := by
  cases t <;> first | exact .inl rfl | exact .inr rfl

theorem Ty.bytes_widthOf (t : Ty) : (Gen.widthOf t).bytes = t.size.toNat := by cases t <;> rfl

theorem Arm.Mem.Clear.sub {floor limit n k l : Nat} {a : Word} (h : Mem.Clear floor limit a n) (hk : k + l ≤ n)
    (hl : 0 < l) : Mem.Clear floor limit (a + BitVec.ofNat 32 k) l := by
  have hfits := h.fits
  have hto : (a + BitVec.ofNat 32 k).toNat = a.toNat + k := by
    rw [BitVec.toNat_add, BitVec.toNat_ofNat]
    omega
  have hapart := h.apart
  exact ⟨by omega, by omega⟩

section
variable {V : View} {floor limit : Nat} {e t : Ty} {d : UInt32} {a : Word} {xs : List Datum} {j : Int} {y : Datum}

theorem step_word (hx : (Datum.array a xs).Has V.mem floor limit (.array e d)) (ht : (Ty.array e d).peel = .ok t)
    (hj : Typing.fits j = true) :
    V.step a (BitVec.ofInt 32 j) t.size.toNat =
        ((Datum.array a xs).elem? (.int j)).map fun _ => a + BitVec.ofNat 32 (4 + j.toNat * t.size.toNat) := by
  cases hx with
  | array hp hlen hload hclear hs hxs =>
    cases ht.symm.trans hp
    obtain ⟨-, hlt⟩ := fits_iff.1 hj
    have hmsb : (BitVec.ofInt 32 j).msb = decide (j < 0) := by rw [BitVec.msb_eq_toInt, toInt_ofInt hj]
    rw [View.step, hload, hmsb, Datum.elem?]
    by_cases h0 : 0 ≤ j
    · obtain ⟨n, rfl⟩ := Int.eq_ofNat_of_zero_le h0
      have hule : (BitVec.ofNat 32 xs.length).ule (BitVec.ofInt 32 n) = decide (xs.length ≤ n) := by
        rw [BitVec.ule, BitVec.ofInt_natCast, BitVec.toNat_ofNat, BitVec.toNat_ofNat, Nat.mod_eq_of_lt (by omega),
          Nat.mod_eq_of_lt (by omega)]
      have hshift : a + 4 + (if t.size.toNat = 4 then BitVec.ofInt 32 (n : Int) <<< 2 else BitVec.ofInt 32 n) =
          a + BitVec.ofNat 32 (4 + n * t.size.toNat) := by
        rw [BitVec.add_assoc, BitVec.ofNat_add, BitVec.ofInt_natCast]
        congr 2
        rcases t.size_eq with h | h
        · rw [h, if_neg (by decide), Nat.mul_one]
        · rw [h, if_pos rfl]
          apply BitVec.eq_of_toNat_eq
          simp [BitVec.toNat_shiftLeft, Nat.shiftLeft_eq]
      rw [hule, hshift, if_pos h0, Int.toNat_natCast]
      by_cases hn : n < xs.length
      · simp [hn]
      · simp [hn, not_lt.1 hn]
    · simp [h0, not_le.1 h0]

theorem elem_word (hx : (Datum.array a xs).Has V.mem floor limit (.array e d)) (ht : (Ty.array e d).peel = .ok t)
    (hy : (Datum.array a xs).elem? (.int j) = some y) :
    V.mem.load (Gen.widthOf t) (a + BitVec.ofNat 32 (4 + j.toNat * t.size.toNat)) = y.word ∧
      Mem.Clear floor limit (a + BitVec.ofNat 32 (4 + j.toNat * t.size.toNat)) t.size.toNat ∧
      y.Has V.mem floor limit t := by
  cases hx with
  | array hp hlen hload hclear hs hxs =>
    cases ht.symm.trans hp
    rw [Datum.elem?] at hy
    split_ifs at hy with h0
    obtain ⟨hlt, -⟩ := List.getElem?_eq_some_iff.1 hy
    have hpos : 0 < t.size.toNat := by rcases t.size_eq with h | h <;> omega
    have hinside : 4 + j.toNat * t.size.toNat + t.size.toNat ≤ 4 + xs.length * t.size.toNat := by
      have := Nat.mul_le_mul_right t.size.toNat hlt
      rw [Nat.succ_mul] at this
      omega
    exact ⟨hs _ _ hy, hclear.sub hinside hpos, hxs y (List.mem_of_getElem? hy)⟩

end

theorem Ty.peel_nested {e t : Ty} {d : UInt32} {n : Nat} (hn : n + 1 ≤ d.toNat)
    (ht : (Ty.array e d).nested n.toUInt32 = .ok t) :
    ∃ k, t = .array e k ∧ t.peel = (Ty.array e d).nested (n + 1).toUInt32 := by
  have hd := d.toNat_lt
  have hn0 : n.toUInt32.toNat = n := UInt32.toNat_ofNat_of_lt' (show n < 2 ^ 32 by omega)
  have hn1 : (n + 1).toUInt32.toNat = n + 1 := Table.toNat_number (by omega)
  have hne : (n + 1).toUInt32 ≠ 0 := fun h => by rw [h] at hn1; simp at hn1
  have hle : ¬ d < (n + 1).toUInt32 := by rw [UInt32.lt_iff_toNat_lt]; omega
  have hlast : (n + 1).toUInt32 = d ↔ n + 1 = d.toNat := by rw [← UInt32.toNat_inj, hn1]
  have hnext : (Ty.array e d).nested (n + 1).toUInt32 =
      if n + 1 = d.toNat then .ok e else .ok (.array e (d - (n + 1).toUInt32)) := by
    simp only [nested, if_neg hne, if_neg hle, hlast]
  have hdims : ∃ k, t = .array e k ∧ k.toNat = d.toNat - n := by
    rw [nested] at ht
    split_ifs at ht with h0 hlt hlast
    · cases ht
      rw [← UInt32.toNat_inj, hn0] at h0
      exact ⟨d, rfl, by simp at h0; omega⟩
    · rw [← UInt32.toNat_inj] at hlast
      omega
    · cases ht
      exact ⟨d - n.toUInt32, rfl, by rw [UInt32.toNat_sub_of_le _ _ (UInt32.le_iff_toNat_le.2 (by omega)), hn0]⟩
  obtain ⟨k, rfl, hk⟩ := hdims
  refine ⟨k, rfl, ?_⟩
  have hone : k = 1 ↔ n + 1 = d.toNat := by
    rw [← UInt32.toNat_inj, hk]
    simp only [UInt32.toNat_one]
    omega
  rw [hnext, peel]
  simp only [hone]
  split_ifs with h
  · rfl
  · congr 2
    rw [← UInt32.toNat_inj, UInt32.toNat_sub_of_le _ _ (UInt32.le_iff_toNat_le.2 (by rw [UInt32.toNat_one]; omega)),
      UInt32.toNat_sub_of_le _ _ (UInt32.le_iff_toNat_le.2 (by omega)), hk, hn1, UInt32.toNat_one]
    omega

/-! ## Expressions -/

section
variable (V : View) (E : Env) (floor limit : Nat)

/-- The word of the expression is that of its value, only bytes that calls leave alone are read, and the
    value is one of its type. -/
structure Expr.Agrees (e : Expr) : Prop where
  word : e.word V = (e.eval E).map Datum.word
  safe : e.Safe V floor limit
  has : ∀ z, e.eval E = some z → z.Has V.mem floor limit e.type

/-- The words of variables are those of their values. -/
structure View.Shows (T : Table) (xs : List VarId) : Prop where
  const : V.const = E.const
  has : ∀ x ∈ xs, ∀ v, T.var? x = some v → (E.var x).Has V.mem floor limit v.type
  word : ∀ x ∈ xs, V.var x = (E.var x).word

end

section
variable {V : View} {E : Env} {floor limit : Nat} {T : Table} {sc : ScopeId} {xs ys : List VarId}

theorem View.Shows.mono (h : V.Shows E floor limit T xs) (hys : ∀ y ∈ ys, y ∈ xs) : V.Shows E floor limit T ys :=
  ⟨h.const, fun y hy => h.has y (hys y hy), fun y hy => h.word y (hys y hy)⟩

theorem place_agrees {array e t u : Ty} {d : UInt32} (harray : array = .array e d) {is : List Expr} {done : Nat}
    {x : Datum} (his : ∀ i ∈ is, i.Agrees V E floor limit) (hints : ∀ i ∈ is, i.type = .int) (hne : is ≠ [])
    (hlen : done + is.length ≤ d.toNat) (hu : array.nested done.toUInt32 = .ok u)
    (hx : x.Has V.mem floor limit u) (ht : array.nested (done + is.length).toUInt32 = .ok t) :
    (Expr.place V array done is x.word).map (V.mem.load (Gen.widthOf t)) =
        (Expr.element E is x).map Datum.word ∧
      Expr.SafePlace V floor limit array done is x.word ∧
      (∀ a, Expr.place V array done is x.word = some a → Mem.Clear floor limit a t.size.toNat) ∧
      ∀ z, Expr.element E is x = some z → z.Has V.mem floor limit t := by
  induction is generalizing done x u with
  | nil => exact absurd rfl hne
  | cons i is ih =>
    obtain ⟨hi, his⟩ := List.forall_mem_cons.1 his
    obtain ⟨hint, hints⟩ := List.forall_mem_cons.1 hints
    simp only [List.length_cons] at hlen ht
    subst harray
    obtain ⟨k, rfl, hpeel⟩ := Ty.peel_nested (by omega) hu
    obtain ⟨u', hu'⟩ := Typing.nested_ok (e := e) (d := d) (n := (done + 1).toUInt32)
      (UInt32.le_iff_toNat_le.2 (by rw [Table.toNat_number (by have := d.toNat_lt; omega)]; omega))
    rw [hu'] at hpeel
    obtain ⟨a, xs, rfl⟩ : ∃ a xs, x = .array a xs := by cases hx; exact ⟨_, _, rfl⟩
    have hstride : (Ty.array e d).stride (done + 1) = u'.size.toNat := by rw [Ty.stride, hu']
    have hclear : Mem.Clear floor limit a 4 := by
      cases hx with
      | array _ _ _ hc _ _ => exact ⟨by have := hc.fits; omega, by have := hc.apart; omega⟩
    have ha : (Datum.array a xs).word = a := rfl
    rw [ha, Expr.place, Expr.element, Expr.SafePlace, hi.word, hstride]
    cases hv : i.eval E with
    | none => exact ⟨rfl, ⟨hi.safe, hclear, nofun⟩, nofun, nofun⟩
    | some n =>
      have hn := hi.has n hv
      rw [hint] at hn
      obtain ⟨j, rfl, hj⟩ := hn.eq_int
      have hstep := step_word hx hpeel hj
      simp only [Option.map_some, Option.bind_some]
      rw [show (Datum.int j).word = BitVec.ofInt 32 j from rfl, hstep]
      cases hy : (Datum.array a xs).elem? (.int j) with
      | none =>
        refine ⟨rfl, ⟨hi.safe, hclear, ?_⟩, nofun, nofun⟩
        rintro _ a' ⟨⟩ ha'
        rw [hstep, hy] at ha'
        cases ha'
      | some y =>
        obtain ⟨hload, hclear', hy'⟩ := elem_word hx hpeel hy
        set a' := a + BitVec.ofNat 32 (4 + j.toNat * u'.size.toNat) with ha'
        -- the safety of the first step does not depend on what follows
        have hsafe : ∀ {P : Word → Prop}, P a' → ∀ w b, some (BitVec.ofInt 32 j) = some w →
            V.step a w u'.size.toNat = some b → P b := by
          rintro P hP _ b ⟨⟩ hb
          rw [hstep, hy] at hb
          cases hb
          exact hP
        simp only [Option.map_some, Option.bind_some]
        cases is with
        | nil =>
          cases hu'.symm.trans ht
          simp only [List.isEmpty_nil, if_true]
          rw [Expr.place, Expr.element]
          refine ⟨congrArg some hload, ⟨hi.safe, hclear, hsafe ⟨nofun, trivial⟩⟩, ?_, ?_⟩
          · rintro _ ⟨⟩
            exact hclear'
          · rintro _ ⟨⟩
            exact hy'
        | cons i' is =>
          have hlen' : done + 1 + (i' :: is).length ≤ d.toNat := by omega
          obtain ⟨k', rfl, -⟩ := Ty.peel_nested (n := done + 1) (by simp only [List.length_cons] at hlen'; omega) hu'
          have hnext := ih his hints nofun hlen' hu' hy' (by rw [← ht]; congr 2; omega)
          have hword : V.mem.load .word a' = y.word := hload
          simp only [List.isEmpty_cons, Bool.false_eq_true, if_false]
          rw [hword]
          obtain ⟨hmap, hsafe', hclear'', hhas⟩ := hnext
          refine ⟨hmap, ⟨hi.safe, hclear, hsafe ⟨fun _ => hclear', ?_⟩⟩, hclear'', hhas⟩
          rw [hword]
          exact hsafe'

/-- **The word of a well-typed expression is that of its value.** -/
theorem Expr.Typed.agrees {e : Expr} (he : e.Typed T sc) (hV : V.Shows E floor limit T e.vars) :
    e.Agrees V E floor limit := by
  induction he with
  | int hn => exact ⟨rfl, trivial, by rintro _ ⟨⟩; exact .int hn⟩
  | bool => exact ⟨rfl, trivial, by rintro _ ⟨⟩; exact .bool⟩
  | @char span c =>
    refine ⟨?_, trivial, ?_⟩
    · simp only [Expr.word, Expr.eval, Option.map_some, Datum.word, BitVec.ofInt_natCast]
    · rintro _ ⟨⟩
      exact .char (fits_iff.2 ⟨by omega, by have := c.toNat_lt; omega⟩)
  | str =>
    refine ⟨?_, trivial, by rintro _ ⟨⟩; exact .string⟩
    simp only [Expr.word, Expr.eval, Option.map_some, Datum.word, hV.const]
  | null => exact ⟨rfl, trivial, by rintro _ ⟨⟩; exact .anyPair⟩
  | @var id hid =>
    obtain ⟨v, hv, htype, -⟩ := hid
    refine ⟨?_, trivial, ?_⟩
    · simp only [Expr.word, Expr.eval, Option.map_some, hV.word id.var (by simp [Expr.vars])]
    · rintro _ ⟨⟩
      rw [Expr.type, ← htype]
      exact hV.has id.var (by simp [Expr.vars]) v hv
  | @elem span t id is hid hx _ hints ih =>
    obtain ⟨v, hv, htype, -⟩ := hid
    obtain ⟨hpos, e, d, harray, hlen, ht⟩ := hx
    have his : ∀ i ∈ is, i.Agrees V E floor limit := fun i hi => ih i hi (hV.mono fun x hx => by
      rw [Expr.vars]; exact List.mem_cons_of_mem _ (Expr.vars_subset hi hx))
    have hhas : (E.var id.var).Has V.mem floor limit id.type := by
      rw [← htype]
      exact hV.has id.var (by simp [Expr.vars]) v hv
    have hstart : id.type.nested (0 : Nat).toUInt32 = .ok (.array e d) := by
      rw [harray]
      rfl
    obtain ⟨hmap, hsafe, hclear, hz⟩ := place_agrees harray his hints (List.ne_nil_of_length_pos hpos)
      (by omega) hstart (harray ▸ hhas) (by rw [Nat.zero_add]; exact ht)
    rw [← hV.word id.var (by simp [Expr.vars])] at hmap hsafe hclear
    refine ⟨?_, ⟨hsafe, fun a ha => ?_⟩, fun z hz' => hz z hz'⟩
    · rw [Expr.word, Expr.eval]
      exact hmap
    · rw [Ty.bytes_widthOf]
      exact hclear a ha
  | @unary span op rule e ho _ ht ih =>
    have hagree := ih hV
    have hop := fun x hx => UnOp.word_eval ho ht (hagree.has x hx)
    refine ⟨?_, ⟨hagree.safe, ?_⟩, ?_⟩
    · rw [Expr.word, Expr.eval, hagree.word]
      cases hx : e.eval E with
      | none => rfl
      | some x => exact (hop x hx).1
    · rintro hlen _ ha
      rw [hagree.word] at ha
      obtain ⟨x, hx, rfl⟩ := Option.map_eq_some_iff.1 ha
      exact (hop x hx).2.2 hlen
    · intro z hz
      obtain ⟨x, hx, hz⟩ := Option.bind_eq_some_iff.1 hz
      exact (hop x hx).2.1 z hz
  | @binary span op rule l r ho _ _ hfits ihl ihr =>
    have hl := ihl (hV.mono fun x hx => by rw [Expr.vars]; exact List.mem_append_left _ hx)
    have hr := ihr (hV.mono fun x hx => by rw [Expr.vars]; exact List.mem_append_right _ hx)
    have hop := fun x y hx hy => BinOp.word_eval ho hfits (hl.has x hx) (hr.has y hy)
    refine ⟨?_, ⟨hl.safe, hr.safe⟩, ?_⟩
    · rw [Expr.word, Expr.eval, hl.word, hr.word]
      cases hx : l.eval E with
      | none => rfl
      | some x =>
        cases hy : r.eval E with
        | none => rfl
        | some y => exact (hop x y hx hy).1
    · intro z hz
      obtain ⟨x, hx, hz⟩ := Option.bind_eq_some_iff.1 hz
      obtain ⟨y, hy, hz⟩ := Option.bind_eq_some_iff.1 hz
      exact (hop x y hx hy).2 z hz

end

end Wacc
