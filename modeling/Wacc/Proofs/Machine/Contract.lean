/-
  The contract of expression code.
-/
import Wacc.Proofs.Machine.Expr
import Wacc.Proofs.Semantics.Expr

namespace Wacc.Arm

namespace Context

variable {C : Context} {T : Table} {s : Stage} {E : Env} {xs : List VarId} {k : Core}

/-- The stack holds the values of the variables `xs`, each in its slot. -/
structure Represents (C : Context) (T : Table) (s : Stage) (E : Env) (xs : List VarId) (k : Core) : Prop where
  const : E.const = C.const
  vars : ∀ x ∈ xs, ∀ v off, T.var? x = some v → Gen.slot x T s = .ok ((off, v.type), [], s) →
    (k.sp : Int) + off + v.type.size.toNat ≤ 2 ^ 32 ∧
    k.mem.load (Gen.widthOf v.type) (k.reg .sp + BitVec.ofInt 32 off) = (E.var x).word ∧
    (E.var x).Has k.mem C.floor k.sp v.type

def view (C : Context) (E : Env) (k : Core) : View := ⟨fun x => (E.var x).word, C.const, k.mem⟩

namespace Represents

theorem start {room : Nat} (h : C.Represents T s E xs k) (hv : ∀ x ∈ xs, Gen.HasSlot T s x)
    (hk : C.Ready s.depth room k) : C.Start T s xs room (C.view E k) k.sp k := by
  refine ⟨rfl, fun x hx v base hxv hb => ?_, hk, le_rfl, fun _ _ => rfl⟩
  obtain ⟨v', base', hv', hb', h0⟩ := hv x hx
  cases hxv.symm.trans hv'
  cases hb.symm.trans hb'
  obtain ⟨hfits, hload, -⟩ := h.vars x hx v _ hxv (Gen.slot_eq hxv hb h0)
  rw [← slot_eq hk.depth, Ty.bytes_widthOf]
  obtain ⟨n, hn⟩ := Int.eq_ofNat_of_zero_le h0
  rw [hn] at hfits hload ⊢
  have hpos : 0 < v.type.size.toNat := by rcases v.type.size_eq with h | h <;> omega
  have hto : (k.reg .sp + BitVec.ofInt 32 (n : Int)).toNat = k.sp + n := by
    rw [BitVec.ofInt_natCast, BitVec.toNat_add, BitVec.toNat_ofNat, Core.sp]
    simp only [Core.sp] at hfits
    omega
  exact ⟨hload.symm, by rw [hto]; omega, by rw [hto]; omega⟩

theorem shows (h : C.Represents T s E xs k) (hv : ∀ x ∈ xs, Gen.HasSlot T s x) :
    (C.view E k).Shows E C.floor k.sp T xs := by
  refine ⟨h.const.symm, fun x hx v hxv => ?_, fun _ _ => rfl⟩
  obtain ⟨v', base, hv', hb, h0⟩ := hv x hx
  cases hxv.symm.trans hv'
  exact (h.vars x hx v _ hxv (Gen.slot_eq hxv hb h0)).2.2

end Represents

end Context

/-! ## A machine -/

def Image.ofCode (code : List Line) (const : Nat → Word) (h : code.length < 2 ^ 30) : Image where
  code := code
  place n := BitVec.ofNat 32 (4 * n)
  position a := if a.toNat % 4 = 0 then some (a.toNat / 4) else none
  position_place n hn := by
    have hto : (BitVec.ofNat 32 (4 * n)).toNat = 4 * n := by
      rw [BitVec.toNat_ofNat]
      omega
    rw [hto, Nat.mul_mod_right, if_pos rfl, Nat.mul_div_cancel_left n (by decide)]
  const := const

def Library.arithmetic : Library
  | .idiv, k => k.set .r0 ((k.reg .r0).sdiv (k.reg .r1))
  | .idivmod, k => k.set .r1 ((k.reg .r0).srem (k.reg .r1))
  | _, k => k

theorem Library.arithmetic_lawful : Library.arithmetic.Lawful 0 where
  regs e k _ r hr := by
    have h0 : r ≠ .r0 := fun h => hr (by rw [h]; decide)
    have h1 : r ≠ .r1 := fun h => hr (by rw [h]; decide)
    cases e <;> first | rfl | (simp only [arithmetic, Core.set_reg, if_neg h0, if_neg h1])
  above e k _ a _ := by cases e <;> rfl
  below e k _ _ a _ := by cases e <;> rfl
  idiv k _ _ := by simp [arithmetic]
  idivmod k _ _ := by simp [arithmetic]

namespace Routine

def all : List Routine :=
  [throwOverflow, checkDivideByZero, checkArrayBounds, checkNullPointer, throwRuntime, printString, printInt,
    printBool, printChar, printReference, printLn, readInt, readChar, readString, freePair]

def block (r : Routine) : List Line := .label (.routine r) :: (r.body 0).map .instr

def library : List Line := all.flatMap block

def place (r : Routine) : Nat := (library.findIdx? (· == .label (.routine r))).getD 0

theorem findIdx_library (r : Routine) : library.findIdx? (· == .label (.routine r)) = some r.place := by
  cases r <;> decide +kernel

theorem block_starts (r : Routine) : r.block <+: library.drop r.place := by
  cases r <;> decide +kernel

end Routine

theorem Image.provides_library {code : List Line} {const : Nat → Word} {lib : Library}
    (h : (Routine.library ++ code).length < 2 ^ 30) (r : Routine) :
    System.Provides ⟨.ofCode (Routine.library ++ code) const h, lib⟩ r := by
  refine ⟨r.place, 0, ?_, fun i l hl => ?_⟩
  · show (Routine.library ++ code).findIdx? _ = _
    rw [List.findIdx?_append, r.findIdx_library]
    rfl
  · show (Routine.library ++ code)[r.place + i]? = some l
    obtain ⟨rest, hrest⟩ := r.block_starts
    have hi : i < r.block.length := (List.getElem?_eq_some_iff.1 hl).1
    have hlib : Routine.library[r.place + i]? = some l := by
      rw [← List.getElem?_drop, ← hrest, List.getElem?_append_left hi]
      exact hl
    rw [List.getElem?_append_left (List.getElem?_eq_some_iff.1 hlib).1]
    exact hlib

namespace Squares

def table : Table where
  scopes := #[{ kind := .global, parent := 0, span := {}, footprint := 8 }]
  vars := #[{ name := lit "a", type := .array .int 1, scope := 1, offset := 4, span := {} },
    { name := lit "i", type := .int, scope := 1, offset := 8, span := {} }]

def stage : Stage := { depth := 12, entry := [(1, 4)] }

def a : Ident := ⟨{}, .array .int 1, lit "a", 1⟩

def i : Ident := ⟨{}, .int, lit "i", 2⟩

def term : Expr :=
  .binary {} .int .mul (.elem {} .int a [.var i])
    (.binary {} .int .sub (.elem {} .int a [.var i]) (.var i))

def code : List Line :=
  match Gen.expr term [.r4] table stage with
  | .ok (_, out, _) => out
  | .error _ => []

theorem length_code : (Routine.library ++ code).length < 2 ^ 30 := by decide +kernel

def context : Context where
  system := ⟨.ofCode (Routine.library ++ code) (fun _ => 0) length_code, .arithmetic⟩
  need := 0
  floor := 0x800
  top := 0x1010
  const _ := 0
  lawful := Library.arithmetic_lawful
  aligned := by decide

def env : Env := ⟨fun x => if x = 1 then .array 0x100 [.int 10, .int 20] else .int 1, fun _ => 0⟩

def core : Core where
  reg r := if r = .sp then 0x1004 else 0
  flags := ⟨false, false, false, false⟩
  mem := ((((Mem.store (fun _ => 0) .word 0x100 2).store .word 0x104 10).store .word 0x108 20).store
    .word 0x1008 0x100).store .word 0x1004 1

theorem typed : term.Typed table Table.global := by
  have ha : a.Typed table Table.global := ⟨_, rfl, rfl, .here rfl⟩
  have hi : Expr.Typed table Table.global (.var i) := .var ⟨_, rfl, rfl, .here rfl⟩
  have helem : Expr.Typed table Table.global (.elem {} .int a [.var i]) := by
    refine .elem ha ⟨by decide, .int, 1, rfl, by decide, rfl⟩ ?_ ?_
    · simpa using hi
    · simp [Expr.type, i]
  have hints {op : BinOp} {l r : Expr} (hop : op.rule? = some ⟨.int, .int, false⟩) (hl : l.Typed table Table.global)
      (hr : r.Typed table Table.global) (ht : l.type = .int ∧ r.type = .int) :
      Expr.Typed table Table.global (.binary {} .int op l r) :=
    .binary hop hl hr ⟨by rw [ht.1]; rfl, by rw [ht.2]; rfl, (by rintro ⟨⟩)⟩
  exact hints rfl helem (hints rfl helem hi ⟨rfl, rfl⟩) ⟨rfl, rfl⟩

theorem vars_term : term.vars = [1, 2, 1, 2, 2] := rfl

theorem slots : ∀ x ∈ term.vars, Gen.HasSlot table stage x := by
  have h1 : Gen.HasSlot table stage 1 := ⟨_, 4, rfl, rfl, by decide⟩
  have h2 : Gen.HasSlot table stage 2 := ⟨_, 4, rfl, rfl, by decide⟩
  rw [vars_term]
  simp [h1, h2]

theorem covers (s : Stage) : context.Covers s :=
  ⟨fun _ _ q _ => Image.provides_library length_code q, fun _ _ _ => rfl⟩

theorem has_array : Datum.Has core.mem 0x800 0x1004 (.array .int 1) (.array 0x100 [.int 10, .int 20]) := by
  refine .array (t := .int) rfl (by decide) (by decide +kernel) ⟨by decide, by decide⟩ (fun i x hx => ?_)
    (fun x hx => ?_)
  · match i, hx with
    | 0, rfl => decide +kernel
    | 1, rfl => decide +kernel
  · obtain rfl | rfl : x = .int 10 ∨ x = .int 20 := by simpa using hx
    · exact .int (by decide)
    · exact .int (by decide)

theorem represents : context.Represents table stage env term.vars core := by
  refine ⟨rfl, fun x hx v off hv hslot => ?_⟩
  obtain rfl | rfl : x = 1 ∨ x = 2 := by
    rw [vars_term] at hx
    simp only [List.mem_cons, List.not_mem_nil] at hx
    tauto
  · obtain rfl : v = _ := (Option.some.inj hv).symm
    obtain rfl : off = 4 := by
      cases hslot
      rfl
    exact ⟨by decide, by decide +kernel, has_array⟩
  · obtain rfl : v = _ := (Option.some.inj hv).symm
    obtain rfl : off = 0 := by
      cases hslot
      rfl
    exact ⟨by decide, by decide +kernel, .int (by decide)⟩

end Squares

end Wacc.Arm
