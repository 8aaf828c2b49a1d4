/-
  A machine that runs assembly.

  Registers hold words, memory is addressed by bytes, and the position of control is the number of a
  line of the code.  Labels and other lines that are no instructions are passed over.  Functions of
  the C library are a parameter; what they promise is `Library.Lawful`.
-/
import Mathlib.Data.BitVec
import Wacc.Arm.Program

namespace Wacc.Arm

abbrev Word := BitVec 32
abbrev Byte := BitVec 8

/-! ## Memory -/

abbrev Mem := Word → Byte

namespace Width

def bytes : Width → Nat
  | .byte => 1
  | .word => 4

/-- What is left of a word that is stored and loaded again; a byte keeps its sign. -/
def keep : Width → Word → Word
  | .byte, v => (v.setWidth 8).signExtend 32
  | .word, v => v

theorem bytes_pos (w : Width) : 0 < w.bytes := by cases w <;> decide

theorem bytes_le (w : Width) : w.bytes ≤ 4 := by cases w <;> decide

end Width

namespace Mem

def load (m : Mem) : Width → Word → Word
  | .byte, a => (m a).signExtend 32
  | .word, a => m (a + 3#32) ++ m (a + 2#32) ++ m (a + 1#32) ++ m a

def store (m : Mem) (w : Width) (a v : Word) : Mem := fun b =>
  if (b - a).toNat < w.bytes then v.extractLsb' (8 * (b - a).toNat) 8 else m b

variable {m m' : Mem} {w : Width} {a b v : Word}

theorem store_outside (ha : a.toNat + w.bytes ≤ 2 ^ 32)
    (hb : b.toNat < a.toNat ∨ a.toNat + w.bytes ≤ b.toNat) : m.store w a v b = m b := by
  have hsub : ¬ (b - a).toNat < w.bytes := by
    rw [BitVec.toNat_sub]
    omega
  exact if_neg hsub

theorem load_congr (ha : a.toNat + w.bytes ≤ 2 ^ 32)
    (h : ∀ b : Word, a.toNat ≤ b.toNat → b.toNat < a.toNat + w.bytes → m b = m' b) :
    m.load w a = m'.load w a := by
  cases w with
  | byte =>
    rw [load, load, h a le_rfl (by simp [Width.bytes])]
  | word =>
    have hbyte : ∀ n < 4, m (a + BitVec.ofNat 32 n) = m' (a + BitVec.ofNat 32 n) := by
      intro n hn
      simp only [Width.bytes] at ha h
      have hto : (a + BitVec.ofNat 32 n).toNat = a.toNat + n := by
        rw [BitVec.toNat_add, BitVec.toNat_ofNat]
        omega
      exact h _ (by omega) (by omega)
    have h0 := hbyte 0 (by decide)
    have h1 := hbyte 1 (by decide)
    have h2 := hbyte 2 (by decide)
    have h3 := hbyte 3 (by decide)
    rw [BitVec.add_zero] at h0
    rw [load, load, h0, h1, h2, h3]

structure Clear (floor limit : Nat) (a : Word) (n : Nat) : Prop where
  fits : a.toNat + n ≤ 2 ^ 32
  apart : a.toNat + n ≤ floor ∨ limit ≤ a.toNat

theorem Clear.load_eq {floor limit : Nat} (ha : Clear floor limit a w.bytes)
    (h : ∀ b : Word, b.toNat < floor ∨ limit ≤ b.toNat → m b = m' b) : m.load w a = m'.load w a :=
  load_congr ha.fits fun b _ _ => h b (by have := ha.apart; omega)

theorem load_store_other {w' : Width} (ha : a.toNat + w.bytes ≤ 2 ^ 32) (hb : b.toNat + w'.bytes ≤ 2 ^ 32)
    (h : b.toNat + w'.bytes ≤ a.toNat ∨ a.toNat + w.bytes ≤ b.toNat) :
    (m.store w a v).load w' b = m.load w' b :=
  load_congr hb fun _ _ _ => store_outside ha (by omega)

theorem load_store : (m.store w a v).load w a = w.keep v := by
  have hbyte : ∀ n < w.bytes, m.store w a v (a + BitVec.ofNat 32 n) = v.extractLsb' (8 * n) 8 := by
    intro n hn
    have := w.bytes_le
    have hto : (a + BitVec.ofNat 32 n - a).toNat = n := by
      rw [BitVec.add_comm, BitVec.add_sub_cancel, BitVec.toNat_ofNat]
      omega
    rw [store, hto, if_pos hn]
  have h0 := hbyte 0 w.bytes_pos
  rw [BitVec.add_zero] at h0
  cases w with
  | byte =>
    rw [load, h0, Width.keep]
    rfl
  | word =>
    have h1 := hbyte 1 (by decide)
    have h2 := hbyte 2 (by decide)
    have h3 := hbyte 3 (by decide)
    rw [load, h0, h1, h2, h3, Width.keep]
    ext i hi
    grind

end Mem

/-! ## Registers and flags -/

structure Flags where
  n : Bool
  z : Bool
  c : Bool
  v : Bool

namespace Flags

def ofAdd (a b : Word) : Flags := ⟨(a + b).msb, a + b == 0, BitVec.uaddOverflow a b, BitVec.saddOverflow a b⟩

def ofSub (a b : Word) : Flags := ⟨(a - b).msb, a == b, b.ule a, BitVec.ssubOverflow a b⟩

end Flags

def Cond.holds (f : Flags) : Cond → Bool
  | .always => true
  | .eq => f.z
  | .ne => !f.z
  | .cs => f.c
  | .lt => f.n != f.v
  | .ge => f.n == f.v
  | .gt => !f.z && f.n == f.v
  | .le => f.z || f.n != f.v
  | .vs => f.v

/-- Registers, flags and memory. -/
structure Core where
  reg : Reg → Word
  flags : Flags
  mem : Mem

namespace Core

def set (k : Core) (r : Reg) (w : Word) : Core := { k with reg := Function.update k.reg r w }

def sp (k : Core) : Nat := (k.reg .sp).toNat

def stores (k : Core) : List Reg → Word → Core
  | [], _ => k
  | r :: rs, a => stores { k with mem := k.mem.store .word a (k.reg r) } rs (a + 4)

def loads (k : Core) : List Reg → Word → Core
  | [], _ => k
  | r :: rs, a => loads (if r = .pc then k else k.set r (k.mem.load .word a)) rs (a + 4)

variable (k : Core) (r q : Reg) (w : Word)

@[simp] theorem set_reg : (k.set r w).reg q = if q = r then w else k.reg q :=
  Function.update_apply ..

@[simp] theorem set_flags : (k.set r w).flags = k.flags := rfl

@[simp] theorem set_mem : (k.set r w).mem = k.mem := rfl

end Core

def Operand.value (k : Core) : Operand → Word
  | .imm n => BitVec.ofInt 32 n
  | .reg r => k.reg r
  | .lsl r n => k.reg r <<< n
  | .asr r n => (k.reg r).sshiftRight n

def Address.value (k : Core) : Address → Word
  | .offset b n => k.reg b + BitVec.ofInt 32 n
  | .index b i => k.reg b + k.reg i

namespace Alu

def apply (a b : Word) : Alu → Word
  | .add | .adds => a + b
  | .sub | .subs => a - b
  | .rsbs => b - a
  | .and => a &&& b
  | .orr => a ||| b
  | .eor => a ^^^ b

def flags? (a b : Word) : Alu → Option Flags
  | .adds => some (.ofAdd a b)
  | .subs => some (.ofSub a b)
  | .rsbs => some (.ofSub b a)
  | _ => none

end Alu

/-- What an instruction does to registers, flags and memory; `addr` says where labels are. -/
def Instr.effect (addr : Label → Word) (k : Core) : Instr → Core
  | .push rs =>
    let a := k.reg .sp - BitVec.ofNat 32 (4 * rs.length)
    (k.stores rs a).set .sp a
  | .pop rs => (k.loads rs (k.reg .sp)).set .sp (k.reg .sp + BitVec.ofNat 32 (4 * rs.length))
  | .mov c d v => if c.holds k.flags then k.set d (v.value k) else k
  | .number d n => k.set d (BitVec.ofInt 32 n)
  | .address c d l => if c.holds k.flags then k.set d (addr l) else k
  | .load w d a => k.set d (k.mem.load w (a.value k))
  | .store w s a => { k with mem := k.mem.store w (a.value k) (k.reg s) }
  | .pushStore w s n =>
    let a := k.reg .sp - BitVec.ofNat 32 n
    { k.set .sp a with mem := k.mem.store w a (k.reg s) }
  | .alu op d a b =>
    let x := k.reg a
    let y := b.value k
    { k.set d (op.apply x y) with flags := (op.flags? x y).getD k.flags }
  | .smull lo hi a b =>
    let p := (k.reg a).toInt * (k.reg b).toInt
    (k.set lo (BitVec.ofInt 32 p)).set hi (BitVec.ofInt 32 (p / 2 ^ 32))
  | .cmp a b => { k with flags := .ofSub (k.reg a) (b.value k) }
  | .branch _ _ | .call _ _ => k

/-! ## Code -/

/-- Code in memory: the address of every line, and of every string constant. -/
structure Image where
  code : List Line
  place : Nat → Word
  /-- the line at an address -/
  position : Word → Option Nat
  position_place : ∀ n ≤ code.length, position (place n) = some n
  const : Nat → Word

namespace Image

def find (I : Image) (l : Label) : Option Nat := I.code.findIdx? (· == .label l)

def address (I : Image) : Label → Word
  | .const n => I.const n
  | l => I.place ((I.find l).getD 0)

end Image

/-- What functions of the C library do; the one that ends the program is not asked. -/
abbrev Library := Extern → Core → Core

namespace Library

/-- The registers that a function of the library need not give back as they were. -/
def clobbered : List Reg := [.r0, .r1, .r2, .r3, .r12, .lr]

/-- A function of the library can be called: the stack is aligned and has room. -/
structure CanCall (need : Nat) (k : Core) : Prop where
  aligned : k.sp % 8 = 0
  room : need ≤ k.sp

/-- What the library promises, when its functions have `need` bytes of the stack for themselves. -/
structure Lawful (lib : Library) (need : Nat) : Prop where
  regs : ∀ e k, CanCall need k → ∀ r ∉ clobbered, (lib e k).reg r = k.reg r
  above : ∀ e k, CanCall need k → ∀ a : Word, k.sp ≤ a.toNat → (lib e k).mem a = k.mem a
  below : ∀ e k, CanCall need k → e = .idiv ∨ e = .idivmod → ∀ a : Word, a.toNat < k.sp - need →
    (lib e k).mem a = k.mem a
  idiv : ∀ k, CanCall need k → k.reg .r1 ≠ 0 → (lib .idiv k).reg .r0 = (k.reg .r0).sdiv (k.reg .r1)
  idivmod : ∀ k, CanCall need k → k.reg .r1 ≠ 0 →
    (lib .idivmod k).reg .r1 = (k.reg .r0).srem (k.reg .r1)

end Library

inductive Event where
  | value (r : Routine) (w : Word)
  | line
  deriving DecidableEq, Repr

def Routine.event? (w : Word) : Routine → Option Event
  | .printLn => some .line
  | .printString => some (.value .printString w)
  | .printInt => some (.value .printInt w)
  | .printBool => some (.value .printBool w)
  | .printChar => some (.value .printChar w)
  | .printReference => some (.value .printReference w)
  | _ => none

def Label.event? (w : Word) : Label → Option Event
  | .routine r => r.event? w
  | _ => none

/-- A machine at a line, with what was printed so far. -/
structure State extends Core where
  pc : Nat
  trace : List Event

/-- How a run ends. -/
inductive Halt where
  | exit (code : Word)
  | leave (target value : Word)
  /-- there is no code -/
  | lost
  deriving DecidableEq, Repr

structure System where
  image : Image
  lib : Library

namespace System

variable (S : System)

def call (s : State) : Callee → Except Halt State
  | .label l =>
    match S.image.find l with
    | none => .error .lost
    | some n =>
      .ok { toCore := s.toCore.set .lr (S.image.place (s.pc + 1)), pc := n,
            trace := s.trace ++ (l.event? (s.reg .r0)).toList }
  | .extern_ .exit => .error (.exit (s.reg .r0))
  | .extern_ e =>
    .ok { s with toCore := S.lib e (s.toCore.set .lr (S.image.place (s.pc + 1))), pc := s.pc + 1 }

def instr (s : State) (i : Instr) : Except Halt State :=
  let k := i.effect S.image.address s.toCore
  let pass : State := { s with toCore := k, pc := s.pc + 1 }
  match i with
  | .branch c l =>
    if c.holds s.flags then
      match S.image.find l with
      | none => .error .lost
      | some n => .ok { s with pc := n }
    else .ok pass
  | .call c f => if c.holds s.flags then S.call s f else .ok pass
  | .pop rs =>
    if rs.contains .pc then
      let a := s.mem.load .word (s.reg .sp + BitVec.ofNat 32 (4 * rs.idxOf .pc))
      match S.image.position a with
      | none => .error (.leave a (k.reg .r0))
      | some n => .ok { s with toCore := k, pc := n }
    else .ok pass
  | _ => .ok pass

def next (s : State) : Except Halt State :=
  match S.image.code[s.pc]? with
  | none => .error .lost
  | some (.instr i) => S.instr s i
  | some _ => .ok { s with pc := s.pc + 1 }

def after : Nat → State → Except Halt State
  | 0, s => .ok s
  | n + 1, s =>
    match S.next s with
    | .error h => .error h
    | .ok s' => after n s'

def Runs (n : Nat) (s : State) (Q : State → Prop) : Prop :=
  ∃ k ≥ n, ∃ s', S.after k s = .ok s' ∧ Q s'

end System

namespace System.Runs

variable {S : System} {n : Nat} {s s' : State} {P Q : State → Prop}

theorem here (h : Q s) : S.Runs 0 s Q := ⟨0, le_rfl, s, rfl, h⟩

theorem weaken (h : S.Runs n s P) (hq : ∀ s', P s' → Q s') : S.Runs n s Q := by
  obtain ⟨k, hk, s', hs, hp⟩ := h
  exact ⟨k, hk, s', hs, hq s' hp⟩

theorem step (hs : S.next s = .ok s') (h : S.Runs n s' Q) : S.Runs (n + 1) s Q := by
  obtain ⟨k, hk, s'', hs', hq⟩ := h
  exact ⟨k + 1, by omega, s'', by rw [after, hs]; exact hs', hq⟩

theorem le {m : Nat} (h : S.Runs n s Q) (hm : m ≤ n) : S.Runs m s Q := by
  obtain ⟨k, hk, rest⟩ := h
  exact ⟨k, by omega, rest⟩

theorem bind {m : Nat} (h : S.Runs m s P) (hp : ∀ s', P s' → S.Runs n s' Q) : S.Runs (m + n) s Q := by
  obtain ⟨k, hk, s', hs, h⟩ := h
  induction k generalizing s m with
  | zero =>
    cases hs
    exact (hp _ h).le (by omega)
  | succ k ih =>
    rw [after] at hs
    split at hs
    · cases hs
    · rename_i s1 hnext
      have hrest := ih (m := m - 1) (by omega) hs
      exact (hrest.step hnext).le (by omega)

theorem seq (h : S.Runs 0 s P) (hp : ∀ s', P s' → S.Runs n s' Q) : S.Runs n s Q :=
  (h.bind hp).le (by omega)

end System.Runs

end Wacc.Arm
