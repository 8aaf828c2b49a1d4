/-
  What pieces of code do on the machine.
-/
import Wacc.Proofs.Machine.Lines

namespace Wacc.Arm

/-! ## What stays -/

def volatile : List Reg := [.r0, .r1, .r2, .r3, .r11, .r12, .lr]

/-- Registers outside `rs` are as before, but for those that calls may change; and so is memory at and
    above the stack pointer, and below the stack. -/
structure Core.Frame (floor : Nat) (rs : List Reg) (k k' : Core) : Prop where
  regs : ∀ r, r ∉ rs → r ∉ volatile → k'.reg r = k.reg r
  mem : ∀ a : Word, a.toNat < floor ∨ k.sp ≤ a.toNat → k'.mem a = k.mem a

namespace Core

variable {floor : Nat} {rs rs' : List Reg} {k k' k'' : Core} {r q : Reg} {w v : Word}

theorem set_set : (k.set r w).set r v = k.set r v := by
  simp only [set, Function.update_idem]

theorem set_self : k.set r (k.reg r) = k := by
  simp only [set, Function.update_eq_self]

namespace Frame

theorem refl (floor : Nat) (rs : List Reg) (k : Core) : Frame floor rs k k := ⟨fun _ _ _ => rfl, fun _ _ => rfl⟩

theorem sp (h : Frame floor rs k k') (hs : .sp ∉ rs) : k'.reg .sp = k.reg .sp := h.regs .sp hs (by decide)

theorem trans (h : Frame floor rs k k') (h' : Frame floor rs k' k'') (hs : .sp ∉ rs) :
    Frame floor rs k k'' := by
  have hsp : k'.sp = k.sp := by rw [Core.sp, h.sp hs, Core.sp]
  exact ⟨fun r hr hv => (h'.regs r hr hv).trans (h.regs r hr hv),
    fun a ha => (h'.mem a (hsp ▸ ha)).trans (h.mem a ha)⟩

theorem mono (h : Frame floor rs k k') (hrs : ∀ r ∈ rs, r ∈ rs') : Frame floor rs' k k' :=
  ⟨fun r hr hv => h.regs r (fun hm => hr (hrs r hm)) hv, h.mem⟩

theorem set (h : Frame floor rs k k') (hr : r ∈ rs ∨ r ∈ volatile) : Frame floor rs k (k'.set r w) := by
  refine ⟨fun q hq hv => ?_, h.mem⟩
  rw [set_reg, if_neg, h.regs q hq hv]
  rintro rfl
  exact hr.elim hq hv

theorem flags (h : Frame floor rs k k') {f : Flags} : Frame floor rs k { k' with flags := f } := ⟨h.regs, h.mem⟩

end Frame

end Core

/-! ## Moving the stack pointer -/

namespace System

variable {S : System} {k : Core}

theorem does_steps (op : Alu) (hflags : ∀ a b, op.flags? a b = none) (hzero : ∀ a, op.apply a 0#32 = a)
    (hadd : ∀ a b c, op.apply (op.apply a b) c = op.apply a (b + c)) (n : Nat) :
    S.Does ((Gen.stepsOf op n).map .instr) k (· = k.set .sp (op.apply (k.reg .sp) (BitVec.ofNat 32 n))) := by
  induction n using Nat.strong_induction_on generalizing k with
  | _ n ih =>
    rw [Gen.stepsOf]
    split_ifs with hn
    · subst hn
      exact .nil (by rw [hzero, Core.set_self])
    · set m := min n maxStep with hm
      have hpos : 0 < m ∧ m ≤ n := by simp only [maxStep] at hm; omega
      have hcast : min (n : Int) maxStep = m := by simp only [hm, maxStep]; omega
      have heffect : Instr.effect S.image.address k (.alu op .sp .sp (.imm (min (n : Int) maxStep))) =
          k.set .sp (op.apply (k.reg .sp) (BitVec.ofNat 32 m)) := by
        rw [hcast]
        simp only [Instr.effect, Operand.value, BitVec.ofInt_natCast, hflags]
        rfl
      have hsum : m + (n - m) = n := by omega
      refine .cons rfl ?_
      rw [heffect]
      refine (ih (n - m) (by omega)).weaken fun k' hk => ?_
      rw [hk, Core.set_set, Core.set_reg, if_pos rfl, hadd, ← BitVec.ofNat_add, hsum]

theorem does_sub (n : Nat) :
    S.Does ((Gen.stepsOf .sub n).map .instr) k (· = k.set .sp (k.reg .sp - BitVec.ofNat 32 n)) :=
  does_steps .sub (fun _ _ => rfl) BitVec.sub_zero (fun a b c => BitVec.sub_sub a b c) n

theorem does_add (n : Nat) :
    S.Does ((Gen.stepsOf .add n).map .instr) k (· = k.set .sp (k.reg .sp + BitVec.ofNat 32 n)) :=
  does_steps .add (fun _ _ => rfl) BitVec.add_zero (fun a b c => BitVec.add_assoc a b c) n

end System

/-! ## Pushing and popping -/

structure Core.Pushed (k : Core) (w : Word) (k' : Core) : Prop where
  regs : ∀ r ≠ .sp, k'.reg r = k.reg r
  sp : k'.reg .sp = k.reg .sp - 4#32
  top : k'.mem.load .word (k'.reg .sp) = w
  mem : ∀ a : Word, a.toNat < k.sp - 4 ∨ k.sp ≤ a.toNat → k'.mem a = k.mem a

theorem System.does_push {S : System} {k : Core} {r : Reg} (h : 4 ≤ k.sp) :
    S.Does [.instr (.push [r])] k (k.Pushed (k.reg r)) := by
  simp only [Core.sp] at h
  set a := k.reg .sp - 4#32 with ha
  have hto : a.toNat = (k.reg .sp).toNat - 4 := by
    rw [ha, BitVec.toNat_sub]
    simp only [BitVec.toNat_ofNat]
    omega
  refine .instr rfl ⟨fun q hq => ?_, rfl, ?_, fun b hb => ?_⟩
  · show (Core.set _ .sp a).reg q = _
    rw [Core.set_reg, if_neg hq]
    rfl
  · show (k.mem.store .word a (k.reg r)).load .word a = _
    rw [Mem.load_store, Width.keep]
  · simp only [Core.sp] at hb
    show k.mem.store .word a (k.reg r) b = _
    rw [Mem.store_outside] <;> simp only [Width.bytes] <;> omega

theorem System.does_pop {S : System} {k : Core} {r : Reg} (hr : r ≠ .pc) :
    S.Does [.instr (.pop [r])] k
      (· = (k.set r (k.mem.load .word (k.reg .sp))).set .sp (k.reg .sp + 4#32)) := by
  refine .instr (by simpa [Instr.isPlain] using hr.symm) ?_
  simp only [Instr.effect, Core.loads, if_neg hr, List.length_singleton]

/-! ## Routines -/

/-- The core at the start of a routine, after its return address and a register are saved. -/
structure Core.Entered (k k' : Core) : Prop where
  regs : ∀ r ≠ .sp, k'.reg r = k.reg r
  sp : k'.reg .sp = k.reg .sp - 8#32
  saved : k'.mem.load .word (k'.reg .sp) = k.reg .r4
  back : k'.mem.load .word (k'.reg .sp + 4#32) = k.reg .lr
  mem : ∀ a : Word, a.toNat < k.sp - 8 ∨ k.sp ≤ a.toNat → k'.mem a = k.mem a

variable (addr : Label → Word) {k k' k'' : Core} {floor : Nat}

theorem Core.entered (h : 8 ≤ k.sp) : Entered k (Routine.enter.effect addr k) := by
  simp only [Core.sp] at h
  set a := k.reg .sp - 8#32 with ha
  have hto : a.toNat = (k.reg .sp).toNat - 8 := by
    rw [ha, BitVec.toNat_sub]
    simp only [BitVec.toNat_ofNat]
    omega
  have hto' : (a + 4#32).toNat = a.toNat + 4 := by
    rw [BitVec.toNat_add]
    simp only [BitVec.toNat_ofNat]
    omega
  have hmem : (Routine.enter.effect addr k).mem =
      (k.mem.store .word a (k.reg .r4)).store .word (a + 4#32) (k.reg .lr) := rfl
  have hsp : (Routine.enter.effect addr k).reg .sp = a := rfl
  refine ⟨?_, hsp, ?_, ?_, ?_⟩
  · intro r hr
    show (Core.set _ .sp a).reg r = _
    rw [Core.set_reg, if_neg hr]
    rfl
  · rw [hsp, hmem, Mem.load_store_other, Mem.load_store, Width.keep] <;> simp only [Width.bytes] <;> omega
  · rw [hsp, hmem, Mem.load_store, Width.keep]
  · intro b hb
    simp only [Core.sp] at hb
    rw [hmem, Mem.store_outside, Mem.store_outside] <;> simp only [Width.bytes] <;> omega

theorem Core.Entered.leave (he : Entered k k') (hf : Frame floor [] k' k'') (h : floor + 8 ≤ k.sp) :
    Frame floor [] k (Routine.leave.effect addr k'') ∧
      k''.mem.load .word (k''.reg .sp + 4#32) = k.reg .lr ∧
      ∀ r, r ≠ .sp → r ≠ .r4 → (Routine.leave.effect addr k'').reg r = k''.reg r := by
  simp only [Core.sp] at h
  have hsp : k''.reg .sp = k'.reg .sp := hf.sp (by simp)
  have hto : (k'.reg .sp).toNat = (k.reg .sp).toNat - 8 := by
    rw [he.sp, BitVec.toNat_sub]
    simp only [BitVec.toNat_ofNat]
    omega
  have hto' : (k'.reg .sp + 4#32).toNat = (k'.reg .sp).toNat + 4 := by
    rw [BitVec.toNat_add]
    simp only [BitVec.toNat_ofNat]
    omega
  have hsaved : k''.mem.load .word (k''.reg .sp) = k.reg .r4 := by
    rw [hsp, ← he.saved]
    exact Mem.load_congr (by simp only [Width.bytes]; omega) fun b hb _ => hf.mem b (.inr hb)
  have hback : k''.mem.load .word (k''.reg .sp + 4#32) = k.reg .lr := by
    rw [hsp, ← he.back]
    exact Mem.load_congr (by simp only [Width.bytes]; omega) fun b hb _ =>
      hf.mem b (.inr (by simp only [Core.sp]; omega))
  have hregs : ∀ r, (Routine.leave.effect addr k'').reg r =
      if r = .sp then k''.reg .sp + 8#32 else if r = .r4 then k''.mem.load .word (k''.reg .sp) else k''.reg r := by
    intro r
    show (Core.set (Core.set k'' .r4 _) .sp _).reg r = _
    rw [Core.set_reg, Core.set_reg]
    rfl
  refine ⟨⟨?_, ?_⟩, hback, fun r h1 h2 => by rw [hregs, if_neg h1, if_neg h2]⟩
  · intro r _ hv
    rw [hregs]
    split_ifs with h1 h2
    · rw [h1, hsp, he.sp, BitVec.sub_add_cancel]
    · rw [h2, hsaved]
    · rw [hf.regs r (by simp) hv, he.regs r h1]
  · intro a ha
    simp only [Core.sp] at ha
    show k''.mem a = _
    rw [hf.mem a (by simp only [Core.sp]; omega), he.mem a (by simp only [Core.sp]; omega)]

namespace System

variable {S : System} {α : Type}

def Provides (S : System) (r : Routine) : Prop :=
  ∃ n m, S.image.find (.routine r) = some n ∧
    S.image.Has n (.label (.routine r) :: (r.body m).map .instr)

theorem yields_routine {r : Routine} (pre : Nat → List Instr) (hr : S.Provides r)
    (hbody : ∀ m, r.body m = pre m ++ [Routine.leave]) (hevent : ∀ w, r.event? w = none) {res : Option α}
    {Q : α → Core → Prop}
    (h : ∀ m w, S.Yields ((pre m).map .instr) (k.set .lr w) res fun a k' =>
      k'.mem.load .word (k'.reg .sp + 4#32) = w ∧ Q a (Routine.leave.effect S.image.address k')) :
    S.Yields [.instr (.call .always (.label (.routine r)))] k res Q := by
  obtain ⟨p, m, hfind, hhas⟩ := hr
  rw [hbody, List.map_append] at hhas
  have henter : ∀ {n tr R}, S.image.Has n [.instr (.call .always (.label (.routine r)))] →
      S.Runs 0 ⟨k.set .lr (S.image.place (n + 1)), p + 1, tr⟩ R → S.Runs 0 ⟨k, n, tr⟩ R := by
    intro n tr R hn hR
    refine (Runs.step (next_call hn.head rfl hfind) ?_).le (Nat.zero_le 1)
    rw [show (Label.routine r).event? (k.reg .r0) = none from hevent _, Option.toList_none, List.append_nil]
    exact (Runs.step (by rw [next, hhas.head]) hR).le (Nat.zero_le 1)
  cases res with
  | none =>
    intro n tr hn
    exact henter hn (h m _ _ tr hhas.tail.left)
  | some a =>
    intro n tr hn
    refine henter hn ((h m _ _ tr hhas.tail.left).seq ?_)
    rintro ⟨k', q, tr'⟩ ⟨rfl, rfl, hback, hQ⟩
    have hlen : n + 1 ≤ S.image.code.length := by
      obtain ⟨hlt, -⟩ := List.getElem?_eq_some_iff.1 hn.head
      exact hlt
    refine (Runs.step (next_return (m := n + 1) hhas.tail.right.head rfl ?_) (.here ?_)).le (Nat.zero_le 1)
    · show S.image.position (k'.mem.load .word (k'.reg .sp + 4#32)) = _
      rw [hback, S.image.position_place _ hlen]
    · exact ⟨rfl, rfl, hQ⟩

theorem yields_throwIf {c : Cond} {n : Nat} (hr : S.Provides .throwRuntime) :
    S.Yields ((Routine.throwIf c n).map .instr) k (if c.holds k.flags then none else some ())
      fun _ k' => k' = k := by
  obtain ⟨m, -, hfind, -⟩ := hr
  split_ifs with hc
  · refine (Does.instr (Q := fun k' => k'.flags = k.flags) rfl ?_).throws fun k' hk => ?_
    · simp only [Instr.effect, if_pos hc, Core.set_flags]
    · exact Throws.call (by rw [hk]; exact hc) (by decide) hfind
  · rw [Bool.not_eq_true] at hc
    show S.Does [.instr (.address c .r0 (.const n)), .instr (.call c (.label (.routine .throwRuntime)))] k
      (fun k' => k' = k)
    refine Does.cons rfl ?_
    simp only [Instr.effect, hc, Bool.false_eq_true, if_false]
    exact Does.call_skip hc rfl

theorem Frame.enter {w : Word} (h : floor + 8 ≤ k.sp) :
    ∃ k', Routine.enter.effect addr (k.set .lr w) = k' ∧ (k.set .lr w).Entered k' ∧
      ∀ {k''}, Core.Frame floor [] k' k'' → k''.mem.load .word (k''.reg .sp + 4#32) = w ∧
        Core.Frame floor [] k (Routine.leave.effect addr k'') ∧
        ∀ r, r ≠ .sp → r ≠ .r4 → (Routine.leave.effect addr k'').reg r = k''.reg r := by
  have hsp : (k.set .lr w).sp = k.sp := rfl
  have he : (k.set .lr w).Entered (Routine.enter.effect addr (k.set .lr w)) := Core.entered addr (by omega)
  refine ⟨_, rfl, he, fun {k''} hf => ?_⟩
  obtain ⟨hframe, hback, hregs⟩ := he.leave addr hf (by omega)
  refine ⟨by simpa using hback, ?_, hregs⟩
  exact ((Core.Frame.refl floor [] k).set (.inr (by decide))).trans hframe (by simp)

theorem yields_checkDivide (floor : Nat) (hr : S.Provides .checkDivideByZero)
    (ht : S.Provides .throwRuntime) (h : floor + 8 ≤ k.sp) :
    S.Yields [.instr (.call .always (.label (.routine .checkDivideByZero)))] k
      (if k.reg .r1 = 0 then none else some ())
      fun _ k' => Core.Frame floor [] k k' ∧ k'.reg .r0 = k.reg .r0 ∧ k'.reg .r1 = k.reg .r1 := by
  refine yields_routine (fun m => [Routine.enter, .cmp .r1 (.imm 0)] ++ Routine.throwIf .eq m) hr
    (fun _ => rfl) (fun _ => rfl) fun m w => ?_
  obtain ⟨k1, hk1, he, hleave⟩ := Frame.enter S.image.address (w := w) h
  set k2 : Core := { k1 with flags := .ofSub (k1.reg .r1) 0 } with hk2
  have hf : Core.Frame floor [] k1 k2 := (Core.Frame.refl floor [] k1).flags
  have hr1 : k1.reg .r1 = k.reg .r1 := by rw [he.regs _ (by decide)]; rfl
  have hstart : S.Does [.instr Routine.enter, .instr (.cmp .r1 (.imm 0))] (k.set .lr w) (· = k2) := by
    refine .cons rfl (.instr rfl ?_)
    rw [hk1]
    rfl
  have hif : (if Cond.eq.holds k2.flags then none else some ()) = if k.reg .r1 = 0 then none else some () := by
    simp only [Cond.holds, hk2, Flags.ofSub, beq_iff_eq, hr1]
  rw [List.map_append]
  refine hstart.yields ?_
  rintro _ rfl
  rw [← hif]
  refine (yields_throwIf ht).weaken ?_
  rintro _ _ rfl
  obtain ⟨hback, hframe, hregs⟩ := hleave hf
  refine ⟨hback, hframe, ?_, ?_⟩
  · rw [hregs _ (by decide) (by decide), hk2, he.regs _ (by decide)]; rfl
  · rw [hregs _ (by decide) (by decide), hk2, he.regs _ (by decide)]; rfl

theorem yields_checkBounds (floor : Nat) (hr : S.Provides .checkArrayBounds)
    (ht : S.Provides .throwRuntime) (h : floor + 8 ≤ k.sp) (hclear : Mem.Clear floor k.sp (k.reg .r1) 4) :
    S.Yields [.instr (.call .always (.label (.routine .checkArrayBounds)))] k
      (if (k.reg .r0).msb || (k.mem.load .word (k.reg .r1)).ule (k.reg .r0) then none else some ())
      fun _ k' => Core.Frame floor [] k k' ∧ k'.reg scratch = k.reg scratch := by
  refine yields_routine (fun m => [Routine.enter, .cmp .r0 (.imm 0)] ++ Routine.throwIf .lt m ++
    ([.load .word .r1 (.offset .r1 0), .cmp .r0 (.reg .r1)] ++ Routine.throwIf .cs (m + 1))) hr
    (fun _ => rfl) (fun _ => rfl) fun m w => ?_
  obtain ⟨k1, hk1, he, hleave⟩ := Frame.enter S.image.address (w := w) h
  have hr0 : k1.reg .r0 = k.reg .r0 := by rw [he.regs _ (by decide)]; rfl
  have hr1 : k1.reg .r1 = k.reg .r1 := by rw [he.regs _ (by decide)]; rfl
  have hlen : k1.mem.load .word (k.reg .r1) = k.mem.load .word (k.reg .r1) :=
    hclear.load_eq fun a ha => he.mem a (by show a.toNat < k.sp - 8 ∨ k.sp ≤ a.toNat; omega)
  set k2 : Core := { k1 with flags := .ofSub (k1.reg .r0) 0 } with hk2
  have hstart : S.Does [.instr Routine.enter, .instr (.cmp .r0 (.imm 0))] (k.set .lr w) (· = k2) := by
    refine .cons rfl (.instr rfl ?_)
    rw [hk1]
    rfl
  set k3 : Core := { k2.set .r1 (k.mem.load .word (k.reg .r1)) with
    flags := .ofSub (k.reg .r0) (k.mem.load .word (k.reg .r1)) } with hk3
  have hlength : S.Does [.instr (.load .word .r1 (.offset .r1 0)), .instr (.cmp .r0 (.reg .r1))] k2 (· = k3) := by
    refine .cons rfl (.instr rfl ?_)
    have hload : k2.mem.load .word (k2.reg .r1 + BitVec.ofInt 32 0) = k.mem.load .word (k.reg .r1) := by
      rw [show k2.reg .r1 = k.reg .r1 from hr1, ← hlen]
      exact congrArg _ (BitVec.add_zero _)
    simp only [Instr.effect, Address.value, Operand.value, hload, Core.set_reg, reduceCtorEq, if_false, if_true]
    rw [hk3, show k2.reg .r0 = k.reg .r0 from hr0]
  have hf : Core.Frame floor [] k1 k3 := ((Core.Frame.refl floor [] k1).flags.set (.inr (by decide))).flags
  have hneg : Cond.lt.holds k2.flags = (k.reg .r0).msb := by
    simp [Cond.holds, hk2, Flags.ofSub, hr0, BitVec.ssubOverflow_eq]
  have hlarge : Cond.cs.holds k3.flags = (k.mem.load .word (k.reg .r1)).ule (k.reg .r0) := rfl
  have hif : ∀ a b : Bool, (if a || b then none else some ()) =
      (if a then none else some ()).bind fun _ => if b then none else some () := by decide
  rw [hif, List.map_append, List.map_append, List.map_append, ← hneg, ← hlarge]
  refine (hstart.yields (Q := fun _ k' => k' = k2) ?_).seq ?_
  · rintro _ rfl
    exact yields_throwIf ht
  · rintro _ _ - rfl
    refine hlength.yields ?_
    rintro _ rfl
    refine (yields_throwIf ht).weaken ?_
    rintro _ _ rfl
    obtain ⟨hback, hframe, hregs⟩ := hleave hf
    refine ⟨hback, hframe, ?_⟩
    exact he.regs _ (by decide)

end System

end Wacc.Arm
