/-
  What the steps of the generator do on the machine.

  Code is generated for a known depth of the stack; the machine has the same depth when control gets
  there.  Below the stack pointer there is room, which calls and pushed values may use.
-/
import Wacc.Proofs.Arm.Gen
import Wacc.Proofs.Machine.Steps

namespace Wacc.Arm

/-! ## Stages -/

/-- Generation goes on: the stack is `j` bytes deeper, and nothing that is known is lost. -/
structure Stage.Shift (s : Stage) (j : Int) (s' : Stage) : Prop where
  depth : s'.depth = s.depth + j
  entry : s'.entry = s.entry
  used : ∀ r ∈ s.used, r ∈ s'.used
  shared : ∀ t n, s.shared.lookup t = some n → s'.shared.lookup t = some n

namespace Stage.Shift

variable {s s' s'' : Stage} {i j : Int}

theorem refl (s : Stage) : s.Shift 0 s := ⟨by simp, rfl, fun _ h => h, fun _ _ h => h⟩

theorem trans (h : s.Shift i s') (h' : s'.Shift j s'') : s.Shift (i + j) s'' :=
  ⟨by rw [h'.depth, h.depth]; ring, h'.entry.trans h.entry, fun r hr => h'.used r (h.used r hr),
    fun t n ht => h'.shared t n (h.shared t n ht)⟩

theorem cast (h : s.Shift i s') (hj : i = j) : s.Shift j s' := hj ▸ h

end Stage.Shift

namespace Routine

theorem subset_use {fuel : Nat} {used work : List Routine} : ∀ r ∈ used, r ∈ use fuel used work := by
  intro r hr
  induction fuel generalizing used work with
  | zero => exact hr
  | succ fuel ih =>
    cases work with
    | nil => exact hr
    | cons q work =>
      rw [use]
      split_ifs
      · exact ih hr
      · exact ih (List.mem_append_left _ hr)

theorem mem_use {r : Routine} {used : List Routine} : r ∈ use 4 used [r] := by
  rw [use]
  split_ifs with h
  · exact subset_use r (List.contains_iff_mem.1 h)
  · exact subset_use r (List.mem_append_right _ List.mem_cons_self)

end Routine

/-! ## Accesses -/

namespace Gen

variable {T : Table} {s : Stage} {b : Reg}

/-- The instruction runs with the address that is asked for, and only the scratch register was used for it. -/
theorem access_lines (mk : Address → Instr) (limit : Int) (hb : b ≠ scratch) (off : Int) :
    ∃ out, access mk limit b off T s = .ok ((), out, s) ∧ ∀ (S : System) (k : Core) (P : Core → Prop),
      (∀ a k1, k1 = k ∨ k1 = k.set scratch (BitVec.ofInt 32 off) → a.value k1 = k.reg b + BitVec.ofInt 32 off →
        S.Does [.instr (mk a)] k1 P) → S.Does out k P := by
  unfold access
  split_ifs
  · exact ⟨_, rfl, fun S k P h => h _ k (.inl rfl) rfl⟩
  · refine ⟨_, rfl, fun S k P h => .cons rfl (h _ _ (.inr rfl) ?_)⟩
    simp only [Instr.effect, Address.value, Core.set_reg, if_true, if_neg hb]

theorem load_lines (d : Reg) (hb : b ≠ scratch) (off : Int) (t : Ty) :
    ∃ out, load d b off t T s = .ok ((), out, s) ∧ ∀ (S : System) (k : Core) (floor : Nat), S.Does out k fun k' =>
      k'.reg d = k.mem.load (widthOf t) (k.reg b + BitVec.ofInt 32 off) ∧ Core.Frame floor [d] k k' := by
  have haccess : ∀ w limit, ∃ out, access (.load w d) limit b off T s = .ok ((), out, s) ∧
      ∀ (S : System) (k : Core) (floor : Nat), S.Does out k fun k' =>
        k'.reg d = k.mem.load w (k.reg b + BitVec.ofInt 32 off) ∧ Core.Frame floor [d] k k' := by
    intro w limit
    obtain ⟨out, hrun, hdoes⟩ := access_lines (.load w d) limit hb off
    refine ⟨out, hrun, fun S k floor => hdoes S k _ fun a k1 hk ha => .instr rfl ?_⟩
    have hframe : k1.mem = k.mem ∧ Core.Frame floor [d] k k1 := by
      rcases hk with rfl | rfl
      · exact ⟨rfl, .refl _ _ _⟩
      · exact ⟨rfl, (Core.Frame.refl _ _ _).set (.inr (by decide))⟩
    refine ⟨?_, hframe.2.set (.inl (by simp))⟩
    simp only [Instr.effect, ha, Core.set_reg, if_true, hframe.1]
  unfold load
  cases widthOf t <;> exact haccess _ _

theorem store_lines (r : Reg) (hb : b ≠ scratch) (off : Int) (t : Ty) :
    ∃ out, store r b off t T s = .ok ((), out, s) ∧ ∀ (S : System) (k : Core), S.Does out k fun k' =>
      (∃ v, k'.mem = k.mem.store (widthOf t) (k.reg b + BitVec.ofInt 32 off) v ∧ (r ≠ scratch → v = k.reg r)) ∧
        ∀ q, q ≠ scratch → k'.reg q = k.reg q := by
  obtain ⟨out, hrun, hdoes⟩ := access_lines (.store (widthOf t) r) maxWordOffset hb off
  refine ⟨out, hrun, fun S k => hdoes S k _ fun a k1 hk ha => .instr rfl ?_⟩
  have hregs : k1.mem = k.mem ∧ ∀ q, q ≠ scratch → k1.reg q = k.reg q := by
    rcases hk with rfl | rfl
    · exact ⟨rfl, fun _ _ => rfl⟩
    · exact ⟨rfl, fun q hq => by rw [Core.set_reg, if_neg hq]⟩
  refine ⟨⟨k1.reg r, ?_, hregs.2 r⟩, hregs.2⟩
  simp only [Instr.effect, ha, hregs.1]

end Gen
/-! ## Contexts -/

/-- The machine and the frame in which code runs. -/
structure Context where
  system : System
  need : Nat
  floor : Nat
  /-- the stack pointer at the start of the routine -/
  top : Int
  const : Text → Word
  lawful : system.lib.Lawful need
  aligned : top % 8 = 0

namespace Context

variable (C : Context)

structure Ready (depth : Int) (room : Nat) (k : Core) : Prop where
  depth : (k.sp : Int) + depth = C.top
  room : C.floor + C.need + room ≤ k.sp

/-- The machine has what the generated code refers to. -/
structure Covers (s : Stage) : Prop where
  routines : ∀ r ∈ s.used, ∀ q ∈ r :: r.needs, C.system.Provides q
  consts : ∀ t n, s.shared.lookup t = some n → C.system.image.const n = C.const t

variable {C}

theorem Covers.back {s s' : Stage} {j : Int} (h : C.Covers s') (hs : s.Shift j s') : C.Covers s :=
  ⟨fun r hr => h.routines r (hs.used r hr), fun t n ht => h.consts t n (hs.shared t n ht)⟩

namespace Ready

variable {depth : Int} {room : Nat} {k k' : Core}

theorem le {n : Nat} (h : C.Ready depth room k) (hn : n ≤ room) : C.Ready depth n k :=
  ⟨h.depth, by have := h.room; omega⟩

theorem same (h : C.Ready depth room k) (hsp : k'.reg .sp = k.reg .sp) : C.Ready depth room k' := by
  obtain ⟨hd, hr⟩ := h
  exact ⟨by rw [Core.sp, hsp]; exact hd, by rw [Core.sp, hsp]; exact hr⟩

theorem frame {rs : List Reg} (h : C.Ready depth room k) (hf : Core.Frame C.floor rs k k') (hs : .sp ∉ rs) :
    C.Ready depth room k' := h.same (hf.sp hs)

theorem deeper {n : Nat} (h : C.Ready depth (room + n) k) (hsp : k'.reg .sp = k.reg .sp - BitVec.ofNat 32 n) :
    C.Ready (depth + n) room k' ∧ k'.sp = k.sp - n := by
  obtain ⟨hd, hr⟩ := h
  have hto : k'.sp = k.sp - n := by
    simp only [Core.sp] at hr ⊢
    rw [hsp, BitVec.toNat_sub, BitVec.toNat_ofNat]
    omega
  exact ⟨⟨by rw [hto]; omega, by omega⟩, hto⟩

end Ready

/-! ## Generation steps -/

/-- The step adds lines with the property `sem`, and makes the stack `j` bytes deeper. -/
def Emits (C : Context) (T : Table) (s : Stage) (x : Gen Unit) (j : Int) (sem : List Line → Prop) : Prop :=
  Gen.Wp x (fun _ out s' => s.Shift j s' ∧ (C.Covers s' → sem out)) T s

namespace Emits

variable {T : Table} {s : Stage} {x y : Gen Unit} {i j : Int} {sem sem' : List Line → Prop}

theorem weaken (h : C.Emits T s x j sem) (hsem : ∀ out, sem out → sem' out) : C.Emits T s x j sem' :=
  Gen.Wp.weaken h fun _ out _ ⟨hs, ho⟩ => ⟨hs, fun hc => hsem out (ho hc)⟩

theorem cast (h : C.Emits T s x i sem) (hj : i = j) : C.Emits T s x j sem := hj ▸ h

theorem seq {sem' : Stage → List Line → Prop} (hx : C.Emits T s x i sem)
    (hy : ∀ s', s.Shift i s' → C.Emits T s' y j (sem' s')) :
    C.Emits T s (x >>= fun _ => y) (i + j) fun out =>
      ∃ s' o o', s.Shift i s' ∧ out = o ++ o' ∧ sem o ∧ sem' s' o' := by
  refine Gen.Wp.seq hx fun _ o s1 ⟨hs, ho⟩ => ?_
  refine Gen.Wp.weaken (hy s1 hs) fun _ o' s2 ⟨hs', ho'⟩ => ?_
  exact ⟨hs.trans hs', fun hc => ⟨s1, o, o', hs, rfl, ho (hc.back hs'), ho' hc⟩⟩

theorem skip : C.Emits T s (pure ()) 0 fun out => out = [] := Gen.wp_pure.2 ⟨.refl s, fun _ => rfl⟩

theorem emit {i : Instr} : C.Emits T s (Gen.emit i) 0 fun out => out = [.instr i] :=
  Gen.wp_emit.2 ⟨.refl s, fun _ => rfl⟩

theorem copy {d r : Reg} : C.Emits T s (Gen.copy d r) 0 fun out => out = [.instr (.mov .always d (.reg r))] :=
  emit

theorem grow {n : Int} :
    C.Emits T s (Gen.grow n) n fun out => out = (Gen.stepsOf .sub n.toNat).map .instr := by
  refine Gen.wp_bind_lines.2 (Gen.wp_deepen.2 ⟨⟨rfl, rfl, fun _ h => h, fun _ _ h => h⟩, fun _ => ?_⟩)
  rw [List.append_nil]

theorem shrink {n : Int} :
    C.Emits T s (Gen.shrink n) (-n) fun out => out = (Gen.stepsOf .add n.toNat).map .instr := by
  refine Gen.wp_bind_lines.2 (Gen.wp_deepen.2 ⟨⟨rfl, rfl, fun _ h => h, fun _ _ h => h⟩, fun _ => ?_⟩)
  rw [List.append_nil]

theorem pushReg {r : Reg} : C.Emits T s (Gen.pushReg r) 4 fun out => out = [.instr (.push [r])] :=
  Gen.wp_bind_emit.2 (Gen.wp_deepen.2 ⟨⟨rfl, rfl, fun _ h => h, fun _ _ h => h⟩, fun _ => rfl⟩)

theorem popReg {r : Reg} : C.Emits T s (Gen.popReg r) (-4) fun out => out = [.instr (.pop [r])] :=
  Gen.wp_bind_emit.2 (Gen.wp_deepen.2 ⟨⟨rfl, rfl, fun _ h => h, fun _ _ h => h⟩, fun _ => rfl⟩)

end Emits

/-! ## Calls -/

def callLines (depth : Int) (c : Cond) (f : Callee) : List Line :=
  (Gen.stepsOf .sub (Gen.padding depth).toNat).map .instr ++
    ([.instr (.call c f)] ++ (Gen.stepsOf .add (Gen.padding depth).toNat).map .instr)

section
variable {α : Type} {T : Table} {s : Stage} {k : Core} {c : Cond} {v : Variable}

theorem Emits.callOut {f : Callee} : C.Emits T s (Gen.callOut c f) 0 fun out => out = callLines s.depth c f := by
  refine Gen.wp_stage.2 ?_
  refine ((Emits.grow.seq fun s1 _ => Emits.emit.seq fun s2 _ => Emits.shrink).cast (by ring)).weaken ?_
  rintro _ ⟨_, _, _, -, rfl, rfl, _, _, _, -, rfl, rfl, rfl⟩
  rfl

theorem Emits.callRoutine {r : Routine} :
    C.Emits T s (Gen.callRoutine c r) 0 fun out =>
      out = callLines s.depth c (.label (.routine r)) ∧ ∀ q ∈ r :: r.needs, C.system.Provides q := by
  refine Gen.wp_useRoutine.2 (Gen.Wp.weaken (Emits.callOut (C := C)) ?_)
  rintro _ out s' ⟨hs, hout⟩
  refine ⟨⟨hs.depth, hs.entry, fun q hq => hs.used q (Routine.subset_use q hq), hs.shared⟩, fun hc => ?_⟩
  exact ⟨hout hc, hc.routines r (hs.used r Routine.mem_use)⟩

theorem yields_callLines {depth : Int} {f : Callee} {res : Option α} {Q : α → Core → Prop} (hk : C.Ready depth 16 k)
    (h : ∀ n ≤ 7, ∀ k1, k1 = k.set .sp (k.reg .sp - BitVec.ofNat 32 n) → k1.sp = k.sp - n → k1.sp % 8 = 0 → C.system.Yields [.instr (.call c f)] k1 res fun a k2 => k2.reg .sp = k1.reg .sp ∧ Q a (k2.set .sp (k.reg .sp))) :
    C.system.Yields (callLines depth c f) k res Q := by
  obtain ⟨h0, h7, hmod⟩ := Gen.padding_spec depth
  obtain ⟨n, hn⟩ := Int.eq_ofNat_of_zero_le h0
  have htop := C.aligned
  rw [callLines, hn, Int.toNat_natCast]
  refine (System.does_sub n).yields ?_
  rintro _ rfl
  have hlow : (k.set .sp (k.reg .sp - BitVec.ofNat 32 n)).reg .sp = k.reg .sp - BitVec.ofNat 32 n := by
    rw [Core.set_reg, if_pos rfl]
  obtain ⟨hready, hsp⟩ := (hk.le (n := 9 + n) (by omega)).deeper hlow
  have hd := hready.depth
  refine (h n (by omega) _ rfl hsp (by omega)).does ?_
  rintro a k2 ⟨hsp2, hQ⟩
  refine (System.does_add n).weaken ?_
  rintro _ rfl
  rw [hsp2, Core.set_reg, if_pos rfl, BitVec.sub_add_cancel]
  exact hQ

theorem Frame.lowered {rs : List Reg} {k2 : Core} {n : Nat}
    (hsp : (k.set .sp (k.reg .sp - BitVec.ofNat 32 n)).sp ≤ k.sp)
    (hf : Core.Frame C.floor rs (k.set .sp (k.reg .sp - BitVec.ofNat 32 n)) k2) :
    Core.Frame C.floor rs k (k2.set .sp (k.reg .sp)) := by
  refine ⟨fun r hr hv => ?_, fun a ha => hf.mem a (by omega)⟩
  rw [Core.set_reg]
  split_ifs with hr'
  · rw [hr']
  · rw [hf.regs r hr hv, Core.set_reg, if_neg hr']

theorem yields_overflow {depth : Int} (hk : C.Ready depth 16 k) (hp : C.system.Provides .throwOverflow) :
    C.system.Yields (callLines depth c (.label (.routine .throwOverflow))) k
      (if c.holds k.flags then none else some ()) fun _ k' => k' = k := by
  refine yields_callLines hk ?_
  rintro n - _ rfl - -
  obtain ⟨m, -, hfind, -⟩ := hp
  split_ifs with hc
  · exact System.Throws.call hc (by decide) hfind
  · rw [Bool.not_eq_true] at hc
    refine System.Yields.of_does (System.Does.call_skip hc ⟨rfl, ?_⟩)
    rw [Core.set_set, Core.set_self]

theorem yields_checkDivide {depth : Int} (hk : C.Ready depth 16 k)
    (hp : ∀ q ∈ [Routine.checkDivideByZero, .throwRuntime], C.system.Provides q) :
    C.system.Yields (callLines depth .always (.label (.routine .checkDivideByZero))) k
      (if k.reg .r1 = 0 then none else some ()) fun _ k' => Core.Frame C.floor [] k k' ∧
        k'.reg .r0 = k.reg .r0 ∧ k'.reg .r1 = k.reg .r1 := by
  refine yields_callLines hk ?_
  rintro n hn _ rfl hsp -
  have hroom := hk.room
  refine (System.yields_checkDivide C.floor (hp _ (by simp)) (hp _ (by simp)) (by omega)).weaken ?_
  rintro _ k2 ⟨hf, h0, h1⟩
  exact ⟨hf.sp (by simp), Frame.lowered (by omega) hf, h0, h1⟩

theorem yields_checkBounds {depth : Int} (hk : C.Ready depth 16 k)
    (hp : ∀ q ∈ [Routine.checkArrayBounds, .throwRuntime], C.system.Provides q)
    (hclear : Mem.Clear C.floor k.sp (k.reg .r1) 4) :
    C.system.Yields (callLines depth .always (.label (.routine .checkArrayBounds))) k
      (if (k.reg .r0).msb || (k.mem.load .word (k.reg .r1)).ule (k.reg .r0) then none else some ())
      fun _ k' => Core.Frame C.floor [] k k' ∧ k'.reg scratch = k.reg scratch := by
  refine yields_callLines hk ?_
  rintro n hn _ rfl hsp -
  have hroom := hk.room
  have hclear' : Mem.Clear C.floor (k.set .sp (k.reg .sp - BitVec.ofNat 32 n)).sp (k.reg .r1) 4 :=
    ⟨hclear.fits, hclear.apart.imp_right (le_trans (by omega))⟩
  refine System.Yields.weaken (System.yields_checkBounds (k := k.set .sp (k.reg .sp - BitVec.ofNat 32 n))
    C.floor (hp _ (by simp)) (hp _ (by simp)) (by omega) hclear') ?_
  rintro _ k2 ⟨hf, hscratch⟩
  exact ⟨hf.sp (by simp), Frame.lowered (by omega) hf, hscratch⟩

theorem does_divide {depth : Int} {e : Extern} (hk : C.Ready depth 16 k) (he : e = .idiv ∨ e = .idivmod) :
    C.system.Does (callLines depth .always (.extern_ e)) k fun k' => Core.Frame C.floor [] k k' ∧
      (e = .idiv → k.reg .r1 ≠ 0 → k'.reg .r0 = (k.reg .r0).sdiv (k.reg .r1)) ∧
      (e = .idivmod → k.reg .r1 ≠ 0 → k'.reg .r1 = (k.reg .r0).srem (k.reg .r1)) := by
  refine System.Does.of_yields (yields_callLines hk ?_)
  rintro n hn _ rfl hsp hmod
  have hroom := hk.room
  have hexit : e ≠ .exit := by rcases he with rfl | rfl <;> decide
  have hneed : C.need ≤ (k.set .sp (k.reg .sp - BitVec.ofNat 32 n)).sp := by omega
  have hcan : ∀ w, Library.CanCall C.need ((k.set .sp (k.reg .sp - BitVec.ofNat 32 n)).set .lr w) :=
    fun w => ⟨hmod, hneed⟩
  refine System.Yields.of_does (System.Does.call_lib hexit fun w => ?_)
  have hf : Core.Frame C.floor [] (k.set .sp (k.reg .sp - BitVec.ofNat 32 n))
      (C.system.lib e ((k.set .sp (k.reg .sp - BitVec.ofNat 32 n)).set .lr w)) := by
    have hr : ∀ r, r ∉ volatile → r ∉ Library.clobbered ∧ r ≠ .lr := by
      intro r
      cases r <;> decide
    have hlow : C.floor ≤ (k.set .sp (k.reg .sp - BitVec.ofNat 32 n)).sp - C.need := by omega
    refine ⟨fun r _ hv => ?_, fun a ha => ?_⟩
    · rw [C.lawful.regs e _ (hcan w) r (hr r hv).1, Core.set_reg, if_neg (hr r hv).2]
    · obtain ha | ha := ha
      · exact C.lawful.below e _ (hcan w) he a (lt_of_lt_of_le ha hlow)
      · exact C.lawful.above e _ (hcan w) a ha
  refine ⟨hf.sp (by simp), Frame.lowered (by omega) hf, ?_, ?_⟩
  · rintro rfl h1
    exact C.lawful.idiv _ (hcan w) h1
  · rintro rfl h1
    exact C.lawful.idivmod _ (hcan w) h1

/-! ## Variables and memory -/

theorem Emits.load {d base : Reg} {off : Int} {t : Ty} (hb : base ≠ scratch) :
    C.Emits T s (Gen.load d base off t) 0 fun out => ∀ k, C.system.Does out k fun k' =>
      k'.reg d = k.mem.load (Gen.widthOf t) (k.reg base + BitVec.ofInt 32 off) ∧
        Core.Frame C.floor [d] k k' := by
  obtain ⟨out, hrun, hdoes⟩ := Gen.load_lines (T := T) (s := s) d hb off t
  exact ⟨(), out, s, hrun, .refl s, fun _ k => hdoes C.system k C.floor⟩

def slot (C : Context) (v : Variable) (base : Int) : Word := BitVec.ofInt 32 (C.top - base - v.offset.toNat)

theorem slot_eq {base depth : Int} (h : (k.sp : Int) + depth = C.top) :
    k.reg .sp + BitVec.ofInt 32 (depth - base - v.offset.toNat) = C.slot v base := by
  have hsp : k.reg .sp = BitVec.ofInt 32 k.sp := by
    rw [Core.sp, BitVec.ofInt_natCast, BitVec.ofNat_toNat, BitVec.setWidth_eq]
  rw [hsp, ← BitVec.ofInt_add, slot, ← h]
  congr 1
  ring

theorem Emits.loadVar {d : Reg} {x : VarId} {base : Int} (hv : T.var? x = some v)
    (hb : s.entry.lookup v.scope = some base) (h0 : 0 ≤ s.depth - base - v.offset.toNat) :
    C.Emits T s (Gen.loadVar d x) 0 fun out => ∀ k, (k.sp : Int) + s.depth = C.top →
      C.system.Does out k fun k' => k'.reg d = k.mem.load (Gen.widthOf v.type) (C.slot v base) ∧
        Core.Frame C.floor [d] k k' := by
  refine (Gen.wp_bind_pure (Gen.slot_eq hv hb h0)).2 ?_
  refine Gen.Wp.weaken (Emits.load (C := C) (by decide)) fun _ out s' ⟨hs, hout⟩ => ⟨hs, fun hc k hk => ?_⟩
  rw [← slot_eq hk]
  exact hout hc k

end

end Context

end Wacc.Arm
