/-
  Code for expressions computes their values.
-/
import Wacc.Proofs.Arm.Expr
import Wacc.Proofs.Machine.Emit
import Wacc.Proofs.Machine.Words

namespace Wacc.Arm

variable {C : Context} {T : Table} {s : Stage}

theorem pool_kept {r : Reg} (h : r ∈ scratch :: pool) :
    r ≠ .sp ∧ r ≠ .pc ∧ r ≠ .lr ∧ r ≠ .r0 ∧ r ≠ .r1 := by
  revert h
  cases r <;> decide

theorem pool_stays {r : Reg} (h : r ∈ pool) : r ∉ volatile := by
  revert h
  cases r <;> decide

namespace Context

/-! ## Operators -/

theorem Emits.checked {op : Alu} {f : Word → Word → Flags} (hop : ∀ x y, op.flags? x y = some (f x y))
    {d a : Reg} {b : Operand} (hd : d ∈ pool) :
    C.Emits T s (do Gen.emit (.alu op d a b); Gen.callRoutine .vs .throwOverflow) 0 fun out =>
      ∀ k, C.Ready s.depth 16 k → C.system.Yields out k
        (if (f (k.reg a) (b.value k)).v then none else some (op.apply (k.reg a) (b.value k)))
        fun w k' => k'.reg d = w ∧ Core.Frame C.floor [d] k k' := by
  refine ((Emits.emit.seq fun s1 _ => Emits.callRoutine).cast (by ring)).weaken ?_
  rintro _ ⟨s1, _, _, hs1, rfl, rfl, rfl, hp⟩ k hk
  have hdepth : s1.depth = s.depth := by rw [hs1.depth, add_zero]
  have hsp := (pool_kept (List.mem_cons_of_mem _ hd)).1
  set k1 := Instr.effect C.system.image.address k (.alu op d a b) with hk1
  have hreg : k1.reg d = op.apply (k.reg a) (b.value k) := by simp [hk1, Instr.effect]
  have hflags : k1.flags = f (k.reg a) (b.value k) := by simp [hk1, Instr.effect, hop]
  have hf : Core.Frame C.floor [d] k k1 :=
    ((Core.Frame.refl C.floor [d] k).set (.inl (by simp))).flags
  have hstart : C.system.Does [.instr (.alu op d a b)] k (· = k1) := .instr rfl rfl
  refine hstart.yields ?_
  rintro _ rfl
  rw [hdepth]
  have hthrow := yields_overflow (c := .vs) (hk.frame hf (by simpa using hsp.symm)) (hp _ (by simp))
  simp only [Cond.holds, hflags] at hthrow
  refine hthrow.guard ?_
  rintro _ rfl
  exact ⟨hreg, hf⟩

theorem Emits.compare {op : BinOp} {yes no : Cond} (hc : Gen.conditions? op = some (yes, no)) {d l r : Reg} :
    C.Emits T s (do
      Gen.emit (.cmp l (.reg r))
      Gen.emit (.mov yes d (.imm 1))
      Gen.emit (.mov no d (.imm 0))) 0 fun out => ∀ k, C.system.Does out k fun k' =>
        k'.reg d = bit (op.compare (k.reg l) (k.reg r)) ∧ Core.Frame C.floor [d] k k' := by
  refine ((Emits.emit.seq fun s1 _ => Emits.emit.seq fun s2 _ => Emits.emit).cast (by ring)).weaken ?_
  rintro _ ⟨_, _, _, -, rfl, rfl, _, _, _, -, rfl, rfl, rfl⟩ k
  obtain ⟨hyes, hno⟩ := holds_conditions (k.reg l) (k.reg r) hc
  refine .cons rfl (.cons rfl (.instr rfl ?_))
  simp only [Instr.effect, Operand.value, hyes]
  have hf := (Core.Frame.refl C.floor [d] k).flags (f := .ofSub (k.reg l) (k.reg r))
  cases hb : op.compare (k.reg l) (k.reg r) with
  | true =>
    simp only [hno, hb, Core.set_flags, if_true, Bool.not_true, Bool.false_eq_true, if_false]
    exact ⟨by rw [Core.set_reg, if_pos rfl]; rfl, hf.set (.inl (by simp))⟩
  | false =>
    simp only [hno, hb, Bool.not_false, Bool.false_eq_true, if_false, if_true]
    exact ⟨by rw [Core.set_reg, if_pos rfl]; rfl, hf.set (.inl (by simp))⟩

theorem Emits.product {d x l r : Reg} (hd : d ∈ pool) (hx : x ∈ scratch :: pool) (hne : x ≠ d) :
    C.Emits T s (do
      Gen.emit (.smull d x l r)
      Gen.emit (.cmp x (.asr d 31))
      Gen.callRoutine .ne .throwOverflow) 0 fun out => ∀ k, C.Ready s.depth 16 k →
        C.system.Yields out k (BinOp.word (k.reg l) (k.reg r) .mul)
          fun w k' => k'.reg d = w ∧ Core.Frame C.floor [d, x] k k' := by
  refine ((Emits.emit.seq fun s1 _ => Emits.emit.seq fun s2 _ => Emits.callRoutine).cast (by ring)).weaken ?_
  rintro _ ⟨s1, _, _, hs1, rfl, rfl, s2, _, _, hs2, rfl, rfl, rfl, hp⟩ k hk
  have hdepth : s2.depth = s.depth := by rw [hs2.depth, hs1.depth, add_zero, add_zero]
  set p := (k.reg l).toInt * (k.reg r).toInt with hpr
  set k1 : Core := { (k.set d (BitVec.ofInt 32 p)).set x (BitVec.ofInt 32 (p / 2 ^ 32)) with
    flags := .ofSub (BitVec.ofInt 32 (p / 2 ^ 32)) ((BitVec.ofInt 32 p).sshiftRight 31) } with hk1
  have hreg : k1.reg d = k.reg l * k.reg r := by
    simp only [hk1, Core.set_reg, if_neg hne.symm, if_true, hpr, BitVec.ofInt_mul, BitVec.ofInt_toInt]
  have hf : Core.Frame C.floor [d, x] k k1 :=
    (((Core.Frame.refl C.floor [d, x] k).set (.inl (by simp))).set (.inl (by simp))).flags
  have hstart : C.system.Does ([.instr (.smull d x l r)] ++ [.instr (.cmp x (.asr d 31))]) k (· = k1) := by
    refine .cons rfl (.instr rfl ?_)
    simp only [Instr.effect, Operand.value, Core.set_reg, if_true, if_neg hne.symm]
    rfl
  rw [← List.append_assoc]
  refine hstart.yields ?_
  rintro _ rfl
  rw [hdepth]
  have hsp : .sp ∉ [d, x] := by
    simpa using ⟨(pool_kept (List.mem_cons_of_mem _ hd)).1.symm, (pool_kept hx).1.symm⟩
  have hthrow := yields_overflow (c := .ne) (hk.frame hf hsp) (hp _ (by simp))
  have hne : Cond.ne.holds k1.flags = BitVec.smulOverflow (k.reg l) (k.reg r) := by
    show (!_) = _
    rw [← Bool.not_not (BitVec.smulOverflow _ _), ← product_fits]
    rfl
  rw [hne] at hthrow
  refine hthrow.guard ?_
  rintro _ rfl
  exact ⟨hreg, hf⟩

theorem Emits.divide {e : Extern} {d l r q : Reg} {f : Word → Word → Word} (hd : d ∈ pool)
    (hr : r ∈ scratch :: pool)
    (he : e = .idiv ∧ q = .r0 ∧ f = BitVec.sdiv ∨ e = .idivmod ∧ q = .r1 ∧ f = BitVec.srem) :
    C.Emits T s (do
      Gen.copy .r0 l
      Gen.copy .r1 r
      Gen.callRoutine .always .checkDivideByZero
      Gen.callExtern e
      Gen.copy d q) 0 fun out => ∀ k, C.Ready s.depth 16 k →
        C.system.Yields out k (if k.reg r = 0 then none else some (f (k.reg l) (k.reg r)))
          fun w k' => k'.reg d = w ∧ Core.Frame C.floor [d] k k' := by
  refine ((Emits.copy.seq fun s1 _ => Emits.copy.seq fun s2 _ => Emits.callRoutine.seq fun s3 _ =>
    Emits.callOut.seq fun s4 _ => Emits.copy).cast (by ring)).weaken ?_
  rintro _ ⟨s1, _, _, hs1, rfl, rfl, s2, _, _, hs2, rfl, rfl, s3, _, _, hs3, rfl, ⟨rfl, hp⟩, s4, _, _, -, rfl,
    rfl, rfl⟩ k hk
  have hdepth₂ : s2.depth = s.depth := by rw [hs2.depth, hs1.depth, add_zero, add_zero]
  have hdepth₃ : s3.depth = s.depth := by rw [hs3.depth, hdepth₂, add_zero]
  rw [hdepth₂, hdepth₃]
  obtain ⟨-, -, -, hr0, -⟩ := pool_kept hr
  set k1 := (k.set .r0 (k.reg l)).set .r1 (k.reg r) with hk1
  have hstart : C.system.Does ([.instr (.mov .always .r0 (.reg l))] ++ [.instr (.mov .always .r1 (.reg r))]) k
      (· = k1) := by
    refine .cons rfl (.instr rfl ?_)
    simp only [Instr.effect, Cond.holds, if_true, Operand.value, Core.set_reg, if_neg hr0]
    rfl
  have hf1 : Core.Frame C.floor [d] k k1 :=
    ((Core.Frame.refl C.floor [d] k).set (.inr (by decide))).set (.inr (by decide))
  have hsp : .sp ∉ [d] := by simpa using (pool_kept (List.mem_cons_of_mem _ hd)).1.symm
  have hres : (if k.reg r = 0 then none else some (f (k.reg l) (k.reg r))) =
      (if k.reg r = 0 then none else some ()).bind fun _ => some (f (k.reg l) (k.reg r)) := by
    split_ifs <;> rfl
  rw [hres, ← List.append_assoc]
  refine hstart.yields ?_
  rintro _ rfl
  refine (yields_checkDivide (hk.frame hf1 hsp) hp).seq ?_
  rintro _ k2 hne ⟨hf2, h0, h1⟩
  have hr1 : k2.reg .r1 ≠ 0 := by
    rw [h1]
    intro h
    simp [h] at hne
  have hf2 := hf1.trans (hf2.mono (by simp)) hsp
  refine System.Yields.of_does ((does_divide (hk.frame hf2 hsp) (he.imp And.left And.left)).seq ?_)
  rintro k3 ⟨hf3, hdiv, hmod⟩
  have hf3 := hf2.trans (hf3.mono (by simp)) hsp
  refine .instr rfl ⟨?_, hf3.set (.inl (by simp))⟩
  simp only [Instr.effect, Cond.holds, if_true, Operand.value, Core.set_reg]
  rcases he with ⟨rfl, rfl, rfl⟩ | ⟨rfl, rfl, rfl⟩
  · rw [hdiv rfl hr1, h0, h1]; rfl
  · rw [hmod rfl hr1, h0, h1]; rfl

theorem Emits.apply {op : BinOp} {rule : BinRule} {d x l r : Reg} (ho : op.rule? = some rule) (hd : d ∈ pool)
    (hx : x ∈ scratch :: pool) (hne : x ≠ d) (hlr : l = d ∧ r = x ∨ l = x ∧ r = d) :
    C.Emits T s (Gen.apply op d l r) 0 fun out => ∀ k, C.Ready s.depth 16 k →
      C.system.Yields out k (op.word (k.reg l) (k.reg r))
        fun w k' => k'.reg d = w ∧ Core.Frame C.floor [d, x] k k' := by
  have hr : r ∈ scratch :: pool := by
    rcases hlr with ⟨-, rfl⟩ | ⟨-, rfl⟩
    · exact hx
    · exact List.mem_cons_of_mem _ hd
  have hhi : (if r = d then l else r) = x := by
    rcases hlr with ⟨rfl, rfl⟩ | ⟨rfl, rfl⟩
    · exact if_neg hne
    · exact if_pos rfl
  -- the register `x` is changed by products only
  have hwide : ∀ {out : List Line} {res : Core → Option Word}, (∀ k, C.Ready s.depth 16 k →
      C.system.Yields out k (res k) fun w k' => k'.reg d = w ∧ Core.Frame C.floor [d] k k') →
      ∀ k, C.Ready s.depth 16 k → C.system.Yields out k (res k)
        fun w k' => k'.reg d = w ∧ Core.Frame C.floor [d, x] k k' := fun h k hk =>
    (h k hk).weaken fun _ _ ⟨hw, hf⟩ => ⟨hw, hf.mono (by simp)⟩
  have hcompare : ∀ {yes no : Cond}, Gen.conditions? op = some (yes, no) →
      (∀ a b, op.word a b = some (bit (op.compare a b))) → C.Emits T s (do
        Gen.emit (.cmp l (.reg r))
        Gen.emit (.mov yes d (.imm 1))
        Gen.emit (.mov no d (.imm 0))) 0 fun out => ∀ k, C.Ready s.depth 16 k →
          C.system.Yields out k (op.word (k.reg l) (k.reg r))
            fun w k' => k'.reg d = w ∧ Core.Frame C.floor [d, x] k k' := by
    intro yes no hc hword
    refine (Emits.compare hc).weaken fun out hout => hwide fun k _ => ?_
    rw [hword]
    exact System.Yields.of_does (hout k)
  have hlogic : ∀ {f : Alu}, (∀ a b, op.word a b = some (f.apply a b)) →
      C.Emits T s (Gen.emit (.alu f d l (.reg r))) 0 fun out => ∀ k, C.Ready s.depth 16 k →
        C.system.Yields out k (op.word (k.reg l) (k.reg r))
          fun w k' => k'.reg d = w ∧ Core.Frame C.floor [d, x] k k' := by
    intro f hword
    refine Emits.emit.weaken ?_
    rintro _ rfl
    refine hwide fun k _ => ?_
    rw [hword]
    refine System.Yields.of_does (.instr rfl ⟨?_, ?_⟩)
    · simp only [Instr.effect, Operand.value, Core.set_reg, if_true]
    · exact ((Core.Frame.refl C.floor [d] k).set (.inl (by simp))).flags
  cases op with
  | add => exact (Emits.checked (f := .ofAdd) (fun _ _ => rfl) hd).weaken fun _ h => hwide h
  | sub => exact (Emits.checked (f := .ofSub) (fun _ _ => rfl) hd).weaken fun _ h => hwide h
  | mul =>
    rw [Gen.apply, hhi]
    exact Emits.product hd hx hne
  | div => exact (Emits.divide hd hr (.inl ⟨rfl, rfl, rfl⟩)).weaken fun _ h => hwide h
  | mod => exact (Emits.divide hd hr (.inr ⟨rfl, rfl, rfl⟩)).weaken fun _ h => hwide h
  | and => exact hlogic fun _ _ => rfl
  | or => exact hlogic fun _ _ => rfl
  | unknown => simp [BinOp.rule?] at ho
  | _ => exact hcompare rfl fun _ _ => rfl

theorem Emits.applyUnary {op : UnOp} {rule : UnRule} {d : Reg} (ho : op.rule? = some rule) (hd : d ∈ pool) :
    C.Emits T s (Gen.applyUnary op d) 0 fun out => ∀ (mem : Mem) k, C.Ready s.depth 16 k →
      (op = .len → k.mem.load .word (k.reg d) = mem.load .word (k.reg d)) →
      C.system.Yields out k (op.word mem (k.reg d))
        fun w k' => k'.reg d = w ∧ Core.Frame C.floor [d] k k' := by
  cases op with
  | not =>
    refine Emits.emit.weaken ?_
    rintro _ rfl mem k - -
    refine System.Yields.of_does (.instr rfl ⟨?_, ?_⟩)
    · simp only [Instr.effect, Operand.value, Core.set_reg, if_true]
      rfl
    · exact ((Core.Frame.refl C.floor [d] k).set (.inl (by simp))).flags
  | minus =>
    exact (Emits.checked (f := fun a b => .ofSub b a) (fun _ _ => rfl) hd).weaken fun _ h _ k hk _ => h k hk
  | len =>
    refine Emits.emit.weaken ?_
    rintro _ rfl mem k - hlen
    refine System.Yields.of_does (.instr rfl ⟨?_, (Core.Frame.refl C.floor [d] k).set (.inl (by simp))⟩)
    simp only [Instr.effect, Address.value, Core.set_reg, if_true]
    rw [← hlen rfl]
    exact congrArg _ (BitVec.add_zero _)
  | ord | chr =>
    refine Emits.skip.weaken ?_
    rintro _ rfl mem k - -
    exact System.Yields.of_does (.nil ⟨rfl, .refl C.floor [d] k⟩)
  | unknown => simp [UnOp.rule?] at ho

/-! ## Elements of arrays -/

variable {rest : List Reg} {w : Word} {is : List Expr} {arr i : Reg}

theorem Emits.step {t : Ty} (harr : arr ∈ pool) (hi : i ∈ scratch :: pool) (hne : i ≠ arr) :
    C.Emits T s (Gen.step arr i t) 0 fun out => ∀ (V : View) k, C.Ready s.depth 16 k →
      Mem.Clear C.floor k.sp (k.reg arr) 4 →
      k.mem.load .word (k.reg arr) = V.mem.load .word (k.reg arr) →
      C.system.Yields out k (V.step (k.reg arr) (k.reg i) t.size.toNat)
        fun w k' => k'.reg arr = w ∧ Core.Frame C.floor [arr] k k' := by
  refine ((Emits.copy.seq fun s1 _ => Emits.copy.seq fun s2 _ => Emits.callRoutine.seq fun s3 _ =>
    Emits.emit.seq fun s4 _ => Emits.emit).cast (by ring)).weaken ?_
  rintro _ ⟨s1, _, _, hs1, rfl, rfl, s2, _, _, hs2, rfl, rfl, s3, _, _, -, rfl, ⟨rfl, hp⟩, s4, _, _, -, rfl,
    rfl, rfl⟩ V k hk hclear hlen
  have hdepth : s2.depth = s.depth := by rw [hs2.depth, hs1.depth, add_zero, add_zero]
  rw [hdepth]
  obtain ⟨hsp, -, -, hr0, hr1⟩ := pool_kept (List.mem_cons_of_mem _ harr)
  obtain ⟨-, -, -, hi0, hi1⟩ := pool_kept hi
  set k1 := (k.set .r0 (k.reg i)).set .r1 (k.reg arr) with hk1
  have hstart : C.system.Does ([.instr (.mov .always .r0 (.reg i))] ++ [.instr (.mov .always .r1 (.reg arr))]) k
      (· = k1) := by
    refine .cons rfl (.instr rfl ?_)
    simp only [Instr.effect, Cond.holds, if_true, Operand.value, Core.set_reg, if_neg hr0]
    rfl
  have hf1 : Core.Frame C.floor [arr] k k1 :=
    ((Core.Frame.refl C.floor [arr] k).set (.inr (by decide))).set (.inr (by decide))
  have hspr : .sp ∉ [arr] := by simpa using hsp.symm
  have hcheck := yields_checkBounds (hk.frame hf1 hspr) hp hclear
  have hres : V.step (k.reg arr) (k.reg i) t.size.toNat =
      (if (k1.reg .r0).msb || (k1.mem.load .word (k1.reg .r1)).ule (k1.reg .r0) then none else some ()).bind
        fun _ => some (k.reg arr + 4 + if t.size.toNat = 4 then k.reg i <<< 2 else k.reg i) := by
    rw [View.step, ← hlen]
    simp only [hk1, Core.set_reg, Core.set_mem, if_true, reduceCtorEq, if_false]
    split_ifs <;> rfl
  rw [hres, ← List.append_assoc]
  refine hstart.yields ?_
  rintro _ rfl
  refine hcheck.seq ?_
  rintro _ k2 - ⟨hf2, hscratch⟩
  have hf2' := hf1.trans (hf2.mono (by simp)) hspr
  -- the registers of the array and of the index are as before
  have hreg : ∀ r ∈ scratch :: pool, k2.reg r = k.reg r := by
    intro r hr
    obtain ⟨-, -, -, h0, h1⟩ := pool_kept hr
    have hk₁r : k1.reg r = k.reg r := by
      simp only [hk1, Core.set_reg, if_neg h0, if_neg h1]
    rw [← hk₁r]
    rcases List.mem_cons.1 hr with rfl | hr
    · exact hscratch
    · exact hf2.regs r (by simp) (pool_stays hr)
  have hsize : t.size = 4 ↔ t.size.toNat = 4 := UInt32.toNat_inj.symm
  refine System.Yields.of_does (.cons rfl (.instr rfl ⟨?_, ?_⟩))
  · simp only [Instr.effect, Operand.value, Alu.apply, Core.set_reg, if_true, hsize]
    split_ifs <;> simp only [if_neg hne, hreg _ (List.mem_cons_of_mem _ harr), hreg _ hi] <;> rfl
  · exact ((hf2'.set (.inl (by simp))).flags.set (.inl (by simp))).flags

/-! ## Expressions -/

/-- The variables of the view are those that the memory of the view holds in their slots, and calls
    leave these bytes alone. -/
def Holds (C : Context) (T : Table) (s : Stage) (V : View) (limit : Nat) (xs : List VarId) : Prop :=
  ∀ x ∈ xs, ∀ v base, T.var? x = some v → s.entry.lookup v.scope = some base →
    V.var x = V.mem.load (Gen.widthOf v.type) (C.slot v base) ∧
      Mem.Clear C.floor limit (C.slot v base) (Gen.widthOf v.type).bytes

/-- The machine has the memory of the view, but for the bytes that calls and pushed values use. -/
structure Sees (C : Context) (V : View) (limit : Nat) (k : Core) : Prop where
  le : k.sp ≤ limit
  mem : ∀ a : Word, a.toNat < C.floor ∨ limit ≤ a.toNat → k.mem a = V.mem a

namespace Holds

variable {V : View} {limit : Nat} {xs ys : List VarId} {s' : Stage} {j : Int}

theorem mono (h : C.Holds T s V limit xs) (hys : ∀ y ∈ ys, y ∈ xs) : C.Holds T s V limit ys :=
  fun y hy => h y (hys y hy)

theorem shift (h : C.Holds T s V limit xs) (hs : s.Shift j s') : C.Holds T s' V limit xs :=
  fun x hx v base hv hb => h x hx v base hv (hs.entry ▸ hb)

end Holds

theorem HasSlot.shift {x : VarId} {s' : Stage} {j : Int} (h : Gen.HasSlot T s x) (hs : s.Shift j s') (hj : 0 ≤ j) :
    Gen.HasSlot T s' x := by
  obtain ⟨v, base, hv, hb, h0⟩ := h
  have hd := hs.depth
  exact ⟨v, base, hv, by rw [hs.entry]; exact hb, by omega⟩

namespace Sees

variable {V : View} {limit : Nat} {k k' : Core} {rs : List Reg}

theorem frame (h : C.Sees V limit k) (hf : Core.Frame C.floor rs k k') (hs : .sp ∉ rs) : C.Sees V limit k' := by
  have hsp : k'.sp = k.sp := by rw [Core.sp, hf.sp hs, Core.sp]
  have hle := h.le
  exact ⟨by omega, fun a ha => (hf.mem a (by omega)).trans (h.mem a ha)⟩

theorem load {w : Width} {a : Word} (h : C.Sees V limit k) (ha : Mem.Clear C.floor limit a w.bytes) :
    k.mem.load w a = V.mem.load w a := ha.load_eq h.mem

end Sees

/-- The machine is where code starts: it has the variables `xs` of a view, its memory, and room on the
    stack. -/
structure Start (C : Context) (T : Table) (s : Stage) (xs : List VarId) (room : Nat) (V : View) (limit : Nat)
    (k : Core) : Prop where
  const : V.const = C.const
  holds : C.Holds T s V limit xs
  ready : C.Ready s.depth room k
  sees : C.Sees V limit k

namespace Start

variable {V : View} {limit room room' : Nat} {xs ys : List VarId} {k k' : Core} {s' : Stage}

theorem next {rs : List Reg} (h : C.Start T s xs room V limit k) (hs : s.Shift 0 s')
    (hf : Core.Frame C.floor rs k k') (hrs : .sp ∉ rs) (hys : ∀ y ∈ ys, y ∈ xs) (hroom : room' ≤ room) :
    C.Start T s' ys room' V limit k' := by
  refine ⟨h.const, (h.holds.mono hys).shift hs, ?_, h.sees.frame hf hrs⟩
  rw [hs.depth, add_zero]
  exact (h.ready.frame hf hrs).le hroom

theorem part (h : C.Start T s xs room V limit k) (hys : ∀ y ∈ ys, y ∈ xs) (hroom : room' ≤ room) :
    C.Start T s ys room' V limit k :=
  ⟨h.const, h.holds.mono hys, h.ready.le hroom, h.sees⟩

end Start

/-- The code of the expression is generated for all registers that are free; it computes the word of the
    expression, or stops the program. -/
def Computes (C : Context) (T : Table) (e : Expr) : Prop :=
  ∀ (d : Reg) (rest : List Reg) (s : Stage), Gen.Free (d :: rest) → (d :: rest).Nodup →
    (∀ x ∈ e.vars, Gen.HasSlot T s x) → C.Emits T s (Gen.expr e (d :: rest)) 0 fun out =>
      ∀ V limit k, C.Start T s e.vars (4 * e.size + 16) V limit k → e.Safe V C.floor limit →
        C.system.Yields out k (e.word V) fun w k' => k'.reg d = w ∧ Core.Frame C.floor (d :: rest) k k'


theorem Pushed.pop {rs : List Reg} {k k1 k2 : Core} {r : Reg} (hp : k.Pushed w k1) (hf : Core.Frame C.floor rs k1 k2)
    (hs : .sp ∉ rs) (h4 : C.floor + 4 ≤ k.sp) (hr : r ∈ rs ∨ r ∈ volatile) :
    k2.mem.load .word (k2.reg .sp) = w ∧
      Core.Frame C.floor rs k ((k2.set r w).set .sp (k2.reg .sp + 4#32)) := by
  have hlt := (k.reg .sp).isLt
  have hsp : k2.reg .sp = k.reg .sp - 4#32 := (hf.sp hs).trans hp.sp
  have hto : k1.sp = k.sp - 4 := by
    simp only [Core.sp] at h4 ⊢
    rw [hp.sp, BitVec.toNat_sub]
    simp only [BitVec.toNat_ofNat]
    omega
  have hlt' : k.sp < 2 ^ 32 := hlt
  refine ⟨?_, fun q hq hv => ?_, fun a ha => ?_⟩
  · rw [hf.sp hs, ← hp.top]
    exact Mem.load_congr (by show k1.sp + 4 ≤ _; omega) fun b hb _ => hf.mem b (.inr hb)
  · rw [Core.set_reg, Core.set_reg]
    split_ifs with h1 h2
    · rw [h1, hsp, BitVec.sub_add_cancel]
    · subst h2
      exact absurd hr (not_or.2 ⟨hq, hv⟩)
    · rw [hf.regs q hq hv, hp.regs q h1]
  · show k2.mem a = k.mem a
    rw [hf.mem a (by omega), hp.mem a (by omega)]

theorem Start.pushed {s' : Stage} {xs ys : List VarId} {room room' limit : Nat} {V : View} {k k1 : Core}
    (h : C.Start T s xs room V limit k) (hs : s.Shift 4 s') (hp : k.Pushed w k1) (hys : ∀ y ∈ ys, y ∈ xs)
    (hroom : room' + 4 ≤ room) : C.Start T s' ys room' V limit k1 := by
  obtain ⟨hready, hsp⟩ := (h.ready.le hroom).deeper (n := 4) hp.sp
  have hle := h.sees.le
  have hr := h.ready.room
  refine ⟨h.const, (h.holds.mono hys).shift hs, ?_, by omega, fun a ha => ?_⟩
  · rw [hs.depth]
    exact hready
  · exact (hp.mem a (by omega)).trans (h.sees.mem a ha)

theorem Emits.variable {d : Reg} {x : VarId} (h : Gen.HasSlot T s x) :
    C.Emits T s (Gen.loadVar d x) 0 fun out => ∀ xs room V limit k, C.Start T s xs room V limit k → x ∈ xs →
      C.system.Does out k fun k' => k'.reg d = V.var x ∧ Core.Frame C.floor [d] k k' := by
  obtain ⟨v, base, hv, hb, h0⟩ := h
  refine (Emits.loadVar hv hb h0).weaken fun out hout xs room V limit k hk hx => ?_
  obtain ⟨hvar, hclear⟩ := hk.holds x hx v base hv hb
  rw [hvar, ← hk.sees.load hclear]
  exact hout k hk.ready.depth

theorem Emits.const {d : Reg} {t : Text} :
    C.Emits T s (do Gen.emit (.address .always d (← Gen.stringConst t))) 0 fun out =>
      ∀ k, C.system.Does out k fun k' => k'.reg d = C.const t ∧ Core.Frame C.floor [d] k k' := by
  have haddress : ∀ {n : Nat}, C.system.image.const n = C.const t → ∀ k,
      C.system.Does [.instr (.address .always d (.const n))] k fun k' =>
        k'.reg d = C.const t ∧ Core.Frame C.floor [d] k k' := by
    intro n hn k
    refine .instr rfl ⟨?_, (Core.Frame.refl C.floor [d] k).set (.inl (by simp))⟩
    simp only [Instr.effect, Cond.holds, if_true, Core.set_reg]
    exact hn
  cases hlook : s.shared.lookup t with
  | some n =>
    have hconst : Gen.stringConst t T s = .ok (.const n, [], s) := by
      rw [Gen.stringConst, Gen.run_bind (show Gen.stage T s = .ok (s, [], s) from rfl), hlook]
      rfl
    exact (Gen.wp_bind_pure hconst).2 (Gen.wp_emit.2 ⟨.refl s, fun hc => haddress (hc.consts t n hlook)⟩)
  | none =>
    set s' : Stage := { s with consts := s.consts ++ [t], shared := s.shared ++ [(t, s.consts.length)] } with hs'
    have hconst : Gen.stringConst t T s = .ok (.const s.consts.length, [], s') := by
      rw [Gen.stringConst, Gen.run_bind (show Gen.stage T s = .ok (s, [], s) from rfl), hlook]
      rfl
    have hmore : ∀ u n, s.shared.lookup u = some n → s'.shared.lookup u = some n := by
      intro u n hu
      rw [hs', List.lookup_append, hu, Option.some_or]
    have hnew : s'.shared.lookup t = some s.consts.length := by
      rw [hs', List.lookup_append, hlook, Option.none_or, List.lookup_cons_self]
    exact (Gen.wp_bind_pure hconst).2 (Gen.wp_emit.2 ⟨⟨by simp [hs'], rfl, fun _ h => h, hmore⟩,
      fun hc => haddress (hc.consts t _ hnew)⟩)

/-! ## The way to an element -/

theorem sp_notMem {rs : List Reg} (h : Gen.Free rs) : .sp ∉ rs := fun hs => absurd (h _ hs) (by decide)

def Reaches (C : Context) (T : Table) (s : Stage) (array : Ty) (done : Nat) (is : List Expr) (arr : Reg)
    (rest : List Reg) (out : List Line) : Prop :=
  ∀ V limit k, C.Start T s (Expr.varsAll is) (4 * (1 + Expr.sizes is) + 16) V limit k →
    Expr.SafePlace V C.floor limit array done is (k.reg arr) →
    C.system.Yields out k (Expr.place V array done is (k.reg arr))
      fun w k' => k'.reg arr = w ∧ Core.Frame C.floor (arr :: rest) k k'

theorem indices_tail {array t : Ty} {done : Nat} (ht : array.nested (done + 1).toUInt32 = .ok t)
    (hf : Gen.Free (arr :: rest)) (hi : i ∈ scratch :: pool) (hne : i ≠ arr) (hrest : ∀ s', s.Shift 0 s' → C.Emits T
      s' (Gen.indices array (done + 1) is arr rest) 0 (C.Reaches T s' array (done + 1) is arr rest)) :
    C.Emits T s (do
        Gen.step arr i (← Gen.lift (array.nested (done + 1).toUInt32))
        if !is.isEmpty then Gen.emit (.load .word arr (.offset arr 0))
        Gen.indices array (done + 1) is arr rest) 0 fun out => ∀ V limit k,
      C.Start T s (Expr.varsAll is) (4 * (1 + Expr.sizes is) + 16) V limit k →
      Mem.Clear C.floor limit (k.reg arr) 4 →
      (∀ a', V.step (k.reg arr) (k.reg i) (array.stride (done + 1)) = some a' →
        (is ≠ [] → Mem.Clear C.floor limit a' 4) ∧ Expr.SafePlace V C.floor limit array (done + 1) is
          (if is.isEmpty then a' else V.mem.load .word a')) →
      C.system.Yields out k ((V.step (k.reg arr) (k.reg i) (array.stride (done + 1))).bind fun a' =>
          Expr.place V array (done + 1) is (if is.isEmpty then a' else V.mem.load .word a'))
        fun w k' => k'.reg arr = w ∧ Core.Frame C.floor (arr :: rest) k k' := by
  have harr : arr ∈ pool := hf arr List.mem_cons_self
  have hsp := sp_notMem hf
  have hstride : array.stride (done + 1) = t.size.toNat := by rw [Ty.stride, ht]
  refine (Gen.wp_lift ht).2 ?_
  -- the register of the array after the step, and what is there at its address
  have hloaded : ∀ s1 : Stage, s.Shift 0 s1 → C.Emits T s1 (do
      if !is.isEmpty then Gen.emit (.load .word arr (.offset arr 0))
      Gen.indices array (done + 1) is arr rest) 0 fun out => ∀ V limit k,
      C.Start T s1 (Expr.varsAll is) (4 * (1 + Expr.sizes is) + 16) V limit k →
      (is ≠ [] → Mem.Clear C.floor limit (k.reg arr) 4) →
      Expr.SafePlace V C.floor limit array (done + 1) is
        (if is.isEmpty then k.reg arr else V.mem.load .word (k.reg arr)) →
      C.system.Yields out k (Expr.place V array (done + 1) is
          (if is.isEmpty then k.reg arr else V.mem.load .word (k.reg arr)))
        fun w k' => k'.reg arr = w ∧ Core.Frame C.floor (arr :: rest) k k' := by
    intro s1 hs1
    cases is with
    | nil =>
      exact (hrest s1 hs1).weaken fun out hout V limit k hk _ hsafe => hout V limit k hk hsafe
    | cons i is =>
      refine ((Emits.emit.seq fun s2 hs2 => hrest s2 ((hs1.trans hs2).cast (by ring))).cast (by ring)).weaken ?_
      rintro _ ⟨s2, _, o, hs2, rfl, rfl, hout⟩ V limit k hk hclear hsafe
      have hload : k.mem.load .word (k.reg arr) = V.mem.load .word (k.reg arr) := hk.sees.load (hclear nofun)
      set k1 := k.set arr (V.mem.load .word (k.reg arr)) with hk1
      have hstart : C.system.Does [.instr (.load .word arr (.offset arr 0))] k (· = k1) := by
        refine .instr rfl ?_
        rw [hk1, ← hload]
        exact congrArg (fun a => k.set arr (k.mem.load .word a)) (BitVec.add_zero _)
      have hf1 : Core.Frame C.floor (arr :: rest) k k1 := (Core.Frame.refl _ _ k).set (.inl List.mem_cons_self)
      have harr1 : k1.reg arr = V.mem.load .word (k.reg arr) := by rw [hk1, Core.set_reg, if_pos rfl]
      refine hstart.yields ?_
      rintro _ rfl
      rw [← harr1] at hsafe ⊢
      exact (hout V limit k1 (hk.next hs2 hf1 hsp (fun _ h => h) le_rfl) hsafe).weaken
        fun w k2 ⟨hw, hf2⟩ => ⟨hw, hf1.trans hf2 hsp⟩
  refine (((Emits.step harr hi hne).seq hloaded).cast (by ring)).weaken ?_
  rintro _ ⟨s1, o, o', hs1, rfl, hstep, hrest'⟩ V limit k hk hclear hsafe
  have hclear' : Mem.Clear C.floor k.sp (k.reg arr) 4 :=
    ⟨hclear.fits, hclear.apart.imp_right (le_trans hk.sees.le)⟩
  rw [hstride] at hsafe ⊢
  refine (hstep V k (hk.ready.le (by omega)) hclear' (hk.sees.load hclear)).seq ?_
  rintro a' k1 ha' ⟨rfl, hf1⟩
  have hf1 : Core.Frame C.floor (arr :: rest) k k1 := hf1.mono (by simp)
  obtain ⟨hclear₁, hsafe₁⟩ := hsafe _ ha'
  exact (hrest' V limit k1 (hk.next hs1 hf1 hsp (fun _ h => h) le_rfl) hclear₁ hsafe₁).weaken
    fun w k2 ⟨hw, hf2⟩ => ⟨hw, hf1.trans hf2 hsp⟩

theorem indices_yields {array e : Ty} {dims : UInt32} (harray : array = .array e dims) {done : Nat} {arr : Reg}
    (hd : done + is.length ≤ dims.toNat) (his : ∀ i ∈ is, C.Computes T i) (hf : Gen.Free (arr :: rest))
    (hnd : (arr :: rest).Nodup) (hv : ∀ x ∈ Expr.varsAll is, Gen.HasSlot T s x) :
    C.Emits T s (Gen.indices array done is arr rest) 0 (C.Reaches T s array done is arr rest) := by
  induction is generalizing done s with
  | nil =>
    refine Emits.skip.weaken ?_
    rintro _ rfl V limit k - -
    exact System.Yields.of_does (.nil ⟨rfl, .refl _ _ _⟩)
  | cons i is ih =>
    obtain ⟨hi, htail⟩ := List.forall_mem_cons.1 his
    have hsp := sp_notMem hf
    have harr : arr ∈ pool := hf arr List.mem_cons_self
    have hleft : ∀ x ∈ i.vars, x ∈ Expr.varsAll (i :: is) := fun x hx => by
      rw [Expr.varsAll]; exact List.mem_append_left _ hx
    have hright : ∀ x ∈ Expr.varsAll is, x ∈ Expr.varsAll (i :: is) := fun x hx => by
      rw [Expr.varsAll]; exact List.mem_append_right _ hx
    simp only [List.length_cons] at hd
    have hnum : (done + 1).toUInt32.toNat = done + 1 := by
      have := dims.toNat_lt
      exact Table.toNat_number (by omega)
    obtain ⟨t, ht⟩ := Typing.nested_ok (e := e) (d := dims) (n := (done + 1).toUInt32)
      (UInt32.le_iff_toNat_le.2 (by omega))
    rw [← harray] at ht
    have hrest : ∀ s1, s.Shift 0 s1 → C.Emits T s1 (Gen.indices array (done + 1) is arr rest) 0
        (C.Reaches T s1 array (done + 1) is arr rest) := fun s1 hs1 =>
      ih (by omega) htail fun x hx => HasSlot.shift (hv x (hright x hx)) hs1 le_rfl
    cases rest with
    | nil =>
      refine ((Emits.pushReg.seq fun s1 hs1 => (hi arr [] s1 hf hnd fun x hx =>
        HasSlot.shift (hv x (hleft x hx)) hs1 (by omega)).seq fun s2 hs2 =>
        Emits.copy.seq fun s3 hs3 => Emits.popReg.seq fun s4 hs4 => indices_tail ht hf
          (List.mem_cons_self (a := scratch)) (by rintro rfl; exact absurd harr (by decide)) fun s5 hs5 =>
          hrest s5 ((hs1.trans (hs2.trans (hs3.trans (hs4.trans hs5)))).cast (by ring))).cast (by ring)).weaken ?_
      rintro _ ⟨s1, _, _, hs1, rfl, rfl, s2, o2, _, hs2, rfl, hindex, s3, _, _, hs3, rfl, rfl, s4, _, o5, hs4, rfl,
        rfl, hout⟩ V limit k hk hsafe
      obtain ⟨hsafei, hclear, hsafe⟩ := hsafe
      simp only [Expr.sizes] at hk
      have hroom := hk.ready.room
      refine (System.does_push (by omega)).yields fun k1 hp => ?_
      refine (hindex V limit k1 (hk.pushed hs1 hp hleft (by omega)) hsafei).seq ?_
      rintro w k2 hw ⟨hreg2, hf2⟩
      -- the index goes to the scratch register, and the array comes back
      set k3 := k2.set scratch w with hk3
      have hcopy : C.system.Does [.instr (.mov .always scratch (.reg arr))] k2 (· = k3) :=
        .instr rfl (by simp only [Instr.effect, Cond.holds, if_true, Operand.value, hreg2, hk3])
      have hf3 : Core.Frame C.floor [arr] k1 k3 := hf2.set (.inr (by decide))
      obtain ⟨htop, hf4⟩ := Pushed.pop (r := arr) hp hf3 hsp (by omega) (.inl List.mem_cons_self)
      refine hcopy.yields ?_
      rintro _ rfl
      refine (System.does_pop (pool_kept (List.mem_cons_of_mem _ harr)).2.1).yields ?_
      rintro _ rfl
      rw [htop]
      set k4 := (k3.set arr (k.reg arr)).set .sp (k3.reg .sp + 4#32) with hk4
      have hspne := (pool_kept (List.mem_cons_of_mem _ harr)).1
      have harr4 : k4.reg arr = k.reg arr := by
        rw [hk4, Core.set_reg, if_neg hspne, Core.set_reg, if_pos rfl]
      have hscratch₄ : k4.reg scratch = w := by
        rw [hk4, Core.set_reg, if_neg (by decide), Core.set_reg, if_neg (by rintro rfl; exact absurd harr (by decide)),
          hk3, Core.set_reg, if_pos rfl]
      have hback : s.Shift 0 s4 := (hs1.trans (hs2.trans (hs3.trans hs4))).cast (by ring)
      have := hout V limit k4 (hk.next hback hf4 hsp hright (by omega))
      rw [harr4, hscratch₄] at this
      exact (this hclear fun a' ha' => hsafe w a' hw ha').weaken fun _ _ h => ⟨h.1, hf4.trans h.2 hsp⟩
    | cons r rest =>
      obtain ⟨harr_nin, hnd'⟩ := List.nodup_cons.1 hnd
      have hne : r ≠ arr := fun h => harr_nin (h ▸ List.mem_cons_self)
      have hr : r ∈ pool := hf.tail r List.mem_cons_self
      refine (((hi r rest s hf.tail hnd' fun x hx => hv x (hleft x hx)).seq fun s1 hs1 => indices_tail ht hf
        (List.mem_cons_of_mem _ hr) hne fun s2 hs2 => hrest s2 ((hs1.trans hs2).cast (by ring))).cast
          (by ring)).weaken ?_
      rintro _ ⟨s1, o1, _, hs1, rfl, hindex, hout⟩ V limit k hk hsafe
      obtain ⟨hsafei, hclear, hsafe⟩ := hsafe
      simp only [Expr.sizes] at hk
      refine (hindex V limit k (hk.part hleft (by omega)) hsafei).seq ?_
      rintro w k1 hw ⟨hreg1, hf1⟩
      have harr1 : k1.reg arr = k.reg arr := hf1.regs arr harr_nin (pool_stays harr)
      have hf1 : Core.Frame C.floor (arr :: r :: rest) k k1 := hf1.mono fun q hq => List.mem_cons_of_mem _ hq
      have := hout V limit k1 (hk.next hs1 hf1 hsp hright (by omega))
      rw [harr1, hreg1] at this
      exact (this hclear fun a' ha' => hsafe w a' hw ha').weaken fun _ _ h => ⟨h.1, hf1.trans h.2 hsp⟩

/-! ## Operands -/

section
variable {op : BinOp} {rule : BinRule} {l r : Expr} {d : Reg}

theorem binary_pushed (ho : op.rule? = some rule) (hl : C.Computes T l) (hr : C.Computes T r)
    (hf : Gen.Free [d]) (hvl : ∀ x ∈ l.vars, Gen.HasSlot T s x) (hvr : ∀ x ∈ r.vars, Gen.HasSlot T s x) :
    C.Emits T s (do
        Gen.expr r [d]
        Gen.pushReg d
        Gen.expr l [d]
        Gen.popReg scratch
        Gen.apply op d d scratch) 0 fun out => ∀ V limit k,
      C.Start T s (l.vars ++ r.vars) (4 * (1 + l.size + r.size) + 16) V limit k → l.Safe V C.floor limit →
      r.Safe V C.floor limit →
      C.system.Yields out k ((l.word V).bind fun a => (r.word V).bind fun b => op.word a b)
        fun w k' => k'.reg d = w ∧ Core.Frame C.floor [d] k k' := by
  have hd : d ∈ pool := hf d List.mem_cons_self
  have hsp := sp_notMem hf
  have hne : scratch ≠ d := by rintro rfl; exact absurd hd (by decide)
  have hnd : [d].Nodup := List.nodup_singleton d
  refine (((hr d [] s hf hnd hvr).seq fun s1 hs1 => Emits.pushReg.seq fun s2 hs2 =>
    (hl d [] s2 hf hnd fun x hx => HasSlot.shift (hvl x hx) (hs1.trans hs2) (by omega)).seq fun s3 hs3 =>
    Emits.popReg.seq fun s4 hs4 =>
    Emits.apply ho hd List.mem_cons_self hne (.inl ⟨rfl, rfl⟩)).cast (by ring)).weaken ?_
  rintro _ ⟨s1, o1, _, hs1, rfl, hright, s2, _, _, hs2, rfl, rfl, s3, o3, _, hs3, rfl, hleft, s4, _, o5, hs4, rfl,
    rfl, happly⟩ V limit k hk hsafel hsafer
  rw [Option.bind_comm]
  refine (hright V limit k (hk.part (fun _ => List.mem_append_right _) (by omega)) hsafer).seq
    fun b k1 hb ⟨hreg1, hf1⟩ => ?_
  have hk1 : C.Start T s1 (l.vars ++ r.vars) (4 * (1 + l.size + r.size) + 16) V limit k1 :=
    hk.next hs1 hf1 hsp (fun _ h => h) le_rfl
  have hroom := hk1.ready.room
  refine (System.does_push (by omega)).yields fun k2 hp => ?_
  refine (hleft V limit k2 (hk1.pushed hs2 hp (fun _ => List.mem_append_left _) (by omega)) hsafel).seq
    fun a k3 ha ⟨hreg3, hf3⟩ => ?_
  obtain ⟨htop, hf4⟩ := Pushed.pop (r := scratch) hp hf3 hsp (by omega) (.inr (by decide))
  refine (System.does_pop (by decide)).yields ?_
  rintro _ rfl
  rw [htop]
  set k4 := (k3.set scratch (k1.reg d)).set .sp (k3.reg .sp + 4#32) with hk4
  have hspne := (pool_kept (List.mem_cons_of_mem _ hd)).1
  have hreg4 : k4.reg d = a := by
    rw [hk4, Core.set_reg, if_neg hspne, Core.set_reg, if_neg hne.symm, hreg3]
  have hscratch₄ : k4.reg scratch = b := by
    rw [hk4, Core.set_reg, if_neg (by decide), Core.set_reg, if_pos rfl, hreg1]
  have hf4 := hf1.trans hf4 hsp
  have hback : s.Shift 0 s4 := (hs1.trans (hs2.trans (hs3.trans hs4))).cast (by ring)
  have hk4 : C.Start T s4 [] 16 V limit k4 := hk.next hback hf4 hsp nofun (by omega)
  have hres := happly k4 hk4.ready
  rw [hreg4, hscratch₄] at hres
  refine hres.weaken fun w k5 ⟨hw, hf5⟩ => ⟨hw, hf4.trans ⟨fun q hq hv => hf5.regs q ?_ hv, hf5.mem⟩ hsp⟩
  rintro hmem
  rcases List.mem_cons.1 hmem with rfl | hmem
  · exact hq List.mem_cons_self
  · obtain rfl := List.mem_singleton.1 hmem
    exact hv (by decide)

theorem binary_inRegisters {a b : Expr} {x y e : Reg} {rest : List Reg} (ho : op.rule? = some rule)
    (ha : C.Computes T a) (hb : C.Computes T b) (hf : Gen.Free (d :: e :: rest))
    (hnd : (d :: e :: rest).Nodup) (hva : ∀ x ∈ a.vars, Gen.HasSlot T s x) (hvb : ∀ x ∈ b.vars, Gen.HasSlot T s x)
    (hxy : x = d ∧ y = e ∨ x = e ∧ y = d) :
    C.Emits T s (do
        Gen.expr a (d :: e :: rest)
        Gen.expr b (e :: rest)
        Gen.apply op d x y) 0 fun out => ∀ xs V limit k,
      C.Start T s xs (4 * (1 + a.size + b.size) + 16) V limit k → (∀ x ∈ a.vars, x ∈ xs) → (∀ x ∈ b.vars, x ∈ xs) →
      a.Safe V C.floor limit → b.Safe V C.floor limit →
      C.system.Yields out k ((a.word V).bind fun u => (b.word V).bind fun w =>
          if x = d then op.word u w else op.word w u)
        fun w k' => k'.reg d = w ∧ Core.Frame C.floor (d :: e :: rest) k k' := by
  have hd : d ∈ pool := hf d List.mem_cons_self
  have he : e ∈ pool := hf.tail e List.mem_cons_self
  have hsp := sp_notMem hf
  obtain ⟨hdn, hnd'⟩ := List.nodup_cons.1 hnd
  have hne : e ≠ d := fun h => hdn (h ▸ List.mem_cons_self)
  refine (((ha d (e :: rest) s hf hnd hva).seq fun s1 hs1 =>
    (hb e rest s1 hf.tail hnd' fun x hx => HasSlot.shift (hvb x hx) hs1 le_rfl).seq fun s2 hs2 =>
    Emits.apply ho hd (List.mem_cons_of_mem _ he) hne hxy).cast (by ring)).weaken ?_
  rintro _ ⟨s1, o1, _, hs1, rfl, hfirst, s2, o2, _, hs2, rfl, hsecond, happly⟩ xs V limit k hk hxa hxb hsafea hsafeb
  refine (hfirst V limit k (hk.part hxa (by omega)) hsafea).seq fun u k1 hu ⟨hreg1, hf1⟩ => ?_
  refine (hsecond V limit k1 (hk.next hs1 hf1 hsp hxb (by omega)) hsafeb).seq fun w k2 hw ⟨hreg2, hf2⟩ => ?_
  have hkeep : k2.reg d = u := by rw [hf2.regs d hdn (pool_stays hd), hreg1]
  have hf2 : Core.Frame C.floor (d :: e :: rest) k k2 :=
    hf1.trans (hf2.mono fun q hq => List.mem_cons_of_mem _ hq) hsp
  have hk2 : C.Start T s2 [] 16 V limit k2 := hk.next ((hs1.trans hs2).cast (by ring)) hf2 hsp nofun (by omega)
  have hres := happly k2 hk2.ready
  have hword : op.word (k2.reg x) (k2.reg y) = if x = d then op.word u w else op.word w u := by
    rcases hxy with ⟨rfl, rfl⟩ | ⟨rfl, rfl⟩
    · rw [if_pos rfl, hkeep, hreg2]
    · rw [if_neg hne, hkeep, hreg2]
  rw [hword] at hres
  exact hres.weaken fun v k3 ⟨hv, hf3⟩ => ⟨hv, hf2.trans (hf3.mono (by simp)) hsp⟩

end

/-! ## All expressions -/

theorem literal_yields {d : Reg} {i : Instr} (hi : i.isPlain = true)
    (h : ∀ k, i.effect C.system.image.address k = k.set d w) :
    C.Emits T s (Gen.emit i) 0 fun out => ∀ k, C.system.Yields out k (some w)
      fun w' k' => k'.reg d = w' ∧ Core.Frame C.floor (d :: rest) k k' := by
  refine Emits.emit.weaken ?_
  rintro _ rfl k
  refine System.Yields.of_does (.instr hi ?_)
  rw [h]
  exact ⟨by rw [Core.set_reg, if_pos rfl], (Core.Frame.refl _ _ k).set (.inl List.mem_cons_self)⟩

/-- **The code of a well-typed expression computes its word.** -/
theorem expr_yields {sc : ScopeId} {e : Expr} (he : e.Typed T sc) : C.Computes T e := by
  induction he with
  | int =>
    intro d rest s _ _ _
    exact (literal_yields rfl fun _ => rfl).weaken fun out h V limit k _ _ => h k
  | @bool span b =>
    intro d rest s _ _ _
    refine (literal_yields (w := bit b) rfl fun k => ?_).weaken fun out h V limit k _ _ => h k
    cases b <;> rfl
  | @char span c =>
    intro d rest s _ _ _
    refine (literal_yields (w := BitVec.ofNat 32 c.toNat) rfl fun k => ?_).weaken fun out h V limit k _ _ => h k
    simp only [Instr.effect, Cond.holds, if_true, Operand.value, BitVec.ofInt_natCast]
  | null =>
    intro d rest s _ _ _
    exact (literal_yields rfl fun _ => rfl).weaken fun out h V limit k _ _ => h k
  | @str span t =>
    intro d rest s _ _ _
    refine Emits.const.weaken fun out hout V limit k hk _ => ?_
    rw [Expr.word, hk.const]
    exact System.Yields.of_does ((hout k).weaken fun k' h => ⟨h.1, h.2.mono (by simp)⟩)
  | @var id hid =>
    intro d rest s hf _ hv
    refine (Emits.variable (hv _ (by simp [Expr.vars]))).weaken fun out hout V limit k hk _ => ?_
    exact System.Yields.of_does ((hout _ _ V limit k hk (by simp [Expr.vars])).weaken
      fun k' h => ⟨h.1, h.2.mono (by simp)⟩)
  | @elem span t id is hid hx _ _ ih =>
    intro d rest s hf hnd hv
    obtain ⟨-, e, dims, harray, hle, -⟩ := hx
    have hsp := sp_notMem hf
    have hd := hf d List.mem_cons_self
    have hscratch : d ≠ scratch := by rintro rfl; exact absurd hd (by decide)
    obtain ⟨hvx, hvs⟩ := List.forall_mem_cons.1 hv
    refine (((Emits.variable hvx).seq fun s1 hs1 => (indices_yields harray (by omega) ih hf hnd fun x hx =>
      HasSlot.shift (hvs x hx) hs1 le_rfl).seq fun s2 hs2 => Emits.load hscratch).cast (by ring)).weaken ?_
    rintro _ ⟨s1, o1, _, hs1, rfl, hvar, s2, o2, o3, hs2, rfl, hindices, hload⟩ V limit k hk hsafe
    obtain ⟨hsafe, hclear⟩ := hsafe
    rw [Expr.word]
    refine (hvar _ _ V limit k hk List.mem_cons_self).yields ?_
    rintro k1 ⟨hreg1, hf1⟩
    have hf1 : Core.Frame C.floor (d :: rest) k k1 := hf1.mono (by simp)
    have hplace := hindices V limit k1 (hk.next hs1 hf1 hsp (fun _ => List.mem_cons_of_mem _) le_rfl)
    rw [hreg1] at hplace
    rw [Option.map_eq_bind]
    refine (hplace hsafe).seq ?_
    rintro a k2 ha ⟨hreg2, hf2⟩
    have hf2 := hf1.trans hf2 hsp
    refine System.Yields.of_does ((hload k2).weaken fun k3 h3 => ⟨?_, hf2.trans (h3.2.mono (by simp)) hsp⟩)
    rw [h3.1, hreg2, ← (hk.sees.frame hf2 hsp).load (hclear a ha)]
    exact congrArg _ (BitVec.add_zero _)
  | @unary span op rule e ho _ _ ih =>
    intro d rest s hf hnd hv
    have hsp := sp_notMem hf
    have hd := hf d List.mem_cons_self
    refine (((ih d rest s hf hnd hv).seq fun s1 hs1 => Emits.applyUnary ho hd).cast (by ring)).weaken ?_
    rintro _ ⟨s1, o1, o2, hs1, rfl, hoperand, happly⟩ V limit k hk hsafe
    obtain ⟨hsafe, hlen⟩ := hsafe
    rw [Expr.size, Expr.vars] at hk
    refine (hoperand V limit k (hk.part (fun _ h => h) (by omega)) hsafe).seq ?_
    rintro a k1 ha ⟨hreg1, hf1⟩
    have hk1 : C.Start T s1 [] 16 V limit k1 := hk.next hs1 hf1 hsp (by simp) (by omega)
    have hres := happly V.mem k1 hk1.ready
    rw [hreg1] at hres
    exact (hres fun hop => hk1.sees.load (hlen hop a ha)).weaken
      fun w k2 h => ⟨h.1, hf1.trans (h.2.mono (by simp)) hsp⟩
  | @binary span op rule l r ho _ _ _ ihl ihr =>
    intro d rest s hf hnd hv
    obtain ⟨hvl, hvr⟩ := List.forall_mem_append.1 hv
    cases rest with
    | nil =>
      refine (binary_pushed ho ihl ihr hf hvl hvr).weaken fun out hout V limit k hk hsafe => ?_
      exact hout V limit k hk hsafe.1 hsafe.2
    | cons e rest =>
      rw [Gen.expr]
      have hne : e ≠ d := fun h => (List.nodup_cons.1 hnd).1 (h ▸ List.mem_cons_self)
      split_ifs
      · refine (binary_inRegisters ho ihl ihr hf hnd hvl hvr (.inl ⟨rfl, rfl⟩)).weaken
          fun out hout V limit k hk hsafe => ?_
        have := hout _ V limit k hk (fun _ => List.mem_append_left _) (fun _ => List.mem_append_right _) hsafe.1 hsafe.2
        simp only [if_true] at this
        exact this
      · refine (binary_inRegisters ho ihr ihl hf hnd hvr hvl (.inr ⟨rfl, rfl⟩)).weaken
          fun out hout V limit k hk hsafe => ?_
        rw [Expr.size, Expr.vars] at hk
        have := hout _ V limit k (hk.part (fun _ h => h) (by omega)) (fun _ => List.mem_append_right _)
          (fun _ => List.mem_append_left _) hsafe.2 hsafe.1
        simp only [if_neg hne] at this
        rw [Expr.word, Option.bind_comm]
        exact this

end Context

end Wacc.Arm
