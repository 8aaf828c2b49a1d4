/-
  Immediates, and the steps in which the stack pointer moves.

  An immediate is eight bits that are turned to the right by an even amount.  A move of the stack pointer is
  cut into steps of at most 1024 bytes, but not every number up to 1024 is an immediate.
-/
import Wacc.Arm.Program
import Mathlib.Tactic.IntervalCases

namespace Wacc.Arm

/-! ## Turned bytes -/

theorem rotateLeft_eq_iff {w r : Nat} {v u : BitVec w} : v.rotateLeft r = u ↔ v = u.rotateRight r := by
  have hr : 0 < w → r % w < w := Nat.mod_lt r
  constructor
  · rintro rfl
    refine BitVec.eq_of_getLsbD_eq fun i hi => ?_
    rw [BitVec.getLsbD_rotateRight, BitVec.getLsbD_rotateLeft, BitVec.getLsbD_rotateLeft]
    by_cases h : i < w - r % w
    · have h1 : ¬ r % w + i < r % w := by omega
      have h2 : r % w + i < w := by omega
      simp [h, h1, h2]
    · have h1 : i - (w - r % w) < r % w := by omega
      have h2 : w - r % w + (i - (w - r % w)) = i := by omega
      simp [h, h1, h2, hi]
  · rintro rfl
    refine BitVec.eq_of_getLsbD_eq fun i hi => ?_
    rw [BitVec.getLsbD_rotateLeft, BitVec.getLsbD_rotateRight, BitVec.getLsbD_rotateRight]
    by_cases h : i < r % w
    · have h1 : ¬ w - r % w + i < w - r % w := by omega
      have h2 : w - r % w + i < w := by omega
      simp [h, h1, h2]
    · have h1 : i - r % w < w - r % w := by omega
      have h2 : r % w + (i - r % w) = i := by omega
      simp [h, h1, h2, hi]

theorem mask_eq_zero_iff {w : BitVec 32} : w &&& 0xFFFFFF00#32 = 0 ↔ ∃ b : BitVec 8, w = b.setWidth 32 := by
  have hmask : ∀ i < 32, (0xFFFFFF00#32).getLsbD i = decide (8 ≤ i) := by decide
  constructor
  · intro h
    refine ⟨w.setWidth 8, BitVec.eq_of_getLsbD_eq fun i hi => ?_⟩
    have hbit := congrArg (BitVec.getLsbD · i) h
    simp only [BitVec.getLsbD_and, hmask i hi] at hbit
    by_cases hlow : i < 8 <;> simp_all
  · rintro ⟨b, rfl⟩
    refine BitVec.eq_of_getLsbD_eq fun i hi => ?_
    rw [BitVec.getLsbD_and, hmask i hi, BitVec.getLsbD_setWidth]
    by_cases hlow : i < 8
    · simp [hlow]
    · simp [BitVec.getLsbD_of_ge b i (by omega)]

theorem turned_toBitVec (v : UInt32) {i : Nat} (hi : i < 16) :
    (if (2 * i).toUInt32 = (0 : UInt32) then v
      else (v <<< (2 * i).toUInt32) ||| (v >>> (32 - (2 * i).toUInt32))).toBitVec =
      v.toBitVec.rotateLeft (2 * i) := by
  interval_cases i <;> simp [BitVec.rotateLeft_def, BitVec.ushiftRight_eq_zero]

theorem encodable_iff (v : UInt32) :
    encodable v = true ↔ ∃ i < 16, ∃ b : BitVec 8, v.toBitVec = (b.setWidth 32).rotateRight (2 * i) := by
  simp only [encodable, List.any_eq_true, List.mem_range, beq_iff_eq, ← rotateLeft_eq_iff]
  refine exists_congr fun i => and_congr_right fun hi => ?_
  rw [← turned_toBitVec v hi, ← mask_eq_zero_iff, ← UInt32.toBitVec_inj]
  rfl

theorem encodable_step : ∀ k : Fin (maxStep + 1), encodable k.val.toUInt32 = true ↔ k.val < 256 ∨ 4 ∣ k.val := by
  decide +kernel

/-! ## Moves of the stack pointer -/

def Instr.Encodes (i : Instr) : Prop :=
  ∀ op k, i = .alu op .sp .sp (.imm k) → ∃ v : UInt32, k = v.toNat ∧ encodable v = true

def Encodes (out : List Line) : Prop := ∀ i, .instr i ∈ out → i.Encodes

@[simp] theorem encodes_nil : Encodes [] := fun _ h => nomatch h

@[simp] theorem encodes_append {o o' : List Line} : Encodes (o ++ o') ↔ Encodes o ∧ Encodes o' := by
  simp only [Encodes, List.mem_append, or_imp, forall_and]

theorem encodes_singleton {i : Instr} : Encodes [.instr i] ↔ i.Encodes := by simp [Encodes]

def Assembles (n : Nat) : Prop := n % maxStep < 256 ∨ 4 ∣ n

instance (n : Nat) : Decidable (Assembles n) := inferInstanceAs (Decidable (_ ∨ _))

theorem assembles_of_lt {n : Nat} (h : n < 256) : Assembles n := .inl ((Nat.mod_le n _).trans_lt h)

theorem encodes_step {op : Alu} {k : Nat} (hk : k ≤ maxStep) :
    (Instr.alu op .sp .sp (.imm k)).Encodes ↔ k < 256 ∨ 4 ∣ k := by
  have hiff := encodable_step ⟨k, by omega⟩
  rw [← hiff]
  have hword : k.toUInt32.toNat = k := Nat.mod_eq_of_lt (by simp only [maxStep] at hk; omega)
  constructor
  · intro h
    obtain ⟨v, hv, hencodable⟩ := h op k rfl
    obtain rfl := Int.natCast_inj.1 hv
    rwa [Nat.toUInt32, UInt32.ofNat_toNat]
  · rintro h op' _ ⟨⟩
    exact ⟨k.toUInt32, by rw [hword], h⟩

namespace Gen

def chunks (n : Nat) : List Nat :=
  List.replicate (n / maxStep) maxStep ++ if n % maxStep = 0 then [] else [n % maxStep]

theorem stepsOf_eq (op : Alu) (n : Nat) :
    stepsOf op n = (chunks n).map fun k => .alu op .sp .sp (.imm k) := by
  induction n using Nat.strong_induction_on with
  | _ n ih =>
    rw [stepsOf]
    split_ifs with hn
    · subst hn
      rfl
    · rcases Nat.lt_or_ge n maxStep with hlt | hge
      · have hmin : min (n : Int) maxStep = n := by omega
        rw [hmin, Nat.min_eq_left hlt.le, Nat.sub_self, stepsOf]
        simp [chunks, Nat.div_eq_of_lt hlt, Nat.mod_eq_of_lt hlt, hn]
      · have hmin : min (n : Int) maxStep = maxStep := by omega
        rw [hmin, Nat.min_eq_right hge, ih (n - maxStep) (by simp only [maxStep] at hge ⊢; omega)]
        have hdiv : n / maxStep = (n - maxStep) / maxStep + 1 := by simp only [maxStep] at hge ⊢; omega
        have hmod : n % maxStep = (n - maxStep) % maxStep := by simp only [maxStep] at hge ⊢; omega
        simp only [chunks, hdiv, hmod, List.replicate_succ, List.cons_append, List.map_cons]

theorem sum_chunks (n : Nat) : (chunks n).sum = n := by
  have hn := Nat.div_add_mod' n maxStep
  unfold chunks
  split_ifs with h
  · rw [List.append_nil, List.sum_replicate_nat]
    omega
  · rw [List.sum_append, List.sum_replicate_nat, List.sum_singleton, hn]

theorem mem_chunks {n k : Nat} (h : k ∈ chunks n) : 0 < k ∧ k ≤ maxStep := by
  have hrest : n % maxStep < maxStep := Nat.mod_lt n (by decide)
  simp only [chunks, List.mem_append, List.mem_replicate] at h
  rcases h with ⟨-, rfl⟩ | h
  · decide
  · split_ifs at h with h0
    · cases h
    · rw [List.mem_singleton.1 h]
      omega

theorem encodable_chunks {n : Nat} : (∀ k ∈ chunks n, k < 256 ∨ 4 ∣ k) ↔ Assembles n := by
  have hrest : 4 ∣ n ↔ 4 ∣ n % maxStep := by simp only [maxStep]; omega
  rw [Assembles, hrest]
  simp only [chunks, List.mem_append, List.mem_replicate, or_imp, forall_and]
  have hfull : ∀ k, n / maxStep ≠ 0 ∧ k = maxStep → k < 256 ∨ 4 ∣ k := by
    rintro _ ⟨-, rfl⟩
    decide
  rw [and_iff_right hfull]
  split_ifs with h
  · simp [h]
  · simp

theorem stepsOf_encodes {op : Alu} {n : Nat} : Encodes ((stepsOf op n).map .instr) ↔ Assembles n := by
  rw [← encodable_chunks, stepsOf_eq]
  constructor
  · intro h k hk
    refine (encodes_step (mem_chunks hk).2).1 (h (.alu op .sp .sp (.imm k)) ?_)
    exact List.mem_map_of_mem (List.mem_map_of_mem hk)
  · intro h i hi
    obtain ⟨k, hk, rfl⟩ : ∃ k ∈ chunks n, Instr.alu op .sp .sp (.imm k) = i := by simpa using hi
    exact (encodes_step (mem_chunks hk).2).2 (h k hk)

end Gen

end Wacc.Arm
