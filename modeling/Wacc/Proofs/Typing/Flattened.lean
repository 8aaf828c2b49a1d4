/-
  Arrays kept flat.

  An array type holds its innermost element type and the number of its dimensions.  Every operation keeps it
  so, and going down several dimensions at once is the same as taking them off one by one.
-/
import Wacc.Proofs.Typing.Literal

namespace Wacc

/-- The dimensions that a written type begins with. -/
def Tree.dimensions : Tree → Nat
  | .node .arrayType _ _ (c :: _) => c.dimensions + 1
  | _ => 0

namespace Ty

/-- Every array in a type has dimensions and is over no array. -/
def flattened : Ty → Bool
  | .array e n => (Ty.array e n).isFlat && e.flattened
  | .pair a b => a.flattened && b.flattened
  | _ => true

def depth : Ty → Nat
  | .array _ n => n.toNat
  | _ => 0

/-- Takes `k` dimensions off, one after the other. -/
def peelTimes : Nat → Ty → Except Fault Ty
  | 0, t => .ok t
  | k + 1, t => t.peel.bind (peelTimes k)

variable {t u v d a e : Ty} {n : UInt32} {k : Nat}

theorem isFlat_of_flattened (h : t.flattened = true) : t.isFlat = true := by
  cases t with
  | array e n => exact (Bool.and_eq_true _ _ ▸ h).1
  | _ => rfl

/-! ## One dimension -/

theorem depth_arrayOf (h : t.depth + 1 < 2 ^ 32) : t.arrayOf.depth = t.depth + 1 := by
  cases t with
  | array e n =>
    simp only [arrayOf, depth, UInt32.toNat_add] at h ⊢
    exact Nat.mod_eq_of_lt h
  | _ => rfl

theorem flattened_arrayOf (ht : t.flattened = true) (h : t.depth + 1 < 2 ^ 32) : t.arrayOf.flattened = true := by
  cases t with
  | array e n =>
    have hne : n + 1 ≠ 0 := fun h0 => by
      have := depth_arrayOf h
      simp [arrayOf, depth, h0] at this
    simp only [arrayOf, flattened, Bool.and_eq_true] at ht ⊢
    refine ⟨?_, ht.2⟩
    cases e <;> simp_all [isFlat]
  | pair a b => exact ht
  | _ => rfl

theorem peel_arrayOf (ht : t.flattened = true) : t.arrayOf.peel = .ok t := by
  have hflat := isFlat_of_flattened ht
  cases t with
  | array e n =>
    have hn : n ≠ 0 := by cases e <;> simp_all [isFlat]
    simp only [arrayOf, peel]
    rw [if_neg (by grind), UInt32.add_sub_cancel]
  | _ => rfl

theorem peel_array (h : (Ty.array e n).flattened = true) :
    ∃ u, (Ty.array e n).peel = .ok u ∧ u.flattened = true ∧ u.arrayOf = .array e n ∧ u.depth + 1 = n.toNat := by
  have hflat := isFlat_of_flattened h
  obtain ⟨u, hu⟩ : ∃ u, (Ty.array e n).peel = .ok u := by
    simp only [peel]
    split_ifs <;> exact ⟨_, rfl⟩
  simp only [flattened, Bool.and_eq_true] at h
  obtain ⟨b, m, heq, hb, hcases⟩ := peel_eq_ok hflat hu
  cases heq
  refine ⟨u, hu, ?_⟩
  rcases hcases with ⟨rfl, rfl⟩ | ⟨hn, rfl⟩
  · refine ⟨h.2, ?_⟩
    cases u with
    | array b m => exact absurd rfl (hb b m)
    | _ => exact ⟨rfl, rfl⟩
  · refine ⟨?_, by simp [arrayOf], ?_⟩
    · rw [flattened, isFlat_peel hflat hu, h.2, Bool.and_self]
    · rw [depth, toNat_pred hn]
      have h1 : 1 < n.toNat := hn
      omega

/-! ## Several dimensions -/

theorem arrayOfN_flattened (ht : t.flattened = true) (h : t.depth + k < 2 ^ 32) :
    (t.arrayOfN k).flattened = true ∧ (t.arrayOfN k).depth = t.depth + k := by
  induction k with
  | zero => exact ⟨ht, rfl⟩
  | succ k ih =>
    obtain ⟨hf, hd⟩ := ih (by omega)
    refine ⟨flattened_arrayOf hf (by omega), ?_⟩
    rw [arrayOfN, depth_arrayOf (by omega), hd, Nat.add_assoc]

theorem nested_peel (ht : t.isFlat = true) (hu : t.peel = .ok u) (hn : n ≠ 0) (hle : n.toNat ≤ t.depth) :
    t.nested n = u.nested (n - 1) := by
  obtain ⟨e, m, rfl, -, hcases⟩ := peel_eq_ok ht hu
  have hle : n ≤ m := hle
  have hpred : n - 1 = 0 ↔ n = 1 := by grind
  rcases hcases with ⟨rfl, rfl⟩ | ⟨hm, rfl⟩
  · obtain rfl : n = 1 := by grind
    rfl
  · have hne : n - 1 = m - 1 ↔ n = m := by grind
    have hless : ¬ m - 1 < n - 1 := by grind
    have hdiff : m - 1 - (n - 1) = m - n := by grind
    simp only [nested, if_neg hn, if_neg (UInt32.not_lt.2 hle), if_neg hless, hpred, hne, hdiff]
    split_ifs with h1 h2 h3 <;> grind

theorem nested_eq (ht : t.flattened = true) (n : UInt32) :
    t.nested n = if n.toNat ≤ t.depth then peelTimes n.toNat t else .error (.tooManyIndices t.render n) := by
  obtain ⟨k, hk⟩ : ∃ k, n.toNat = k := ⟨_, rfl⟩
  induction k generalizing t n with
  | zero =>
    obtain rfl : n = 0 := UInt32.toNat_inj.1 hk
    simp [nested, peelTimes]
  | succ k ih =>
    have hn : n ≠ 0 := by rintro rfl; cases hk
    split_ifs with hle
    · cases t with
      | array e m =>
        obtain ⟨u, hu, hf, -, hd⟩ := peel_array ht
        have hpred : (n - 1).toNat = k := by
          rw [UInt32.toNat_sub_of_le _ _ (UInt32.le_iff_toNat_le.2 (by rw [hk]; exact Nat.le_add_left 1 k)), hk]
          rfl
        rw [nested_peel (isFlat_of_flattened ht) hu hn hle, ih hf _ hpred, hpred, hk, peelTimes, hu,
          if_pos (by rw [depth, hk] at hle; omega)]
        rfl
      | _ => simp [depth, hk] at hle
    · cases t with
      | array e m => rw [nested, if_neg hn, if_pos (UInt32.lt_iff_toNat_lt.2 (Nat.lt_of_not_le hle))]
      | _ => simp only [nested, if_neg hn]

theorem peelTimes_cases (ht : t.flattened = true) (k : Nat) :
    (∃ u, peelTimes k t = .ok u ∧ u.flattened = true ∧ u.depth + k = t.depth) ∨
      (∃ f, peelTimes k t = .error f ∧ t.depth < k) := by
  induction k generalizing t with
  | zero => exact .inl ⟨t, rfl, ht, rfl⟩
  | succ k ih =>
    cases t with
    | array e n =>
      obtain ⟨u, hu, hf, -, hd⟩ := peel_array ht
      rw [depth, ← hd, peelTimes, hu]
      refine (ih hf).imp ?_ ?_
      · rintro ⟨v, hv, hfv, hdv⟩
        exact ⟨v, hv, hfv, by omega⟩
      · rintro ⟨f, hv, hlt⟩
        exact ⟨f, hv, Nat.succ_lt_succ hlt⟩
    | _ => exact .inr ⟨_, rfl, Nat.succ_pos k⟩

theorem peel_error_iff (ht : t.flattened = true) : (∃ f, t.peel = .error f) ↔ t.depth = 0 := by
  cases t with
  | array e n =>
    obtain ⟨u, hu, -, -, hd⟩ := peel_array ht
    rw [depth, hu]
    simp [← hd]
  | _ => simp [peel, depth]

theorem flattened_refine (hd : d.flattened = true) (ha : a.flattened = true) : (d.refine a).flattened = true := by
  fun_cases refine d a with
  | case1 => exact ha
  | case2 b c b' c' =>
    simp only [flattened, Bool.and_eq_true] at hd ha ⊢
    have hslot {s s' : Ty} (hs : s.flattened = true) (hs' : s'.flattened = true) :
        (s.refineSlot s').flattened = true := by
      fun_cases refineSlot s s' <;> assumption
    exact ⟨hslot hd.1 ha.1, hslot hd.2 ha.2⟩
  | case3 => exact hd

end Ty

theorem Typing.type_flattened {n : Tree} {t : Ty} (hn : ∀ u ∈ n.preorder, u.dimensions < 2 ^ 32)
    (h : type n = .ok t) : t.flattened = true ∧ t.depth = n.dimensions := by
  cases n with
  | missing => cases h
  | node k text span cs =>
    rw [type.eq_def] at h
    dsimp only at h
    split at h
    · split_ifs at h
      all_goals
        cases h
        exact ⟨rfl, by simp [Ty.depth, Tree.dimensions]⟩
    case _ c cs =>
      cases hc : type c with
      | error => rw [hc] at h; cases h
      | ok u =>
        rw [hc] at h
        cases h
        obtain ⟨hf, hd⟩ := type_flattened (fun u hu => hn u (by simp [Tree.preorder, Tree.preorderAll, hu])) hc
        have hlt : c.dimensions + 1 < 2 ^ 32 := hn _ (List.mem_cons_self ..)
        rw [← hd] at hlt
        exact ⟨Ty.flattened_arrayOf hf hlt, by rw [Ty.depth_arrayOf hlt, hd, Tree.dimensions]⟩
    case _ a b cs =>
      cases ha : type a with
      | error => rw [ha] at h; cases h
      | ok u =>
        cases hb : type b with
        | error => rw [ha, hb] at h; cases h
        | ok v =>
          rw [ha, hb] at h
          cases h
          refine ⟨?_, by simp [Ty.depth, Tree.dimensions]⟩
          rw [Ty.flattened, (type_flattened (fun u hu => hn u (by simp [Tree.preorder, Tree.preorderAll, hu])) ha).1,
            (type_flattened (fun u hu => hn u (by simp [Tree.preorder, Tree.preorderAll, hu])) hb).1, Bool.and_self]
    · cases h
      exact ⟨rfl, by simp [Ty.depth, Tree.dimensions]⟩
    · cases h

/-- **Arrays kept flat stand for arrays of arrays.** -/
theorem Ty.flattened_faithful :
    (∀ t : Ty, t.flattened = true → t.depth + 1 < 2 ^ 32 →
      t.arrayOf.flattened = true ∧ t.arrayOf.depth = t.depth + 1 ∧ t.arrayOf.peel = .ok t) ∧
    (∀ (t : Ty) (k : Nat), t.flattened = true → t.depth + k < 2 ^ 32 →
      (t.arrayOfN k).flattened = true ∧ (t.arrayOfN k).depth = t.depth + k) ∧
    (∀ (e : Ty) (n : UInt32), (Ty.array e n).flattened = true →
      ∃ u, (Ty.array e n).peel = .ok u ∧ u.flattened = true ∧ u.arrayOf = .array e n) ∧
    (∀ (t : Ty) (n : UInt32), t.flattened = true →
      (∀ u, t.nested n = .ok u ↔ peelTimes n.toNat t = .ok u) ∧
      (∀ u, t.nested n = .ok u → u.flattened = true) ∧
      (t.nested n = .error (.tooManyIndices t.render n) ↔
        ∃ k < n.toNat, ∃ u f, peelTimes k t = .ok u ∧ u.peel = .error f)) ∧
    (∀ d a : Ty, d.flattened = true → a.flattened = true → (d.refine a).flattened = true) ∧
    ∀ (n : Tree) (t : Ty), (∀ u ∈ n.preorder, u.dimensions < 2 ^ 32) → Typing.type n = .ok t →
      t.flattened = true ∧ t.depth = n.dimensions := by
  refine ⟨fun t ht h => ⟨flattened_arrayOf ht h, depth_arrayOf h, peel_arrayOf ht⟩, fun t k => arrayOfN_flattened,
    fun e n h => ?_, fun t n ht => ?_, fun d a => flattened_refine, fun n t => Typing.type_flattened⟩
  · obtain ⟨u, hu, hf, ha, -⟩ := peel_array h
    exact ⟨u, hu, hf, ha⟩
  · rw [nested_eq ht n]
    rcases peelTimes_cases ht n.toNat with ⟨u, hu, hf, hd⟩ | ⟨f, hfail, hlt⟩
    · rw [if_pos (by omega), hu]
      refine ⟨fun _ => Iff.rfl, by rintro _ ⟨⟩; exact hf, by simp, ?_⟩
      -- as long as dimensions are left, one can be taken off
      rintro ⟨k, hk, v, f, hv, hfail⟩
      obtain ⟨w, hw, hfw, hdw⟩ := (peelTimes_cases ht k).resolve_right fun ⟨_, h, _⟩ => nomatch hv.symm.trans h
      cases hv.symm.trans hw
      have := (peel_error_iff hfw).1 ⟨f, hfail⟩
      omega
    · obtain ⟨u, hu, hf, hd⟩ := (peelTimes_cases ht t.depth).resolve_right fun ⟨_, _, h⟩ => Nat.lt_irrefl _ h
      obtain ⟨f', hstop⟩ := (peel_error_iff hf).2 (by omega)
      rw [if_neg (by omega), hfail]
      exact ⟨fun _ => by simp, by simp, fun _ => ⟨_, hlt, u, f', hu, hstop⟩, fun _ => rfl⟩

theorem Ty.flattened_faithful_pairs :
    let t := Ty.array (.pair (.array .int 2) .anyPair) 3
    t.flattened = true ∧ t.depth + 1 < 2 ^ 32 ∧ t.arrayOf.peel = .ok t ∧
      (t.nested 2 = .ok (.array (.pair (.array .int 2) .anyPair) 1) ↔
        peelTimes 2 t = .ok (.array (.pair (.array .int 2) .anyPair) 1)) ∧
      ∃ k < 4, ∃ u f, peelTimes k t = .ok u ∧ u.peel = .error f := by
  have ht : (Ty.array (.pair (.array .int 2) .anyPair) 3).flattened = true := by decide
  obtain ⟨harray, -, -, hnested, -⟩ := flattened_faithful
  exact ⟨ht, by decide, (harray _ ht (by decide)).2.2, (hnested _ 2 ht).1 _, (hnested _ 4 ht).2.2.1 rfl⟩

end Wacc
