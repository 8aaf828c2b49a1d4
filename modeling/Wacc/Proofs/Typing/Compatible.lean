/-
  Which places take which values.

  Compatibility is an order on the types that leave nothing open, up to equality; what is open, `[]` and
  `null`, goes with every array or pair in both directions.  It is decided on flat arrays at once, which is
  the same as taking one dimension off both sides until one of them is no array.
-/
import Wacc.Proofs.Typing.Literal

namespace Wacc

namespace Ty

/-- A type that programs can have: arrays have dimensions, and what they are over is no array. -/
def formed : Ty → Bool
  | .array (.array _ _) _ => false
  | .array e n => n != 0 && e.formed
  | .pair a b => a.formed && b.formed
  | .unknown _ => false
  | _ => true

/-- Equality as it is decided: kind, then parts. -/
def equal : Ty → Ty → Bool
  | .array e n, .array e' n' => n == n' && e.equal e'
  | .pair a b, .pair a' b' => a.equal a' && b.equal b'
  | .int, .int | .bool, .bool | .char, .char | .string, .string => true
  | .emptyArray, .emptyArray | .anyPair, .anyPair => true
  | .unknown k, .unknown k' => k == k'
  | _, _ => false

/-- The number of dimensions that can be taken off, with those inside. -/
def weight : Ty → Nat
  | .array e n => e.weight + (if n = 0 then 2 ^ 32 else n.toNat)
  | .pair a b => a.weight + b.weight + 1
  | _ => 0

variable {t u d a e e' : Ty} {n n' : UInt32}

theorem weight_peel (h : (Ty.array e n).peel = .ok t) : t.weight < (Ty.array e n).weight := by
  simp only [peel] at h
  split_ifs at h with hn
  · cases h
    subst hn
    simp [weight]
  · cases h
    simp only [weight]
    by_cases h0 : n = 0
    · subst h0
      simp
    · have h1 : 0 < n.toNat := Nat.pos_of_ne_zero fun h => h0 (UInt32.toNat_inj.1 h)
      have hpred : (n - 1).toNat = n.toNat - 1 := UInt32.toNat_sub_of_le _ _ (UInt32.le_iff_toNat_le.2 h1)
      have hne : n.toNat ≠ 1 := fun h => hn (UInt32.toNat_inj.1 h)
      rw [if_neg h0, if_neg (fun h => by have := congrArg UInt32.toNat h; simp [hpred] at this; omega), hpred]
      omega

/-- Compatibility decided by taking one dimension after the other off. -/
def peels (d a : Ty) : Except Fault Bool :=
  match d, a with
  | .array e n, .array e' n' =>
    match _h : (Ty.array e n).peel, (Ty.array e' n').peel with
    | .ok d, .ok a => peels d a
    | .error f, _ => .error f
    | _, .error f => .error f
  | .pair a b, .pair a' b' => do
    if ← peels a a' then peels b b' else return false
  | .int, .int | .bool, .bool | .char, .char | .string, .string => .ok true
  | .string, a => .ok a.isCharArray
  | .array _ _, .emptyArray => .ok true
  | .emptyArray, a => .ok a.isArray
  | .pair _ _, .anyPair => .ok true
  | .anyPair, a => .ok a.isPair
  | _, _ => .ok false
termination_by d.weight
decreasing_by
  · exact weight_peel _h
  · simp only [weight]; omega
  · simp only [weight]; omega

/-! ## Dimensions -/

theorem isFlat_of_formed (h : t.formed = true) : t.isFlat = true := by
  cases t with
  | array e n => cases e <;> simp_all [formed, isFlat]
  | _ => rfl

theorem formed_of_array (h : (Ty.array e n).formed = true) : e.formed = true := by
  cases e <;> simp_all [formed]

theorem formed_peel (h : d.formed = true) (hp : d.peel = .ok t) : t.formed = true := by
  obtain ⟨e, n, rfl, he, ⟨-, rfl⟩ | ⟨hn, rfl⟩⟩ := peel_eq_ok (isFlat_of_formed h) hp
  · exact formed_of_array h
  · have hflat := isFlat_peel (isFlat_of_formed h) hp
    cases e <;> simp_all [formed, isFlat]

/-- Taking a dimension off both sides changes nothing. -/
theorem accepts_peel (hd : d.formed = true) (ha : a.formed = true) (hp : d.peel = .ok t) (hq : a.peel = .ok u) :
    d.accepts a = t.accepts u := by
  obtain ⟨e, n, rfl, he, hn⟩ := peel_eq_ok (isFlat_of_formed hd) hp
  obtain ⟨e', n', rfl, he', hn'⟩ := peel_eq_ok (isFlat_of_formed ha) hq
  have hleft (m : UInt32) : e.accepts (.array e' m) = e.acceptsArray e' m := by
    cases e with
    | array b k => exact absurd rfl (he b k)
    | _ => rfl
  have hright (m : UInt32) : (Ty.array e m).accepts e' = (e' == .emptyArray) := by
    cases e' with
    | array b k => exact absurd rfl (he' b k)
    | _ => rfl
  rcases hn with ⟨rfl, rfl⟩ | ⟨hn, rfl⟩ <;> rcases hn' with ⟨rfl, rfl⟩ | ⟨hn', rfl⟩
  · simp [accepts]
  · rw [hleft, accepts, if_neg (fun h => UInt32.lt_irrefl _ (h ▸ hn')), if_pos hn']
  · rw [hright, accepts, if_neg (fun h => UInt32.lt_irrefl _ (h ▸ hn)), if_neg (fun h => UInt32.lt_irrefl _ (UInt32.lt_trans h hn))]
  · have hsame : n - 1 = n' - 1 ↔ n = n' := by grind
    have hless : n - 1 < n' - 1 ↔ n < n' := by
      rw [UInt32.lt_iff_toNat_lt, UInt32.lt_iff_toNat_lt, toNat_pred hn, toNat_pred hn']
      have h1 : 1 < n.toNat := hn
      omega
    have hdiff : n' - 1 - (n - 1) = n' - n := by grind
    simp only [accepts, hsame, hless, hdiff]

theorem peels_eq (hd : d.formed = true) (ha : a.formed = true) : d.peels a = .ok (d.accepts a) := by
  fun_induction peels d a with
  | case1 e n e' n' t u hp hq ih =>
    rw [ih (formed_peel hd hp) (formed_peel ha hq), accepts_peel hd ha hp hq]
  | case2 e n e' n' f hp | case3 e n e' n' f hp =>
    simp only [peel] at hp
    split_ifs at hp
  | case4 a b a' b' iha ihb =>
    simp only [formed, Bool.and_eq_true] at hd ha
    rw [iha hd.1 ha.1, ihb hd.2 ha.2, accepts]
    cases a.accepts a' <;> rfl
  | case9 a hs =>
    cases a with
    | array e n => cases e <;> simp [isCharArray, accepts, acceptsArray]
    | string => exact absurd rfl hs
    | _ => rfl
  | case14 d a _ _ _ harrays hpairs =>
    cases d <;> cases a <;>
      first | exact (harrays _ _ _ _ rfl rfl).elim | exact (hpairs _ _ _ _ rfl rfl).elim | simp_all [accepts]
  | _ => rfl

/-! ## Laws -/

theorem accepts_refl (h : t.formed = true) : t.accepts t = true := by
  induction t with
  | array e n ih => simp [accepts, ih (formed_of_array h)]
  | pair a b iha ihb =>
    simp only [formed, Bool.and_eq_true] at h
    simp [accepts, iha h.1, ihb h.2]
  | unknown => cases h
  | _ => rfl

theorem size_of_accepts (h : d.accepts a = true) : d.size = a.size := by
  cases d <;> cases a <;> first | rfl | simp [accepts, isArray, isPair] at h

theorem equal_iff : t.equal u = true ↔ t = u := by
  induction t generalizing u with
  | array e n ih => cases u <;> simp [equal, ih, and_comm]
  | pair a b iha ihb => cases u <;> simp [equal, iha, ihb]
  | _ => cases u <;> simp [equal]

theorem accepts_antisymm (ht : t.definite = true) (hu : u.definite = true) (h : t.accepts u = true)
    (h' : u.accepts t = true) : t = u := by
  induction t generalizing u with
  | array e n ih =>
    obtain ⟨e', n', rfl⟩ := exists_array_of_accepts hu h
    simp only [definite, Bool.and_eq_true] at ht hu
    have hopen : e ≠ .emptyArray ∧ e' ≠ .emptyArray :=
      ⟨by rintro rfl; simp [definite] at ht, by rintro rfl; simp [definite] at hu⟩
    rw [accepts_array_iff] at h h'
    rcases h with ⟨rfl, h⟩ | ⟨hlt, -⟩ | ⟨-, he⟩
    · have h' : e'.accepts e = true := by simpa [UInt32.lt_irrefl] using h'
      rw [ih ht.2 hu.2 h h']
    · rcases h' with ⟨rfl, -⟩ | ⟨hgt, -⟩ | ⟨-, he⟩
      · exact absurd hlt (UInt32.lt_irrefl _)
      · exact absurd (UInt32.lt_trans hlt hgt) (UInt32.lt_irrefl _)
      · exact absurd he hopen.1
    · exact absurd he hopen.2
  | pair a b iha ihb =>
    cases u <;> simp only [accepts, definite, Bool.false_eq_true, Bool.and_eq_true] at h h' ht hu
    rw [iha ht.1 hu.1 h.1 h'.1, ihb ht.2 hu.2 h.2 h'.2]
  | string => exact (eq_string_of_accepts h').symm
  | _ => cases u <;> simp_all [accepts, definite]

/-- **Compatibility.**  Taking dimensions off one after the other never asks for one that is not there, and comes
    to what is decided at once.  Every type takes itself; a place is as large as what it takes; equal types can
    stand for each other; and on the types that leave nothing open compatibility is an order. -/
theorem accepts_isOrder :
    (∀ d a : Ty, d.formed = true → a.formed = true → d.peels a = .ok (d.accepts a)) ∧
    (∀ t : Ty, t.formed = true → t.accepts t = true) ∧
    (∀ d a : Ty, d.formed = true → a.formed = true → d.accepts a = true → d.size = a.size) ∧
    (∀ t u : Ty, t.formed = true → u.formed = true → t.equal u = true →
      ∀ x, t.accepts x = u.accepts x ∧ x.accepts t = x.accepts u) ∧
    (∀ t u v : Ty, (∀ x ∈ [t, u, v], x.formed = true ∧ x.definite = true) →
      t.accepts u = true → u.accepts v = true → t.accepts v = true) ∧
    ∀ t u : Ty, (∀ x ∈ [t, u], x.formed = true ∧ x.definite = true) →
      t.accepts u = true → u.accepts t = true → t.equal u = true := by
  refine ⟨fun d a => peels_eq, fun t => accepts_refl, fun d a _ _ => size_of_accepts, fun t u _ _ h x => ?_,
    fun t u v h => ?_, fun t u h htu hut => ?_⟩
  · rw [equal_iff.1 h]
    exact ⟨rfl, rfl⟩
  · exact accepts_trans (h u (by simp)).2 (h v (by simp)).2
  · exact equal_iff.2 (accepts_antisymm (h t (by simp)).2 (h u (by simp)).2 htu hut)

/-- Arrays of strings take arrays of character arrays, and not the other way round. -/
theorem accepts_isOrder_strings :
    (Ty.array .string 1).peels (.array .char 2) = .ok true ∧ (Ty.array .string 1).accepts (.array .string 1) = true ∧
    (Ty.array .string 1).size = (Ty.array .char 2).size ∧
    (Ty.pair .int (.array .string 1)).accepts (.pair .int (.array .char 2)) = true ∧
    (Ty.array .char 2).accepts (.array .string 1) = false := by
  obtain ⟨hpeels, hself, hsize, -, htrans, -⟩ := accepts_isOrder
  refine ⟨?_, hself _ rfl, hsize _ (.array .char 2) rfl rfl rfl, ?_, rfl⟩
  · rw [hpeels _ _ rfl rfl]
    rfl
  · exact htrans _ (.pair .int (.array .string 1)) _ (by decide) rfl rfl

/-! ## Filling pairs -/

theorem refineSlot_accepts (ha : a.formed = true) : (d.refineSlot a).accepts a = d.accepts a := by
  unfold refineSlot
  split
  · exact accepts_refl ha
  · rfl

theorem accepts_of_refineSlot (h : (d.refineSlot a).accepts u = true) : d.accepts u = true := by
  unfold refineSlot at h
  split at h
  · cases u <;> simp_all [accepts, isPair]
  · exact h

theorem refineSlot_refineSlot (d a : Ty) : (d.refineSlot a).refineSlot a = d.refineSlot a := by
  unfold refineSlot
  split <;> split <;> simp_all

theorem refine_accepts (ha : a.formed = true) : (d.refine a).accepts a = d.accepts a := by
  unfold refine
  split
  · exact accepts_refl ha
  · simp only [formed, Bool.and_eq_true] at ha
    rw [accepts, accepts, refineSlot_accepts ha.1, refineSlot_accepts ha.2]
  · rfl

theorem accepts_of_refine (h : (d.refine a).accepts u = true) : d.accepts u = true := by
  unfold refine at h
  split at h
  · cases u <;> simp_all [accepts, isPair]
  · cases u <;> simp only [accepts, Bool.false_eq_true, Bool.and_eq_true] at h ⊢
    exact ⟨accepts_of_refineSlot h.1, accepts_of_refineSlot h.2⟩
  · exact h

theorem refineSlot_self (t : Ty) : t.refineSlot t = t := by cases t <;> rfl

theorem refine_refine (d a : Ty) : (d.refine a).refine a = d.refine a := by
  cases a with
  | pair a b =>
    cases d with
    | anyPair => simp [refine, refineSlot_self]
    | pair => simp [refine, refineSlot_refineSlot]
    | _ => rfl
  | _ => cases d <;> rfl

end Ty

/-- A variable is declared, in the table and in the statement, with the written type filled from its value. -/
theorem Typing.declare_refines {site : Site} {written : Ty} {name : Tree} {v : Value} {T T' : Table}
    {c : Checked Stat} (h : declare site written name (.ok v) T = .ok (c, T')) :
    ∃ d, T.declare site.scope name.text (written.refine v.type) name.span = .ok (d, T') ∧
      c.Holds (· = .declare site d.id name.text (written.refine v.type) v) := by
  have hwp : Wp (declare site written name (.ok v)) (fun a U => a = c ∧ U = T') T := ⟨c, T', h, rfl, rfl⟩
  simp only [declare, wp_bind, wp_get, wp_lift, wp_set, wp_pure] at hwp
  obtain ⟨⟨d, U⟩, hd, rfl, rfl⟩ := hwp
  exact ⟨d, hd, Checked.Holds.check (Checked.holds_ok rfl)⟩

/-- **Filling the pairs of a declared type** from the type of its first value neither refuses the value nor takes
    more than what is written: it is done once for all, keeps the size, and takes nothing that the written type
    refuses. -/
theorem Ty.refine_narrows : ∀ d a : Ty, d.formed = true → a.formed = true →
    (d.refine a).accepts a = d.accepts a ∧ ((d.refine a).refine a).equal (d.refine a) = true ∧
    (d.refine a).size = d.size ∧ (∀ x, (d.refine a).accepts x = true → d.accepts x = true) ∧
    ∀ site name v T c T', v.type = a → Typing.declare site d name (.ok v) T = .ok (c, T') →
      ∃ r, T.declare site.scope name.text (d.refine a) name.span = .ok (r, T') ∧
        c.Holds (· = .declare site r.id name.text (d.refine a) v) := by
  intro d a _ ha
  refine ⟨refine_accepts ha, equal_iff.2 (refine_refine d a), Typing.size_refine d a, fun x => accepts_of_refine, ?_⟩
  rintro site name v T c T' rfl h
  exact Typing.declare_refines h

/-- The slot that is not written is filled, the other one stays. -/
theorem Ty.refine_narrows_pair :
    (Ty.pair .anyPair .string).refine (.pair (.pair .int .int) (.array .char 1)) = .pair (.pair .int .int) .string ∧
    ((Ty.pair .anyPair .string).refine (.pair (.pair .int .int) (.array .char 1))).accepts
      (.pair (.pair .int .int) (.array .char 1)) = true ∧
    (∀ x, (Ty.pair (.pair .int .int) .string).accepts x = true → (Ty.pair .anyPair .string).accepts x = true) ∧
    (Ty.pair (.pair .int .int) .string).accepts (.pair (.pair .bool .int) .string) = false := by
  obtain ⟨haccepts, -, -, hnarrows, -⟩ :=
    refine_narrows (.pair .anyPair .string) (.pair (.pair .int .int) (.array .char 1)) rfl rfl
  exact ⟨rfl, haccepts, hnarrows, rfl⟩

end Wacc
