/-
  Generation steps that keep the stack in balance.
-/
import Wacc.Proofs.Arm.Walk

namespace Wacc.Arm

namespace Gen

variable {α β : Type} {T : Table} {s s' : Stage} {o : List Line} {x : VarId} {n : Int} {r : Reg} {d : Int} {t : Ty}

/-! ## Running -/

/-- The step ends without a fault, in an outcome, lines and a stage that satisfy `Q`. -/
def Wp (x : Gen α) (Q : α → List Line → Stage → Prop) (T : Table) (s : Stage) : Prop :=
  ∃ a out s', x T s = .ok (a, out, s') ∧ Q a out s'

section
variable {Q : α → List Line → Stage → Prop} {f : β → Gen α} {x : Gen β} {ls : List Line} {b : β}

theorem Wp.weaken {Q' : α → List Line → Stage → Prop} {x : Gen α} (h : Wp x Q T s)
    (hq : ∀ a out s', Q a out s' → Q' a out s') : Wp x Q' T s := by
  obtain ⟨a, out, s', hx, h⟩ := h
  exact ⟨a, out, s', hx, hq a out s' h⟩

theorem Wp.seq {P : β → List Line → Stage → Prop} (hx : Wp x P T s) (hf : ∀ b o s1, P b o s1 → Wp (f b) (fun a o' s2
      => Q a (o ++ o') s2) T s1) : Wp (x >>= f) Q T s := by
  obtain ⟨b, o, s1, hx, hp⟩ := hx
  obtain ⟨a, o', s2, hfx, hq⟩ := hf b o s1 hp
  exact ⟨a, o ++ o', s2, by simp only [bind, hx, hfx], hq⟩

theorem wp_pure {a : α} : Wp (pure a) Q T s ↔ Q a [] s :=
  ⟨fun ⟨_, _, _, h, hq⟩ => by cases h; exact hq, fun h => ⟨a, [], s, rfl, h⟩⟩

theorem run_bind {s1 : Stage} (hx : x T s = .ok (b, [], s1)) : (x >>= f) T s = f b T s1 := by
  simp only [bind, hx]
  cases f b T s1 with
  | error => rfl
  | ok r => obtain ⟨a, o, s2⟩ := r; rfl

theorem wp_bind_pure {s1 : Stage} (hx : x T s = .ok (b, [], s1)) : Wp (x >>= f) Q T s ↔ Wp (f b) Q T s1 := by
  simp only [Wp, run_bind hx]

theorem wp_when {c : Prop} [Decidable c] {x : Gen Unit} {f : Unit → Gen α}
    {P : Unit → List Line → Stage → Prop} (hx : c → Wp x P T s) (hp : ¬ c → P () [] s)
    (hf : ∀ o s1, P () o s1 → Wp (f ()) (fun a o' s2 => Q a (o ++ o') s2) T s1) :
    Wp (if c then x >>= f else f ()) Q T s := by
  split_ifs with h
  · exact (hx h).seq fun _ => hf
  · exact hf [] s (hp h)

theorem bind_assoc {γ : Type} (x : Gen α) (f : α → Gen β) (g : β → Gen γ) :
    x >>= f >>= g = x >>= fun a => f a >>= g := by
  funext t s
  simp only [bind]
  cases x t s with
  | error e => rfl
  | ok r =>
    obtain ⟨a, o, s1⟩ := r
    dsimp only
    cases f a t s1 with
    | error e => rfl
    | ok r =>
      obtain ⟨b, o', s2⟩ := r
      dsimp only
      cases g b t s2 with
      | error e => rfl
      | ok r => simp only [List.append_assoc]

theorem bind_eq_ok {a : α} {out : List Line} (h : (x >>= f) T s = .ok (a, out, s')) :
    ∃ b o s1 o', x T s = .ok (b, o, s1) ∧ f b T s1 = .ok (a, o', s') ∧ out = o ++ o' := by
  simp only [bind] at h
  split at h
  · cases h
  · rename_i b o s1 hx
    split at h
    · cases h
    · rename_i a' o' s2 hf
      cases h
      exact ⟨b, o, s1, o', hx, hf, rfl⟩

theorem wp_stage {f : Stage → Gen α} : Wp (stage >>= f) Q T s ↔ Wp (f s) Q T s := wp_bind_pure rfl

theorem wp_update {g : Stage → Stage} {f : Unit → Gen α} :
    Wp (update g >>= f) Q T s ↔ Wp (f ()) Q T (g s) := wp_bind_pure rfl

theorem wp_lift {x : Except Fault β} (hx : x = .ok b) :
    Wp (lift x >>= f) Q T s ↔ Wp (f b) Q T s := wp_bind_pure (by subst hx; rfl)

theorem wp_lines {Q : Unit → List Line → Stage → Prop} : Wp (lines ls) Q T s ↔ Q () ls s :=
  ⟨fun ⟨_, _, _, h, hq⟩ => by cases h; exact hq, fun h => ⟨(), ls, s, rfl, h⟩⟩

theorem wp_bind_lines {f : Unit → Gen α} :
    Wp (lines ls >>= f) Q T s ↔ Wp (f ()) (fun a o s' => Q a (ls ++ o) s') T s := by
  constructor
  · rintro ⟨a, out, s', h, hq⟩
    simp only [bind, lines] at h
    split at h
    · cases h
    · rename_i b more s1 hf
      obtain ⟨rfl, rfl, rfl⟩ : b = a ∧ ls ++ more = out ∧ s1 = s' := by simpa using h
      exact ⟨_, _, _, hf, hq⟩
  · rintro ⟨a, out, s', h, hq⟩
    exact ⟨a, ls ++ out, s', by simp only [bind, lines, h], hq⟩

theorem wp_bind_emit {i : Instr} {f : Unit → Gen α} :
    Wp (emit i >>= f) Q T s ↔ Wp (f ()) (fun a o s' => Q a (.instr i :: o) s') T s := wp_bind_lines

theorem wp_emit {i : Instr} {Q : Unit → List Line → Stage → Prop} :
    Wp (emit i) Q T s ↔ Q () [.instr i] s := wp_lines

end

/-! ## Balanced steps -/

/-- The lines push `k` bytes, and the stage knows; scopes and places are as before. -/
structure Keeps (s : Stage) (k : Int) (out : List Line) (s' : Stage) : Prop where
  depth : s'.depth = s.depth + k
  entry : s'.entry = s.entry
  places : s'.places = s.places
  straight : Straight s.depth out s'.depth

structure Room (s : Stage) (n : Int) : Prop where
  nonneg : 0 ≤ s.depth
  below : s.depth + n < depthLimit

theorem Keeps.refl (s : Stage) : Keeps s 0 [] s := ⟨by simp, rfl, rfl, .nil _⟩

theorem Keeps.trans {k l : Int} {o o' : List Line} {s'' : Stage} (h : Keeps s k o s')
    (h' : Keeps s' l o' s'') : Keeps s (k + l) (o ++ o') s'' :=
  ⟨by rw [h'.depth, h.depth]; ring, h'.entry.trans h.entry, h'.places.trans h.places,
    h.straight.append h'.straight⟩

theorem Keeps.cast {k l : Int} (h : Keeps s k o s') (hk : k = l) : Keeps s l o s' := hk ▸ h

theorem Room.le {m n : Int} (h : Room s n) (hm : m ≤ n) : Room s m := ⟨h.nonneg, by have := h.below; omega⟩

theorem Room.after {k m n : Int} (h : Room s n) (hk : Keeps s k o s') (h0 : 0 ≤ k) (hm : k + m ≤ n) : Room s' m := by
  have := h.nonneg
  have := h.below
  have := hk.depth
  exact ⟨by omega, by omega⟩

theorem Room.same (h : Room s n) (hk : Keeps s 0 o s') : Room s' n :=
  h.after hk le_rfl (by omega)

/-- An instruction that leaves the stack pointer alone and does not branch. -/
structure Neutral (i : Instr) : Prop where
  walk : ∀ places d, i.walk places d = some ⟨some d, places⟩
  named : i.Named

theorem emit_keeps {i : Instr} (h : Neutral i) : Wp (emit i) (fun _ => Keeps s 0) T s :=
  wp_emit.2 ⟨by simp, rfl, rfl, .instr (fun places => h.walk places _) h.named⟩

theorem neutral_alu {op : Alu} {d a : Reg} {b : Operand} (h : d ≠ .sp) : Neutral (.alu op d a b) := by
  refine ⟨fun places e => ?_, trivial⟩
  unfold Instr.walk
  split <;> simp_all

theorem deep_ok {places : Nat → Option Int} (h0 : 0 ≤ d) (h : d < depthLimit) :
    Point.deep places d = some ⟨some d, places⟩ := if_pos ⟨h0, h⟩

theorem stepsOf_sub {n : Nat} (h0 : 0 ≤ d) (h : d + n < depthLimit) :
    Straight d ((stepsOf .sub n).map .instr) (d + n) := by
  induction n using Nat.strong_induction_on generalizing d with
  | _ n ih =>
    rw [stepsOf]
    split_ifs with hn
    · subst hn; simpa using Straight.nil d
    · set m := min n maxStep with hm
      have hpos : 0 < m ∧ m ≤ n := by simp only [maxStep] at hm; omega
      have hcast : min (n : Int) maxStep = m := by rw [hm, Nat.cast_min]
      have htail := ih (n - m) (by omega) (d := d + m) (by omega) (by omega)
      have hhead : Straight d [.instr (.alu .sub .sp .sp (.imm (min (n : Int) maxStep)))] (d + m) := by
        refine .instr (fun places => ?_) trivial
        rw [hcast]
        exact deep_ok (by omega) (by omega)
      rw [List.map_cons, ← List.singleton_append, show d + (n : Int) = d + m + (n - m : Nat) by omega]
      exact hhead.append htail

theorem stepsOf_add {n : Nat} (h0 : n ≤ d) (h : d < depthLimit) :
    Straight d ((stepsOf .add n).map .instr) (d - n) := by
  induction n using Nat.strong_induction_on generalizing d with
  | _ n ih =>
    rw [stepsOf]
    split_ifs with hn
    · subst hn; simpa using Straight.nil d
    · set m := min n maxStep with hm
      have hpos : 0 < m ∧ m ≤ n := by simp only [maxStep] at hm; omega
      have hcast : min (n : Int) maxStep = m := by rw [hm, Nat.cast_min]
      have htail := ih (n - m) (by omega) (d := d - m) (by omega) (by omega)
      have hhead : Straight d [.instr (.alu .add .sp .sp (.imm (min (n : Int) maxStep)))] (d - m) := by
        refine .instr (fun places => ?_) trivial
        rw [hcast]
        exact deep_ok (by omega) (by omega)
      rw [List.map_cons, ← List.singleton_append, show d - (n : Int) = d - m - (n - m : Nat) by omega]
      exact hhead.append htail

theorem wp_deepen {Q : Unit → List Line → Stage → Prop} :
    Wp (deepen n) Q T s ↔ Q () [] { s with depth := s.depth + n } :=
  ⟨fun ⟨_, _, _, h, hq⟩ => by cases h; exact hq, fun h => ⟨_, _, _, rfl, h⟩⟩

theorem grow_keeps (hn : 0 ≤ n) (h : Room s n) : Wp (grow n) (fun _ => Keeps s n) T s := by
  obtain ⟨h0, hlt⟩ := h
  refine wp_bind_lines.2 (wp_deepen.2 ⟨rfl, rfl, rfl, ?_⟩)
  have := stepsOf_sub (n := n.toNat) h0 (by rw [Int.toNat_of_nonneg hn]; exact hlt)
  rwa [Int.toNat_of_nonneg hn, ← List.append_nil (List.map _ _)] at this

theorem shrink_keeps (hn : 0 ≤ n) (hd : n ≤ s.depth) (h : Room s 0) : Wp (shrink n) (fun _ => Keeps s (-n)) T s := by
  refine wp_bind_lines.2 (wp_deepen.2 ⟨rfl, rfl, rfl, ?_⟩)
  have := stepsOf_add (n := n.toNat) (d := s.depth) (by rw [Int.toNat_of_nonneg hn]; exact hd)
    (by have := h.below; omega)
  rwa [Int.toNat_of_nonneg hn, ← List.append_nil (List.map _ _)] at this

theorem pushReg_keeps (h : Room s 4) : Wp (pushReg r) (fun _ => Keeps s 4) T s := by
  obtain ⟨h0, hlt⟩ := h
  refine wp_bind_emit.2 (wp_deepen.2 ⟨rfl, rfl, rfl, .instr (fun places => ?_) trivial⟩)
  exact deep_ok (by simp; omega) (by simpa using hlt)

theorem popReg_keeps (hr : r ≠ .pc) (hd : 4 ≤ s.depth) (h : Room s 0) :
    Wp (popReg r) (fun _ => Keeps s (-4)) T s := by
  have hlt := h.below
  refine wp_bind_emit.2 (wp_deepen.2 ⟨rfl, rfl, rfl, .instr (fun places => ?_) trivial⟩)
  have hpc : ([r] : List Reg).contains .pc = false := by simpa using Ne.symm hr
  simp only [Instr.walk, hpc, Bool.false_eq_true, if_false, List.length_singleton]
  exact deep_ok (by simp; omega) (by simp; omega)

theorem pushValue_keeps (h : Room s 4) : Wp (pushValue r t) (fun _ => Keeps s t.size.toNat) T s := by
  have hsz : t.size.toNat ≤ 4 := by cases t <;> simp [Ty.size]
  obtain ⟨h0, hlt⟩ := h
  refine wp_bind_emit.2 (wp_deepen.2 ⟨rfl, rfl, rfl, .instr (fun places => ?_) trivial⟩)
  exact deep_ok (by omega) (by omega)

/-! ## Variables and memory -/

def HasSlot (T : Table) (s : Stage) (x : VarId) : Prop :=
  ∃ v base, T.var? x = some v ∧ s.entry.lookup v.scope = some base ∧ 0 ≤ s.depth - base - v.offset.toNat

theorem HasSlot.after {k : Int} (h : HasSlot T s x) (hk : Keeps s k o s') (h0 : 0 ≤ k) : HasSlot T s' x := by
  obtain ⟨v, base, hv, hb, hle⟩ := h
  have := hk.depth
  exact ⟨v, base, hv, by rw [hk.entry]; exact hb, by omega⟩

theorem slot_eq {v : Variable} {base : Int} (hv : T.var? x = some v) (hb : s.entry.lookup v.scope = some base)
    (h0 : 0 ≤ s.depth - base - v.offset.toNat) :
    slot x T s = .ok ((s.depth - base - v.offset.toNat, v.type), [], s) := by
  rw [slot, run_bind (show table T s = .ok (T, [], s) from rfl)]
  simp only [hv]
  rw [run_bind (show stage T s = .ok (s, [], s) from rfl)]
  simp only [hb]
  rw [if_neg (not_lt.2 h0)]
  rfl

theorem access_keeps {mk : Address → Instr} {limit off : Int} {base : Reg} (h : ∀ a, Neutral (mk a)) :
    Wp (access mk limit base off) (fun _ => Keeps s 0) T s := by
  unfold access
  split_ifs
  · exact emit_keeps (h _)
  · refine (emit_keeps ⟨fun _ _ => rfl, by trivial⟩).seq fun _ o1 s1 k1 => ?_
    exact (emit_keeps (h _)).weaken fun _ o2 s2 k2 => k1.trans k2

theorem load_keeps {d base : Reg} {off : Int} : Wp (load d base off t) (fun _ => Keeps s 0) T s := by
  unfold load
  split
  · exact access_keeps fun _ => ⟨fun _ _ => rfl, trivial⟩
  · exact access_keeps fun _ => ⟨fun _ _ => rfl, trivial⟩

theorem store_keeps {r base : Reg} {off : Int} :
    Wp (store r base off t) (fun _ => Keeps s 0) T s := access_keeps fun _ => ⟨fun _ _ => rfl, trivial⟩

theorem loadVar_keeps {d : Reg} (h : HasSlot T s x) : Wp (loadVar d x) (fun _ => Keeps s 0) T s := by
  obtain ⟨v, base, hv, hb, h0⟩ := h
  exact (wp_bind_pure (slot_eq hv hb h0)).2 load_keeps

theorem storeVar_keeps (h : HasSlot T s x) : Wp (storeVar r x) (fun _ => Keeps s 0) T s := by
  obtain ⟨v, base, hv, hb, h0⟩ := h
  exact (wp_bind_pure (slot_eq hv hb h0)).2 store_keeps

theorem addressOf_keeps {d : Reg} (h : HasSlot T s x) (hd : d ≠ .sp) :
    Wp (addressOf d x) (fun _ => Keeps s 0) T s := by
  obtain ⟨v, base, hv, hb, h0⟩ := h
  refine (wp_bind_pure (slot_eq hv hb h0)).2 ?_
  dsimp only
  split_ifs
  · exact emit_keeps (neutral_alu hd)
  · refine (emit_keeps ⟨fun _ _ => rfl, by trivial⟩).seq fun _ o1 s1 k1 => ?_
    exact (emit_keeps (neutral_alu hd)).weaken fun _ o2 s2 k2 => k1.trans k2

/-! ## Calls -/

theorem padding_spec (d : Int) : 0 ≤ padding d ∧ padding d ≤ 7 ∧ (d + padding d) % 8 = 0 := by
  simp only [padding, alignment]
  have hd := Int.tmod_add_mul_tdiv d 8
  have hhigh := Int.tmod_lt_of_pos d (b := 8) (by decide)
  have hmod : (8 - d.tmod 8).tmod 8 = (8 - d.tmod 8) % 8 := Int.tmod_eq_emod_of_nonneg (by omega)
  omega

theorem callOut_keeps {c : Cond} {f : Callee} (hf : ¬ (c = .always ∧ f.ends = true)) (hn : f.Named)
    (h : Room s 8) : Wp (callOut c f) (fun _ => Keeps s 0) T s := by
  obtain ⟨hp0, hp7, hmod⟩ := padding_spec s.depth
  refine wp_stage.2 ?_
  refine (grow_keeps hp0 (h.le (by omega))).seq fun _ o1 s1 k1 => ?_
  have hd := k1.depth
  have hr1 : Room s1 0 := h.after k1 hp0 (by omega)
  have hcall : Wp (emit (.call c f)) (fun _ => Keeps s1 0) T s1 := by
    refine wp_emit.2 ⟨by simp, rfl, rfl, .instr (fun places => ?_) hn⟩
    simp only [Instr.walk, hd, hmod, ne_eq, not_true_eq_false, if_false, if_neg hf]
  refine hcall.seq fun _ o2 s2 k2 => ?_
  have hd2 := k2.depth
  have := h.nonneg
  refine (shrink_keeps hp0 (by omega) (hr1.same k2)).weaken fun _ o3 s3 k3 => ?_
  exact (k1.trans (k2.trans k3)).cast (by ring)

theorem wp_useRoutine {r : Routine} {f : Unit → Gen α} {Q : α → List Line → Stage → Prop} :
    Wp (useRoutine r >>= f) Q T s ↔ Wp (f ()) Q T { s with used := Routine.use 4 s.used [r] } :=
  wp_update

theorem callRoutine_keeps {c : Cond} {r : Routine} (hr : ¬ (c = .always ∧ r = .throwRuntime))
    (h : Room s 8) : Wp (callRoutine c r) (fun _ => Keeps s 0) T s := by
  refine wp_useRoutine.2 ?_
  have hf : ¬ (c = .always ∧ (Callee.label (.routine r)).ends = true) := by
    rintro ⟨hc, he⟩
    cases r <;> first | exact hr ⟨hc, rfl⟩ | cases he
  have hroom : Room { s with used := Routine.use 4 s.used [r] } 8 := ⟨h.nonneg, h.below⟩
  exact (callOut_keeps hf trivial hroom).weaken fun _ _ _ k => ⟨k.depth, k.entry, k.places, k.straight⟩

theorem callExtern_keeps {e : Extern} (he : e ≠ .exit) (h : Room s 8) :
    Wp (callExtern e) (fun _ => Keeps s 0) T s := by
  refine callOut_keeps ?_ trivial h
  rintro ⟨-, hends⟩
  cases e <;> first | exact he rfl | cases hends

theorem copy_keeps {d r : Reg} : Wp (copy d r) (fun _ => Keeps s 0) T s := emit_keeps ⟨fun _ _ => rfl, trivial⟩

theorem stringConst_keeps {t : Text} :
    Wp (stringConst t) (fun l out s' => Keeps s 0 out s' ∧ l.Named) T s := by
  refine wp_stage.2 ?_
  split
  · exact wp_pure.2 ⟨.refl s, trivial⟩
  · exact wp_update.2 (wp_pure.2 ⟨⟨by simp, rfl, rfl, .nil _⟩, trivial⟩)

end Gen

end Wacc.Arm
