/-
  Code for expressions keeps the stack in balance.
-/
import Wacc.Proofs.Arm.Gen
import Wacc.Proofs.Typing.Expr

namespace Wacc.Arm.Gen

variable {T : Table} {sc : ScopeId} {s s' : Stage} {rest : List Reg} {d : Reg}

def Free (rs : List Reg) : Prop := ∀ r ∈ rs, r ∈ pool

theorem Free.head (h : Free (d :: rest)) : d ≠ .sp ∧ d ≠ .pc := by
  have := h d List.mem_cons_self
  constructor <;> rintro rfl <;> simp [pool] at this

theorem Free.tail (h : Free (d :: rest)) : Free rest :=
  fun r hr => h r (List.mem_cons_of_mem _ hr)

theorem pool_free : Free pool := fun _ h => h

/-- The code of the expression is generated and balanced wherever its variables have a place. -/
def Balanced (T : Table) (e : Expr) : Prop :=
  ∀ (d : Reg) (rest : List Reg) (s : Stage), Free (d :: rest) → (∀ x ∈ e.vars, HasSlot T s x) →
    Room s (4 * e.size + 8) → Wp (expr e (d :: rest)) (fun _ => Keeps s 0) T s

theorem apply_keeps {op : BinOp} {rule : BinRule} {d l r : Reg} (ho : op.rule? = some rule) (hd : d ≠ .sp)
    (h : Room s 8) : Wp (apply op d l r) (fun _ => Keeps s 0) T s := by
  have hcond : ∀ {yes no : Cond}, Wp (do
      emit (.cmp l (.reg r))
      emit (.mov yes d (.imm 1))
      emit (.mov no d (.imm 0))) (fun _ => Keeps s 0) T s := by
    refine (emit_keeps ⟨fun _ _ => rfl, by trivial⟩).seq fun _ o1 s1 k1 => ?_
    refine (emit_keeps ⟨fun _ _ => rfl, by trivial⟩).seq fun _ o2 s2 k2 => ?_
    exact (emit_keeps ⟨fun _ _ => rfl, by trivial⟩).weaken fun _ o3 s3 k3 => k1.trans (k2.trans k3)
  have hdivide : ∀ {e : Extern} {q : Reg}, e ≠ .exit → Wp (do
      copy .r0 l
      copy .r1 r
      callRoutine .always .checkDivideByZero
      callExtern e
      copy d q) (fun _ => Keeps s 0) T s := by
    intro e q he
    refine copy_keeps.seq fun _ o1 s1 k1 => ?_
    refine copy_keeps.seq fun _ o2 s2 k2 => ?_
    have h2 := (h.same k1).same k2
    refine (callRoutine_keeps (by simp) h2).seq fun _ o3 s3 k3 => ?_
    refine (callExtern_keeps he (h2.same k3)).seq fun _ o4 s4 k4 => ?_
    exact copy_keeps.weaken fun _ o5 s5 k5 => k1.trans (k2.trans (k3.trans (k4.trans k5)))
  cases op with
  | add | sub =>
    refine (emit_keeps (neutral_alu hd)).seq fun _ o1 s1 k1 => ?_
    exact (callRoutine_keeps (by simp) (h.same k1)).weaken fun _ o2 s2 k2 => k1.trans k2
  | mul =>
    refine (emit_keeps ⟨fun _ _ => rfl, by trivial⟩).seq fun _ o1 s1 k1 => ?_
    refine (emit_keeps ⟨fun _ _ => rfl, by trivial⟩).seq fun _ o2 s2 k2 => ?_
    exact (callRoutine_keeps (by simp) ((h.same k1).same k2)).weaken
      fun _ o3 s3 k3 => k1.trans (k2.trans k3)
  | div | mod => exact hdivide (by decide)
  | and | or => exact emit_keeps (neutral_alu hd)
  | unknown => simp [BinOp.rule?] at ho
  | _ => exact hcond

theorem applyUnary_keeps {op : UnOp} {rule : UnRule} (ho : op.rule? = some rule) (hd : d ≠ .sp) (h : Room s 8) :
    Wp (applyUnary op d) (fun _ => Keeps s 0) T s := by
  cases op with
  | not => exact emit_keeps (neutral_alu hd)
  | minus =>
    refine (emit_keeps (neutral_alu hd)).seq fun _ o1 s1 k1 => ?_
    exact (callRoutine_keeps (by simp) (h.same k1)).weaken fun _ o2 s2 k2 => k1.trans k2
  | len => exact emit_keeps ⟨fun _ _ => rfl, trivial⟩
  | ord | chr => exact wp_pure.2 (.refl s)
  | unknown => simp [UnOp.rule?] at ho

theorem step_keeps {arr i : Reg} {t : Ty} (ha : arr ≠ .sp) (h : Room s 8) :
    Wp (step arr i t) (fun _ => Keeps s 0) T s := by
  refine copy_keeps.seq fun _ o1 s1 k1 => ?_
  refine copy_keeps.seq fun _ o2 s2 k2 => ?_
  refine (callRoutine_keeps (by simp) ((h.same k1).same k2)).seq fun _ o3 s3 k3 => ?_
  refine (emit_keeps (neutral_alu ha)).seq fun _ o4 s4 k4 => ?_
  exact (emit_keeps (neutral_alu ha)).weaken fun _ o5 s5 k5 => k1.trans (k2.trans (k3.trans (k4.trans k5)))

theorem indices_keeps {array e : Ty} {dims : UInt32} (harray : array = .array e dims) {is : List Expr} {done : Nat}
    {arr : Reg} (hd : done + is.length ≤ dims.toNat) (his : ∀ i ∈ is, Balanced T i) (hf : Free (arr :: rest))
    (hv : ∀ x ∈ Expr.varsAll is, HasSlot T s x) (h : Room s (4 * (1 + Expr.sizes is) + 8)) :
    Wp (indices array done is arr rest) (fun _ => Keeps s 0) T s := by
  induction is generalizing done s with
  | nil => rw [indices]; exact wp_pure.2 (.refl s)
  | cons i is ih =>
    obtain ⟨hi, htail⟩ := List.forall_mem_cons.1 his
    have hsp := hf.head
    have hlen : (done + 1).toUInt32.toNat = done + 1 := by
      have := dims.toNat_lt
      simp only [List.length_cons] at hd
      exact Table.toNat_number (by omega)
    obtain ⟨t, ht⟩ := Typing.nested_ok (e := e) (d := dims) (n := (done + 1).toUInt32)
      (UInt32.le_iff_toNat_le.2 (by rw [hlen]; simp only [List.length_cons] at hd; omega))
    rw [← harray] at ht
    have hvi : ∀ x ∈ i.vars, HasSlot T s x := fun x hx => hv x (by
      rw [Expr.varsAll]; exact List.mem_append_left _ hx)
    have hvs : ∀ x ∈ Expr.varsAll is, HasSlot T s x := fun x hx => hv x (by
      rw [Expr.varsAll]; exact List.mem_append_right _ hx)
    simp only [Expr.sizes, Nat.cast_add] at h
    -- what follows the evaluation of the index, in a register `r`, after code `o` that keeps the depth
    have hrest : ∀ {o : List Line} {s1 : Stage} {r : Reg}, Keeps s 0 o s1 →
        Wp (do
          step arr r (← lift (array.nested (done + 1).toUInt32))
          if !is.isEmpty then emit (.load .word arr (.offset arr 0))
          indices array (done + 1) is arr rest) (fun _ o' s2 => Keeps s 0 (o ++ o') s2) T s1 := by
      intro o s1 r k1
      refine (wp_lift ht).2 ?_
      have h1 := h.same k1
      refine (step_keeps hsp.1 (h1.le (by omega))).seq fun _ o2 s2 k2 => ?_
      refine wp_when (fun _ => emit_keeps ⟨fun _ _ => rfl, trivial⟩) (fun _ => .refl s2) fun o3 s3 k3 => ?_
      have k := k1.trans (k2.trans k3)
      refine (ih (by simp only [List.length_cons] at hd; omega) htail
        (fun x hx => (hvs x hx).after k (by omega)) ((h.after k (by omega) (by omega)))).weaken ?_
      intro _ o4 s4 k4
      exact (k1.trans (k2.trans (k3.trans k4))).cast (by ring)
    cases rest with
    | nil =>
      refine (pushReg_keeps (h.le (by omega))).seq fun _ o1 s1 k1 => ?_
      have h1 : Room s1 (4 * i.size + 8) := h.after k1 (by omega) (by omega)
      refine (hi arr [] s1 hf (fun x hx => (hvi x hx).after k1 (by omega)) h1).seq fun _ o2 s2 k2 => ?_
      refine copy_keeps.seq fun _ o3 s3 k3 => ?_
      have hd1 := k1.depth
      have hd2 := k2.depth
      have hd3 := k3.depth
      have h0 := h.nonneg
      have h3 := (h1.same k2).same k3
      refine (popReg_keeps hsp.2 (by omega) (h3.le (by omega))).seq fun _ o4 s4 k4 => ?_
      refine (hrest ((k1.trans (k2.trans (k3.trans k4))).cast (by ring))).weaken fun _ o5 s5 k5 => ?_
      simpa only [List.append_assoc] using k5
    | cons r rest =>
      refine (hi r rest s hf.tail hvi (h.le (by omega))).seq fun _ o1 s1 k1 => ?_
      exact hrest k1

/-- **The code of a well-typed expression is generated and keeps the stack in balance.** -/
theorem expr_keeps {e : Expr} (he : e.Typed T sc) : Balanced T e := by
  induction he with
  | int | bool | char | null => intro d rest s _ _ _; rw [expr]; exact emit_keeps ⟨fun _ _ => rfl, trivial⟩
  | str =>
    intro d rest s _ _ _
    refine stringConst_keeps.seq fun l o1 s1 h1 => ?_
    exact (emit_keeps (i := .address .always d l) ⟨fun _ _ => rfl, h1.2⟩).weaken fun _ o2 s2 k2 => h1.1.trans k2
  | @var id hid =>
    intro d rest s _ hv _
    exact loadVar_keeps (hv _ (by simp [Expr.vars]))
  | @elem span t id is hid hx _ _ ih =>
    intro d rest s hf hv h
    obtain ⟨-, e, dims, harray, hle, -⟩ := hx
    refine (loadVar_keeps (hv _ (by simp [Expr.vars]))).seq fun _ o1 s1 k1 => ?_
    have hvs : ∀ x ∈ Expr.varsAll is, HasSlot T s1 x := fun x hx =>
      (hv x (by rw [Expr.vars]; exact List.mem_cons_of_mem _ hx)).after k1 le_rfl
    have h1 : Room s1 (4 * (1 + Expr.sizes is) + 8) := by
      simpa [Expr.size] using h.same k1
    refine (indices_keeps harray (by omega) ih hf hvs h1).seq fun _ o2 s2 k2 => ?_
    exact load_keeps.weaken fun _ o3 s3 k3 => k1.trans (k2.trans k3)
  | @unary span op rule e ho _ _ ih =>
    intro d rest s hf hv h
    simp only [Expr.size, Nat.cast_add, Nat.cast_one] at h
    refine (ih d rest s hf (fun x hx => hv x (by rw [Expr.vars]; exact hx)) (h.le (by omega))).seq
      fun _ o1 s1 k1 => ?_
    exact (applyUnary_keeps ho hf.head.1 ((h.same k1).le (by omega))).weaken fun _ o2 s2 k2 => k1.trans k2
  | @binary span op rule l r ho _ _ _ ihl ihr =>
    intro d rest s hf hv h
    simp only [Expr.size, Nat.cast_add, Nat.cast_one] at h
    have hvl : ∀ x ∈ l.vars, HasSlot T s x := fun x hx => hv x (by
      rw [Expr.vars]; exact List.mem_append_left _ hx)
    have hvr : ∀ x ∈ r.vars, HasSlot T s x := fun x hx => hv x (by
      rw [Expr.vars]; exact List.mem_append_right _ hx)
    have h0 := h.nonneg
    cases rest with
    | nil =>
      refine (ihr d [] s hf hvr (h.le (by omega))).seq fun _ o1 s1 k1 => ?_
      have h1 := h.same k1
      refine (pushReg_keeps (h1.le (by omega))).seq fun _ o2 s2 k2 => ?_
      have h2 : Room s2 (4 * l.size + 8) := h1.after k2 (by omega) (by omega)
      refine (ihl d [] s2 hf (fun x hx => ((hvl x hx).after k1 le_rfl).after k2 (by omega)) h2).seq
        fun _ o3 s3 k3 => ?_
      have hd1 := k1.depth
      have hd2 := k2.depth
      have hd3 := k3.depth
      refine (popReg_keeps (by decide) (by omega) ((h2.same k3).le (by omega))).seq fun _ o4 s4 k4 => ?_
      have k := k1.trans (k2.trans (k3.trans k4))
      refine (apply_keeps ho hf.head.1 (h.after k (by omega) (by omega))).weaken fun _ o5 s5 k5 => ?_
      exact (k1.trans (k2.trans (k3.trans (k4.trans k5)))).cast (by ring)
    | cons e rest =>
      rw [expr]
      -- the two orders of evaluation are alike
      have hboth : ∀ {a b : Expr} {x y : Reg}, Balanced T a → Balanced T b →
          (∀ x ∈ a.vars, HasSlot T s x) → (∀ x ∈ b.vars, HasSlot T s x) →
          Room s (4 * a.size + 8) → Room s (4 * b.size + 8) →
          Wp (do
            expr a (d :: e :: rest)
            expr b (e :: rest)
            apply op d x y) (fun _ => Keeps s 0) T s := by
        intro a b x y ha hb hva hvb hra hrb
        refine (ha d (e :: rest) s hf hva hra).seq fun _ o1 s1 k1 => ?_
        refine (hb e rest s1 hf.tail (fun x hx => (hvb x hx).after k1 le_rfl) (hrb.same k1)).seq
          fun _ o2 s2 k2 => ?_
        exact (apply_keeps ho hf.head.1 (((hra.same k1).same k2).le (by omega))).weaken
          fun _ o3 s3 k3 => k1.trans (k2.trans k3)
      split_ifs
      · exact hboth ihl ihr hvl hvr (h.le (by omega)) (h.le (by omega))
      · exact hboth ihr ihl hvr hvl (h.le (by omega)) (h.le (by omega))

end Wacc.Arm.Gen
