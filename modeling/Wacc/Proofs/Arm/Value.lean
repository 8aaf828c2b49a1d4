/-
  Code for places and values keeps the stack in balance.
-/
import Wacc.Proofs.Arm.Expr

namespace Wacc.Arm.Gen

variable {T : Table} {sc : ScopeId} {s s' : Stage} {rest : List Reg} {d : Reg} {es : List Expr}

def Covers (T : Table) (s : Stage) (sc : ScopeId) : Prop :=
  ∀ x v, T.var? x = some v → T.Encloses sc v.scope → HasSlot T s x

theorem Covers.after {k : Int} {o : List Line} (h : Covers T s sc) (hk : Keeps s k o s') (h0 : 0 ≤ k) :
    Covers T s' sc := fun x v hv he => (h x v hv he).after hk h0

theorem Covers.ident {id : Ident} (h : Covers T s sc) (hid : id.Typed T sc) : HasSlot T s id.var := by
  obtain ⟨v, hv, -, he⟩ := hid
  exact h _ v hv he

theorem Covers.expr {e : Expr} (h : Covers T s sc) (he : e.Typed T sc) (hf : Free (d :: rest))
    (hr : Room s (4 * e.size + 8)) : Wp (Gen.expr e (d :: rest)) (fun _ => Keeps s 0) T s := by
  refine expr_keeps he d rest s hf (fun x hx => ?_) hr
  obtain ⟨v, hv, hen⟩ := he.enclosed hx
  exact h x v hv hen

/-! ## Places -/

theorem elemAddress_keeps {id : Ident} {is : List Expr} {t : Ty} (hid : id.Typed T sc)
    (hx : IndexedBy id.type is.length t) (his : ∀ i ∈ is, i.Typed T sc) (hc : Covers T s sc) (hf : Free (d :: rest))
    (hr : Room s (4 * (1 + Expr.sizes is) + 8)) : Wp (elemAddress id is d rest) (fun _ => Keeps s 0) T s := by
  obtain ⟨-, e, dims, harray, hle, -⟩ := hx
  refine (loadVar_keeps (hc.ident hid)).seq fun _ o1 s1 k1 => ?_
  have hc1 := hc.after k1 le_rfl
  have hvs : ∀ x ∈ Expr.varsAll is, HasSlot T s1 x := fun x hx => by
    obtain ⟨i, hi, hx⟩ := Expr.mem_varsAll hx
    obtain ⟨v, hv, hen⟩ := (his i hi).enclosed hx
    exact hc1 x v hv hen
  exact (indices_keeps harray (by omega) (fun i hi => expr_keeps (his i hi)) hf hvs (hr.same k1)).weaken
    fun _ o2 s2 k2 => k1.trans k2

theorem address_keeps {l : Target} (hl : l.Typed T sc) (hc : Covers T s sc) (hf : Free (d :: rest))
    (hr : Room s (4 * l.size + 8)) : Wp (address l (d :: rest)) (fun _ => Keeps s 0) T s := by
  induction hl generalizing s with
  | var hid => rw [address]; exact addressOf_keeps (hc.ident hid) hf.head.1
  | elem hid hx his _ =>
    exact elemAddress_keeps hid hx his hc hf (by simpa [Target.size] using hr)
  | @slot span a b snd p hp _ ih =>
    simp only [Target.size, Nat.cast_add, Nat.cast_one] at hr
    -- the check of the pointer and the step to the slot, after the pointer is there
    have hrest : ∀ {o : List Line} {s1 : Stage}, Keeps s 0 o s1 →
        Wp (do
          copy .r0 d
          callRoutine .always .checkNullPointer
          if snd then emit (.alu .add d d (.imm slotSize))) (fun _ o' s2 => Keeps s 0 (o ++ o') s2) T s1 := by
      intro o s1 k1
      refine copy_keeps.seq fun _ o2 s2 k2 => ?_
      refine (callRoutine_keeps (by simp) (((hr.same k1).same k2).le (by omega))).seq fun _ o3 s3 k3 => ?_
      split_ifs
      · exact (emit_keeps (neutral_alu hf.head.1)).weaken
          fun _ o4 s4 k4 => k1.trans (k2.trans (k3.trans k4))
      · refine wp_pure.2 ?_
        rw [List.append_nil]
        exact k1.trans (k2.trans k3)
    cases hp with
    | var hid => rw [address]; exact (loadVar_keeps (hc.ident hid)).seq fun _ o1 s1 k1 => hrest k1
    | _ =>
      refine (ih hc (hr.le (by omega))).seq fun _ o1 s1 k1 => ?_
      refine load_keeps.seq fun _ o2 s2 k2 => ?_
      refine (hrest (k1.trans k2)).weaken fun _ o3 s3 k3 => ?_
      simpa only [List.append_assoc] using k3

theorem assign_keeps {l : Target} (hl : l.Typed T sc) {r d : Reg} (hc : Covers T s sc) (hf : Free (d :: rest))
    (hr : Room s (4 * l.size + 8)) : Wp (assign r l (d :: rest)) (fun _ => Keeps s 0) T s := by
  cases hl with
  | var hid =>
    rw [assign]
    · exact storeVar_keeps (hc.ident hid)
    · exact nofun
  | elem hid hx his hint =>
    rw [assign]
    · refine (address_keeps (.elem hid hx his hint) hc hf hr).seq fun _ o1 s1 k1 => ?_
      exact store_keeps.weaken fun _ o2 s2 k2 => k1.trans k2
    · exact nofun
  | slot hp ht =>
    rw [assign]
    · refine (address_keeps (.slot hp ht) hc hf hr).seq fun _ o1 s1 k1 => ?_
      exact store_keeps.weaken fun _ o2 s2 k2 => k1.trans k2
    · exact nofun

/-! ## Values -/

theorem malloc_keeps {n : Nat} (h : Room s 8) : Wp (malloc d n) (fun _ => Keeps s 0) T s := by
  refine (emit_keeps ⟨fun _ _ => rfl, by trivial⟩).seq fun _ o1 s1 k1 => ?_
  refine (callExtern_keeps (by decide) (h.same k1)).seq fun _ o2 s2 k2 => ?_
  exact copy_keeps.weaken fun _ o3 s3 k3 => k1.trans (k2.trans k3)

theorem elemSize_eq (t : Ty) : ∃ n, elemSize t T s = .ok (n, [], s) := by
  unfold elemSize
  split
  · rename_i e n
    obtain ⟨u, hu⟩ : ∃ u, (Ty.array e n).peel = .ok u := by
      unfold Ty.peel
      dsimp only
      split_ifs
      · exact ⟨_, rfl⟩
      · exact ⟨_, rfl⟩
    exact ⟨_, (run_bind (by rw [hu]; rfl)).trans rfl⟩
  · exact ⟨0, rfl⟩

theorem Expr.size_pos (e : Expr) : 1 ≤ e.size := by
  cases e <;> simp only [Expr.size] <;> omega

def argBytes (es : List Expr) : Nat := es.foldr (fun e n => e.type.size.toNat + n) 0

theorem argBytes_cons (e : Expr) (es : List Expr) : argBytes (e :: es) = e.type.size.toNat + argBytes es := rfl

theorem argBytes_le (es : List Expr) : argBytes es ≤ 4 * Expr.sizes es := by
  induction es with
  | nil => simp [argBytes]
  | cons e es ih =>
    have hsz : e.type.size.toNat ≤ 4 := by cases e.type <;> simp [Ty.size]
    have := Expr.size_pos e
    rw [argBytes_cons, Expr.sizes]
    omega

theorem args_keeps (hes : ∀ e ∈ es, e.Typed T sc) (hc : Covers T s sc) (hf : Free (d :: rest))
    (hr : Room s (4 * Expr.sizes es + 8)) : Wp (args d rest es) (fun _ => Keeps s (argBytes es)) T s := by
  induction es generalizing s with
  | nil => rw [args]; exact wp_pure.2 (.refl s)
  | cons e es ih =>
    obtain ⟨he, htail⟩ := List.forall_mem_cons.1 hes
    have hsz : e.type.size.toNat ≤ 4 := by cases e.type <;> simp [Ty.size]
    have hpos := Expr.size_pos e
    simp only [Expr.sizes, Nat.cast_add] at hr
    refine (hc.expr he hf (hr.le (by omega))).seq fun _ o1 s1 k1 => ?_
    have hr1 := hr.same k1
    refine (pushValue_keeps (hr1.le (by omega))).seq fun _ o2 s2 k2 => ?_
    refine (ih htail ((hc.after k1 le_rfl).after k2 (by omega)) (hr1.after k2 (by omega) (by omega))).weaken ?_
    intro _ o3 s3 k3
    refine (k1.trans (k2.trans k3)).cast ?_
    simp [argBytes]

theorem callFunc_keeps {name : Text} (hname : IsName name) (hes : ∀ e ∈ es, e.Typed T sc) (hc : Covers T s sc)
    (hf : Free (d :: rest)) (hr : Room s (4 * Expr.sizes es + 16)) :
    Wp (callFunc name es d rest) (fun _ => Keeps s 0) T s := by
  have hn := argBytes_le es
  have h0 := hr.nonneg
  refine wp_stage.2 ?_
  obtain ⟨hp0, hp7, hmod⟩ := padding_spec (s.depth + argBytes es)
  set pad := padding (s.depth + argBytes es) with hpad
  refine (grow_keeps hp0 (hr.le (by omega))).seq fun _ o1 s1 k1 => ?_
  have hr1 : Room s1 (4 * Expr.sizes es + 8) := hr.after k1 hp0 (by omega)
  refine (args_keeps hes (hc.after k1 hp0) hf hr1).seq fun _ o2 s2 k2 => ?_
  have hd1 := k1.depth
  have hd2 := k2.depth
  have hr2 : Room s2 0 := hr1.after k2 (by omega) (by omega)
  have hcall : Wp (emit (.call .always (.label (.func name)))) (fun _ => Keeps s2 0) T s2 := by
    refine wp_emit.2 ⟨by simp, rfl, rfl, .instr (fun places => ?_) hname⟩
    have : s2.depth % 8 = 0 := by omega
    simp [Instr.walk, this, Callee.ends]
  refine hcall.seq fun _ o3 s3 k3 => ?_
  have hd3 := k3.depth
  refine (shrink_keeps (n := pad + argBytes es) (by omega) (by omega) (hr2.same k3)).seq
    fun _ o4 s4 k4 => ?_
  exact copy_keeps.weaken fun _ o5 s5 k5 =>
    (k1.trans (k2.trans (k3.trans (k4.trans k5)))).cast (by ring)

/-- The code of an element of a literal is generated and balanced, given two registers. -/
def ItemBalanced (T : Table) (sc : ScopeId) (v : Value) : Prop :=
  ∀ (arr tmp : Reg) (rest : List Reg) (s : Stage), Free (arr :: tmp :: rest) → Covers T s sc →
    Room s (4 * v.size + 8) → Wp (value v (arr :: tmp :: rest)) (fun _ => Keeps s 0) T s

theorem elements_keeps {vs : List Value} (hvs : ∀ v ∈ vs, v.Item T sc ∧ ItemBalanced T sc v) {size i : Nat}
    {arr tmp : Reg} (hf : Free (arr :: tmp :: rest)) (hc : Covers T s sc) (hr : Room s (4 * (1 + Value.sizes vs) + 8)) :
    Wp (elements size i vs arr tmp rest) (fun _ => Keeps s 0) T s := by
  induction vs generalizing i s with
  | nil => rw [elements]; exact wp_pure.2 (.refl s)
  | cons v vs ih =>
    obtain ⟨⟨hv, hb⟩, htail⟩ := List.forall_mem_cons.1 hvs
    have h0 := hr.nonneg
    simp only [Value.sizes, Nat.cast_add] at hr
    -- what follows when the element is in `tmp`
    have hrest : ∀ {o : List Line} {s1 : Stage}, Keeps s 0 o s1 →
        Wp (do
          store tmp arr (4 + i * size : Nat) v.type
          elements size (i + 1) vs arr tmp rest) (fun _ o' s2 => Keeps s 0 (o ++ o') s2) T s1 := by
      intro o s1 k1
      refine store_keeps.seq fun _ o2 s2 k2 => ?_
      have k := k1.trans k2
      exact (ih htail (hc.after k (by omega)) (hr.after k (by omega) (by omega))).weaken
        fun _ o3 s3 k3 => (k1.trans (k2.trans k3)).cast (by ring)
    cases hv with
    | @expr e he =>
      have hval : Wp (value (.expr e) (tmp :: rest)) (fun _ => Keeps s 0) T s := by
        exact hc.expr he hf.tail (hr.le (by rw [Value.size]; omega))
      exact hval.seq fun _ o1 s1 k1 => hrest k1
    | @array span t us hus =>
      cases rest with
      | cons r rest =>
        exact (hb tmp r rest s hf.tail hc (hr.le (by omega))).seq fun _ o1 s1 k1 => hrest k1
      | nil =>
        -- the literal takes the registers of the array, whose address waits on the stack
        refine (pushReg_keeps (hr.le (by omega))).seq fun _ o1 s1 k1 => ?_
        have hr1 : Room s1 (4 * (Value.array span t us).size + 8) := hr.after k1 (by omega) (by omega)
        refine (hb arr tmp [] s1 hf (hc.after k1 (by omega)) hr1).seq fun _ o2 s2 k2 => ?_
        refine copy_keeps.seq fun _ o3 s3 k3 => ?_
        have hd1 := k1.depth
        have hd2 := k2.depth
        have hd3 := k3.depth
        have hr3 := (hr1.same k2).same k3
        refine (popReg_keeps hf.head.2 (by omega) (hr3.le (by omega))).seq fun _ o4 s4 k4 => ?_
        refine (hrest ((k1.trans (k2.trans (k3.trans k4))).cast (by ring))).weaken fun _ o5 s5 k5 => ?_
        simpa only [List.append_assoc] using k5

theorem item_keeps {v : Value} (hv : v.Item T sc) : ItemBalanced T sc v := by
  induction hv with
  | expr he =>
    intro arr tmp rest s hf hc hr
    exact hc.expr he hf (by simpa [Value.size] using hr)
  | @array span t vs hvs ih =>
    intro arr tmp rest s hf hc hr
    obtain ⟨n, hn⟩ := elemSize_eq (T := T) (s := s) t
    refine (wp_bind_pure hn).2 ?_
    refine (malloc_keeps (hr.le (by omega))).seq fun _ o1 s1 k1 => ?_
    refine (elements_keeps (fun v hv => ⟨hvs v hv, ih v hv⟩) hf (hc.after k1 le_rfl) (hr.same k1)).seq
      fun _ o2 s2 k2 => ?_
    refine (emit_keeps ⟨fun _ _ => rfl, by trivial⟩).seq fun _ o3 s3 k3 => ?_
    exact (emit_keeps ⟨fun _ _ => rfl, by trivial⟩).weaken fun _ o4 s4 k4 => k1.trans (k2.trans (k3.trans k4))

/-- **The code of a well-typed value is generated and keeps the stack in balance.** -/
theorem value_keeps {v : Value} (hw : T.Wf) (hv : v.Typed T sc) {d e : Reg} (hf : Free (d :: e :: rest))
    (hc : Covers T s sc) (hr : Room s (4 * v.size + 16)) :
    Wp (value v (d :: e :: rest)) (fun _ => Keeps s 0) T s := by
  cases hv with
  | item hi => exact item_keeps hi d e rest s hf hc (hr.le (by omega))
  | @newPair span a b ha hb =>
    simp only [Value.size, Nat.cast_add, Nat.cast_one] at hr
    refine (malloc_keeps (hr.le (by omega))).seq fun _ o1 s1 k1 => ?_
    refine ((hc.after k1 le_rfl).expr ha hf.tail ((hr.same k1).le (by omega))).seq fun _ o2 s2 k2 => ?_
    refine store_keeps.seq fun _ o3 s3 k3 => ?_
    have k := k1.trans (k2.trans k3)
    refine ((hc.after k (by omega)).expr hb hf.tail (hr.after k (by omega) (by omega))).seq
      fun _ o4 s4 k4 => ?_
    exact store_keeps.weaken fun _ o5 s5 k5 => k1.trans (k2.trans (k3.trans (k4.trans k5)))
  | @slot span a b snd p hp ht =>
    refine (address_keeps (.slot hp ht) hc hf ?_).seq fun _ o1 s1 k1 => ?_
    · exact hr.le (by simp only [Value.size, Target.size]; omega)
    · exact load_keeps.weaken fun _ o2 s2 k2 => k1.trans k2
  | call hg hargs _ =>
    exact callFunc_keeps (hw.isName hg) hargs hc hf (hr.le (by simp only [Value.size, Nat.cast_add]; omega))

end Wacc.Arm.Gen
