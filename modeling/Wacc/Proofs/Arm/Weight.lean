/-
  The weight of an expression is the number of registers that it needs.

  Code for an expression pushes a register exactly if the expression weighs more than the pool has registers.
-/
import Wacc.Proofs.Arm.Straight

namespace Wacc.Arm

theorem weight_pos (e : Expr) : 0 < weight e := by
  cases e with
  | elem | binary => rw [weight]; omega
  | unary _ _ _ e => rw [weight]; exact weight_pos e
  | _ => simp [weight]

namespace Gen

/-- Code that pushes registers. -/
def Pushes (out : List Line) : Prop := ∃ rs, .instr (.push rs) ∈ out

/-- If the step ends, its code pushes registers exactly if `p` holds. -/
def Spills {α : Type} (p : Prop) (x : Gen α) : Prop :=
  ∀ T s a out s', x T s = .ok (a, out, s') → (Pushes out ↔ p)

namespace Spills

variable {α β : Type} {p q : Prop} {f : β → Gen α} {x : Gen β}

theorem cast {x : Gen α} (h : Spills p x) (hpq : p ↔ q) : Spills q x := propext hpq ▸ h

theorem bind (hx : Spills p x) (hf : ∀ b, Spills q (f b)) : Spills (p ∨ q) (x >>= f) := by
  intro T s a out s' h
  obtain ⟨b, o, s1, o', h1, h2, rfl⟩ := bind_eq_ok h
  simp only [← hx T s b o s1 h1, ← hf b T s1 a o' s' h2, Pushes, List.mem_append, exists_or]

theorem before (hx : Spills False x) (hf : ∀ b, Spills p (f b)) : Spills p (x >>= f) :=
  (hx.bind hf).cast (by simp)

theorem after (hx : Spills p x) (hf : ∀ b, Spills False (f b)) : Spills p (x >>= f) :=
  (hx.bind hf).cast (by simp)

theorem fail (f : Fault) : Spills p (Gen.fail f : Gen α) := fun _ _ _ _ _ h => nomatch h

theorem silent {x : Gen α} (h : ∀ T s a out s', x T s = .ok (a, out, s') → out = []) : Spills False x := by
  intro T s a out s' hx
  simp [h T s a out s' hx, Pushes]

theorem update (g : Stage → Stage) : Spills False (Gen.update g) := silent (by rintro _ _ _ _ _ ⟨⟩; rfl)

theorem lift (x : Except Fault α) : Spills False (Gen.lift x) := by
  refine silent fun T s a out s' h => ?_
  cases x <;> cases h
  rfl

theorem emit (i : Instr) : Spills (∃ rs, i = .push rs) (Gen.emit i) := by
  rintro T s _ _ _ ⟨⟩
  simp [Pushes, eq_comm]

theorem quiet {i : Instr} (h : ∀ rs, i ≠ .push rs) : Spills False (Gen.emit i) := (emit i).cast (by simp [h])

end Spills

theorem push_notMem_stepsOf (op : Alu) (n : Nat) (rs : List Reg) : .push rs ∉ stepsOf op n := by
  fun_induction stepsOf op n with
  | case1 => exact List.not_mem_nil
  | case2 n _ ih => simpa using ih

theorem moveStack_spills (op : Alu) (n : Int) : Spills False (moveStack op n) := by
  rintro T s _ _ _ ⟨⟩
  simp [Pushes, push_notMem_stepsOf]

theorem callOut_spills (c : Cond) (f : Callee) : Spills False (callOut c f) := by
  have hmove (op : Alu) (n m : Int) : Spills False (do moveStack op n; deepen m) :=
    .before (moveStack_spills op n) fun _ => .update _
  exact .before (.silent (by rintro _ _ _ _ _ ⟨⟩; rfl)) fun _ => .before (hmove _ _ _) fun _ =>
    .before (.quiet (by nofun)) fun _ => hmove _ _ _

theorem spills_calm : Calm (Spills False) where
  seq := .before
  fail := .fail
  pure a := .silent (by rintro _ _ _ _ _ ⟨⟩; rfl)
  table := .silent (by rintro _ _ _ _ _ ⟨⟩; rfl)
  stage := .silent (by rintro _ _ _ _ _ ⟨⟩; rfl)
  quiet _ _ h := .quiet h
  routine _ _ := .before (.update _) fun _ => callOut_spills _ _
  library _ := callOut_spills _ _

theorem stringConst_spills (t : Text) : Spills False (stringConst t) := by
  refine .before spills_calm.stage fun s => ?_
  split
  · exact spills_calm.pure _
  · exact .before (.update _) fun _ => spills_calm.pure _

theorem pushReg_spills (r : Reg) : Spills True (pushReg r) :=
  .after ((Spills.emit _).cast (by simp)) fun _ => .update _

theorem popReg_spills (r : Reg) : Spills False (popReg r) := .before (.quiet (by nofun)) fun _ => .update _

mutual

theorem expr_spills (e : Expr) (d : Reg) (rest : List Reg) : Spills (rest.length + 1 < weight e) (expr e (d :: rest)) := by
  cases e with
  | int | bool | char | null => rw [expr]; exact (Spills.quiet (by nofun)).cast (by simp [weight])
  | str sp t =>
    rw [expr]
    exact (Spills.before (stringConst_spills t) fun _ => .quiet (by nofun)).cast (by simp [weight])
  | var id => rw [expr]; exact (spills_calm.loadVar d id.var).cast (by simp [weight])
  | elem sp t id is =>
    rw [expr, weight]
    refine .before (spills_calm.loadVar d id.var) fun _ => .after ?_ fun _ => spills_calm.load _ _ _ _
    exact (indices_spills id.type 0 is d rest).cast (by omega)
  | unary sp t op e => rw [expr, weight]; exact .after (expr_spills e d rest) fun _ => spills_calm.applyUnary op d
  | binary sp t op l r =>
    have hl := weight_pos l
    have hr := weight_pos r
    match rest with
    | [] =>
      rw [expr, weight]
      refine (Spills.bind (expr_spills r d []) fun _ => (pushReg_spills d).bind fun _ =>
        (expr_spills l d []).bind fun _ => .before (popReg_spills _) fun _ => spills_calm.apply op _ _ _).cast ?_
      simp
      omega
    | e :: rest =>
      rw [expr, weight]
      simp only [List.length_cons]
      split_ifs with h
      · refine (Spills.bind (expr_spills l d (e :: rest)) fun _ => .after (expr_spills r e rest) fun _ =>
          spills_calm.apply op _ _ _).cast ?_
        simp only [List.length_cons]
        omega
      · refine (Spills.bind (expr_spills r d (e :: rest)) fun _ => .after (expr_spills l e rest) fun _ =>
          spills_calm.apply op _ _ _).cast ?_
        simp only [List.length_cons]
        omega

theorem indices_spills (array : Ty) (done : Nat) (is : List Expr) (arr : Reg) (rest : List Reg) :
    Spills (rest.length < weightMax is) (indices array done is arr rest) := by
  match is with
  | [] => rw [indices, weightMax]; exact (spills_calm.pure ()).cast (by simp)
  | i :: is =>
    have hi := weight_pos i
    -- what follows the evaluation of an index
    have htail (r : Reg) : Spills (rest.length < weightMax is) (do
        step arr r (← lift (array.nested (done + 1).toUInt32))
        if !is.isEmpty then emit (.load .word arr (.offset arr 0))
        indices array (done + 1) is arr rest) := by
      refine .before (.lift _) fun t => .before (spills_calm.step _ _ t) fun _ => ?_
      have hrest := indices_spills array (done + 1) is arr rest
      split_ifs
      · exact .before (.quiet (by nofun)) fun _ => hrest
      · exact hrest
    match rest with
    | [] =>
      rw [indices, weightMax]
      refine (Spills.bind (pushReg_spills arr) fun _ => (expr_spills i arr []).bind fun _ =>
        .before (spills_calm.copy _ _) fun _ => .before (popReg_spills _) fun _ => htail scratch).cast ?_
      simp
      omega
    | r :: rest =>
      rw [indices, weightMax]
      refine (Spills.bind (expr_spills i r rest) fun _ => htail r).cast ?_
      simp only [List.length_cons]
      omega

end

/-- **The weight is exact.**  The code of an expression that typing accepts pushes a register exactly if the
    expression weighs more than the pool has registers, and there is such code wherever the variables of the
    expression have their places. -/
theorem expr_pushes_iff_weight {T T' : Table} {sc : ScopeId} {n : Tree} {e : Expr} (hw : T.Wf) (hn : n.IsExpr)
    (he : Typing.expr T sc n = .ok (.ok e)) (hg : T.Grows T') (d : Reg) (rest : List Reg) :
    (∀ s out s', expr e (d :: rest) T' s = .ok ((), out, s') →
      (Pushes out ↔ (d :: rest).length < weight e)) ∧
    ∀ s, (∀ r ∈ d :: rest, r ∈ pool) → (∀ x ∈ e.vars, HasSlot T' s x) → Room s (4 * e.size + 8) →
      ∃ out s', expr e (d :: rest) T' s = .ok ((), out, s') := by
  obtain ⟨_, hc, hholds⟩ : Typing.Sound (Typing.IsExpr T sc n) (Typing.expr T sc n) := Typing.expr_sound hw hn
  have htyped : e.Typed T' sc := (hholds e (Except.ok.inj (hc.symm.trans he))).1.mono hg
  refine ⟨fun s out s' h => expr_spills e d rest T' s () out s' h, fun s hf hv hr => ?_⟩
  obtain ⟨_, out, s', h, -⟩ := expr_keeps htyped d rest s hf hv hr
  exact ⟨out, s', h⟩

/-- The tree of `1 + 2 * 3`. -/
def product : Tree :=
  .node .binary (lit "+") {} [.node .intLit (lit "1") {} [],
    .node .binary (lit "*") {} [.node .intLit (lit "2") {} [], .node .intLit (lit "3") {} []]]

/-- For `1 + 2 * 3` one register is not enough and two are. -/
theorem expr_pushes_iff_weight_product :
    ∃ e out s' out' s'', Typing.expr .empty Table.global product = .ok (.ok e) ∧ weight e = 2 ∧
      expr e [.r4] .empty {} = .ok ((), out, s') ∧ Pushes out ∧
      expr e [.r4, .r5] .empty {} = .ok ((), out', s'') ∧ ¬ Pushes out' := by
  have hn : product.IsExpr := .binary rfl .int (.binary rfl .int .int)
  have h := expr_pushes_iff_weight Table.empty_wf hn
    (show Typing.expr .empty Table.global product = .ok (.ok _) from rfl) (.refl _)
  obtain ⟨out, s', hrun⟩ := (h .r4 []).2 {} (by decide) (by nofun) ⟨by decide, by decide⟩
  obtain ⟨out', s'', hrun'⟩ := (h .r4 [.r5]).2 {} (by decide) (by nofun) ⟨by decide, by decide⟩
  exact ⟨_, out, s', out', s'', rfl, rfl, hrun, ((h .r4 []).1 _ _ _ hrun).2 (by decide), hrun',
    fun hp => absurd (((h .r4 [.r5]).1 _ _ _ hrun').1 hp) (by decide)⟩

end Gen

end Wacc.Arm
