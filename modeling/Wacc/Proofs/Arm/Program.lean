/-
  Code for whole programs keeps the stack in balance.
-/
import Wacc.Proofs.Arm.Stat
import Wacc.Proofs.Typing.Program

namespace Wacc.Arm

/-- Lines that control neither runs into from above nor leaves at their end; their places have the
    numbers from `n` up to `n'`, and all functions have names. -/
structure Closed (n : Nat) (out : List Line) (n' : Nat) : Prop where
  walk : ∀ ps, Fresh ps n → ∃ ps', walk ⟨none, ps⟩ out = some ⟨none, ps'⟩ ∧ Fresh ps' n'
  named : ∀ l ∈ out, l.InCode

theorem Closed.nil (n : Nat) : Closed n [] n := ⟨fun ps h => ⟨ps, rfl, h⟩, by simp⟩

theorem Closed.append {n n' n'' : Nat} {o o' : List Line} (h : Closed n o n') (h' : Closed n' o' n'') :
    Closed n (o ++ o') n'' := by
  refine ⟨fun ps hps => ?_, List.forall_mem_append.2 ⟨h.named, h'.named⟩⟩
  obtain ⟨ps1, hw1, hf1⟩ := h.walk ps hps
  obtain ⟨ps2, hw2, hf2⟩ := h'.walk ps1 hf1
  exact ⟨ps2, by rw [walk_append, hw1, Option.bind_some, hw2], hf2⟩

variable {o : List Line}

theorem Flow.closed {n n' : Nat} {l : Label} (hl : l.place? = none) (hn : l.Named) (h : Flow 0 n o none n') :
    Closed n (.label l :: o) n' := by
  refine ⟨fun ps hps => ?_, List.forall_mem_cons.2 ⟨hn, h.named⟩⟩
  obtain ⟨ps', hw, hf, -⟩ := h.reach ps hps
  refine ⟨ps', ?_, hf⟩
  simpa only [Arm.walk, Line.walk, hl, Option.bind_eq_bind, Option.bind_some] using hw

theorem Closed.pool {n n' : Nat} (h : Closed n o n') : Closed n (o ++ [.pool]) n' :=
  h.append ⟨fun ps hps => ⟨ps, rfl, hps⟩, by simp [Line.InCode]⟩

namespace Gen

variable {T : Table} {s : Stage} {n : Nat} {p : Program}

/-! ## The main program and the functions -/

theorem popReturn_eq (hd : s.depth = 4) :
    Wp popReturn (fun _ out s' => out = [.instr (.pop [.pc])] ∧ s' = s) T s := by
  refine wp_stage.2 ?_
  rw [if_neg (by simp [hd])]
  exact wp_emit.2 ⟨rfl, rfl⟩

theorem mainBody_closed {body : Stat} (hf : Fits T n) (hb : body.Typed T Table.global) (hn : body.size ≤ n)
    (hd : s.depth = 0) (he : s.entry = []) :
    Wp (mainBody body) (fun _ out s' => Closed s.places out s'.places) T s := by
  obtain ⟨r, hr, hk⟩ := hf.wf.root
  have hframe := Frames.main hr
  have hbelow := hf.below hframe
  have hshape : mainBody body = (do
      label .main
      pushReg .lr
      (do enter Table.global; stat body; leave Table.global)
      emit (.number .r0 0)
      popReturn
      lines [.pool]) := by
    simp only [mainBody, bind_assoc]
  rw [hshape]
  refine wp_bind_label.2 ?_
  refine (pushReg_keeps ⟨by omega, by omega⟩).seq fun _ o1 s1 k1 => ?_
  have hd1 : s1.depth = 4 := by rw [k1.depth, hd]; rfl
  have he1 : s1.entry = [] := k1.entry.trans he
  have hscope : Wp (do enter Table.global; stat body; leave Table.global)
      (fun _ => Flows s1 body.falls) T s1 := by
    refine inScope_flows hr ⟨by omega, by omega⟩ (by rw [he1]; rfl) fun s2 hd2 he2 => ?_
    refine stat_flows hf hb s2 ?_ hn
    unfold At
    rw [hd2, he2, hd1, he1]
    exact hframe
  refine hscope.seq fun _ o2 s2 k2 => wp_bind_emit.2 ?_
  refine (popReturn_eq (k2.depth.trans hd1)).seq ?_
  rintro _ _ s3 ⟨rfl, rfl⟩
  refine wp_lines.2 ?_
  have hpush : Flow 0 s.places o1 (some 4) s.places := by
    have := k1.straight.flow s.places
    rwa [hd, hd1] at this
  have hbody : Flow 4 s.places o2 (depthIf 4 body.falls) s3.places := by
    have := k2.flow
    rwa [hd1, k1.places] at this
  have hlast : Flow 4 s3.places [.instr (.number .r0 0), .instr (.pop [.pc])] (depthIf 4 false) s3.places :=
    ⟨.plain (by simp [Line.isLabel]) (by simp [Line.InCode, Instr.Named]) _,
      fun ps hps => ⟨ps, rfl, hps, fun _ _ => rfl⟩, fun ps _ => rfl⟩
  have hflow := hpush.trans (hbody.seq hlast)
  rw [Bool.and_false] at hflow
  have := (hflow.closed (l := .main) rfl trivial).pool
  simpa only [List.cons_append, List.append_assoc] using this

theorem function_closed {f : Func} (hf : Fits T n) (ht : f.Typed T) (hn : f.body.size ≤ n) :
    Wp (function f) (fun _ out s' => f.body.falls = false → Closed s.places out s'.places) T s := by
  obtain ⟨g, hg, hname, -, -, hscope⟩ := ht.signature
  replace hname : IsName f.name := hname ▸ hf.wf.isName hg
  obtain ⟨r, hr, hk, -⟩ := hf.wf.funcs f.id g hg
  rw [hscope] at hr
  have hframe := Frames.func hr hk
  obtain ⟨hb, hbody⟩ := ht.body
  refine (wp_bind_pure (footprint_eq hr)).2 (wp_update.2 (wp_bind_label.2 ?_))
  refine (pushReg_keeps (s := { s with depth := 0, entry := [(f.scope, -(r.footprint.toNat : Int))] })
    ⟨le_rfl, by simp only [depthLimit]; omega⟩).seq fun _ o1 s1 k1 => ?_
  have h1 : At T f.scope s1 := by
    unfold At
    rw [k1.depth, k1.entry]
    exact hframe
  have hblock : Wp (block f.body) (fun _ => Flows s1 f.body.falls) T s1 := by
    cases hfb : f.body with
    | mk site i b =>
      rw [hfb] at hb hbody hn
      exact block_flows hf hb (stat_flows hf hbody) hn h1
  refine hblock.seq fun _ o2 s2 k2 => wp_lines.2 fun hfalls => ?_
  have hd1 : s1.depth = 4 := k1.depth
  have hpush : Flow 0 s.places o1 (some 4) s.places := by
    have := k1.straight.flow s.places
    rwa [hd1] at this
  have hflow : Flow 4 s.places o2 none s2.places := by
    have := k2.flow
    rwa [hd1, k1.places, hfalls] at this
  have := ((hpush.trans hflow).closed (l := .func f.name) rfl hname).pool
  simpa only [List.cons_append, List.append_assoc] using this

theorem functions_closed {fs : List Func} (hf : Fits T n) (hfs : ∀ f ∈ fs, f.Typed T)
    (hn : ∀ f ∈ fs, f.body.size ≤ n) :
    Wp (functions fs)
      (fun _ out s' => (∀ f ∈ fs, f.body.falls = false) → Closed s.places out s'.places) T s := by
  induction fs generalizing s with
  | nil => exact wp_pure.2 fun _ => .nil _
  | cons f fs ih =>
    obtain ⟨ht, hfs⟩ := List.forall_mem_cons.1 hfs
    obtain ⟨hfn, hn⟩ := List.forall_mem_cons.1 hn
    refine (function_closed hf ht hfn).seq fun _ o1 s1 h1 => ?_
    refine (ih hfs hn).weaken fun _ o2 s2 h2 hfalls => ?_
    obtain ⟨hfall, hfalls⟩ := List.forall_mem_cons.1 hfalls
    exact (h1 hfall).append (h2 hfalls)

/-! ## Routines -/

theorem routine_body_closed (r : Routine) (n k : Nat) :
    Closed n (.label (.routine r) :: (r.body k).map .instr) n := by
  refine ⟨fun ps hps => ⟨ps, ?_, hps⟩, ?_⟩
  · cases r <;> rfl
  · cases r <;>
      simp [Routine.body, Routine.throwIf, Routine.printWith, Routine.readWith, Routine.chars, Routine.flush,
        Routine.enter, Routine.leave, Routine.lib, Line.InCode, Instr.Named, Label.Named, Callee.Named]

theorem routines_closed (rs : List Routine) :
    Wp (routines rs) (fun _ out s' => Closed s.places out s'.places) T s := by
  induction rs generalizing s with
  | nil => exact wp_pure.2 (.nil _)
  | cons r rs ih =>
    refine (show Wp (routine r) (fun _ out s' => Closed s.places out s'.places) T s from ?_).seq
      fun _ o1 s1 h1 => ih.weaken fun _ o2 s2 h2 => h1.append h2
    exact wp_stage.2 (wp_update.2 (wp_bind_label.2 (wp_lines.2 (routine_body_closed r _ _))))

/-! ## Programs -/

theorem fits_of_bounded (hp : Typing.Bounded n p) (hn : n < 2 ^ 32) : Fits p.table n := by
  refine ⟨hp.typed.wf, ?_⟩
  have hcost := hp.typed.wf.small
  rw [Table.cost] at hcost
  have hmul : p.table.scopes.size * (4 * p.table.vars.size) ≤ 2 ^ 31 * 2 ^ 31 := by
    nlinarith [sq_nonneg ((p.table.scopes.size : Int) - 4 * p.table.vars.size)]
  omega

/-- **The code of a well-typed program is generated**, and it is closed if no function runs off its
    end. -/
theorem program_closed (hp : Typing.Bounded n p) (hn : n < 2 ^ 32) :
    Wp (program p) (fun _ out s' => (∀ f ∈ p.funcs, f.body.falls = false) → Closed 0 out s'.places)
      p.table {} := by
  have hf := fits_of_bounded hp hn
  refine (mainBody_closed hf hp.typed.body hp.body rfl rfl).seq fun _ o1 s1 h1 => ?_
  refine (functions_closed hf hp.typed.funcs hp.funcs).seq fun _ o2 s2 h2 => wp_stage.2 ?_
  exact (routines_closed s2.used).weaken fun _ o3 s3 h3 hfalls => h1.append ((h2 hfalls).append h3)

end Gen

end Wacc.Arm
