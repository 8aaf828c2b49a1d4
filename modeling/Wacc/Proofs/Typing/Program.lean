/-
  Typing of programs is sound.

  All functions are declared before any body is typed.  The functions of a table are numbered in the
  order of their declarations, and a program without problems has a body for each of them.
-/
import Wacc.Proofs.Typing.Stat

namespace Wacc.Typing

variable {T T' : Table}

/-! ## Runs over functions -/

inductive Binds (f : FuncId) (func : Text) : List Tree → List Diagnostic → Table → Table → Prop
  | nil {T : Table} : Binds f func [] [] T T
  | cons {T T1 T' text span t name ps ds ty g d} : Open T 4 → T.func? f = some g → t.IsType →
      type t = .ok ty → T.bindParam f name.text ty name.span = .ok (d, T1) → Open T1 0 →
      T1.funcs.size = T.funcs.size → Binds f func ps ds T1 T' →
    Binds f func (.node .param text span [t, name] :: ps) ((if d.fresh then []
      else [(Problem.duplicateParameter name.text func).diagnostic name.span]) ++ ds) T T'

/-- All functions are declared, before any body is typed. -/
inductive Declares : List Tree → List Header → Table → Table → Prop
  | nil {T : Table} : Declares [] [] T T
  | fresh {T T0 T1 T' text text' span span' t name b ps ns ds hs ty d} : Open T 1 →
      type t = .ok ty → T.declareFunc name.text ty name.span = (d, T0) → d.fresh = true → Open T0 0 →
      d.id.toNat = T.funcs.size + 1 → T0.funcs.size = T.funcs.size + 1 → Binds d.id name.text ps ds T0 T1 →
      Declares ns hs T1 T' →
    Declares (.node .func text span [t, name, .node .paramList text' span' ps, b] :: ns)
      (⟨some d.id, ds⟩ :: hs) T T'
  | taken {T T' text span t name ps b ns hs ty d} : T.Wf → T.declareFunc name.text ty name.span = (d, T) →
      d.fresh = false → Declares ns hs T T' →
    Declares (.node .func text span [t, name, ps, b] :: ns) (⟨none, [((Problem.duplicateFunction name.text).diagnostic
      name.span).withNote (((T.func? d.id).map (·.span)).getD {}) (lit "previous definition is here")]⟩ :: hs) T T'

def Signature.func (g : Signature) (id : FuncId) (span : Span) (body : Block) : Func :=
  { id, name := g.name, result := g.result, params := g.params, scope := g.scope, body, span }

inductive Bodies : List Tree → List Header → List (Checked Func) → Table → Table → Prop
  | nil {T : Table} : T.Wf → T.Laid → Bodies [] [] [] T T
  | fresh {T T1 T' text span t name ps b ns id ds hs g c cs} :
      T.func? id = some g → Walks g.scope (.block b c) T T1 → Bodies ns hs cs T1 T' →
    Bodies (.node .func text span [t, name, ps, b] :: ns) (⟨some id, ds⟩ :: hs)
      ((c.map (Signature.func g id span)).check ds :: cs) T T'
  | taken {T T' n ns d ds hs cs} : Bodies ns hs cs T T' →
    Bodies (n :: ns) (⟨none, d :: ds⟩ :: hs) (.bad d ds :: cs) T T'

inductive Checks : Tree → Checked Program → Table → Prop
  | mk {T1 T2 T text span fs main hs cs c} : Declares fs hs .empty T1 → Bodies fs hs cs T1 T2 →
      Walks Table.global (.stat main c) T2 T →
    Checks (.node .program text span (fs ++ [main]))
      (Checked.map2 (fun funcs body => { funcs, body, table := T, span }) (Checked.all cs) c) T

/-! ## Declaring functions -/

theorem params_binds {f : FuncId} {func : Text} {ps : List Tree} (hps : ∀ p ∈ ps, p.IsParam)
    (h : Open T (Tree.weights ps)) (hf : f.toNat ≤ T.funcs.size) (h0 : 0 < f.toNat) :
    Wp (params f func ps) (fun ds T' => Binds f func ps ds T T' ∧ T'.Wf ∧ T'.Laid ∧
      T'.cost ≤ T.cost + Tree.weights ps) T := by
  induction ps generalizing T with
  | nil =>
    simp only [params, wp_pure]
    exact ⟨.nil, h.wf, h.laid, Nat.le_add_right _ _⟩
  | cons p ps ih =>
    obtain ⟨hp, htail⟩ := List.forall_mem_cons.1 hps
    cases hp with
    | @mk text span t name ht hname =>
      have h3 := ht.weight_ge
      have h1 := hname.weight_eq
      obtain ⟨ty, hty⟩ := type_ok ht
      obtain ⟨g, hg⟩ := Table.numbered_of_lt h0 hf
      have hroom := h.room
      simp only [Tree.weight_steps, NodeKind.weight] at hroom ⊢
      have h4 : Open T 4 := ⟨h.wf, h.laid, by omega⟩
      obtain ⟨d, T1, hd, hw, hl, hc, hsize⟩ :=
        Table.bindParam_keeps name.text ty name.span h.wf h.laid hg h4.room
      simp only [params, wp_bind, wp_lift, wp_get, wp_set, wp_pure]
      refine ⟨ty, hty, (d, T1), hd, ?_⟩
      refine (ih htail ⟨hw, hl, by omega⟩ (hsize ▸ hf)).weaken ?_
      rintro ds T' ⟨hds, hw', hl', hc'⟩
      exact ⟨.cons h4 hg ht hty hd ⟨hw, hl, by omega⟩ hsize hds, hw', hl', by omega⟩

theorem Binds.size {f : FuncId} {func : Text} {ps : List Tree} {ds : List Diagnostic}
    (h : Binds f func ps ds T T') : T'.funcs.size = T.funcs.size := by
  induction h with
  | nil => rfl
  | cons _ _ _ _ _ _ hsize _ ih => exact ih.trans hsize

def headerWeight (n : Tree) : Nat := 1 + (n.child 2).weight

theorem headers_declare {ns : List Tree} (hns : ∀ n ∈ ns, n.IsFunc) (h : Open T (ns.map headerWeight).sum) :
    Wp (ns.mapM header) (fun hs T' => Declares ns hs T T' ∧ T'.Wf ∧ T'.Laid ∧
      T'.cost ≤ T.cost + (ns.map headerWeight).sum) T := by
  induction ns generalizing T with
  | nil =>
    simp only [List.mapM_nil, wp_pure]
    exact ⟨.nil, h.wf, h.laid, Nat.le_add_right _ _⟩
  | cons n ns ih =>
    obtain ⟨hn, htail⟩ := List.forall_mem_cons.1 hns
    cases hn with
    | @mk text text' span span' t name b ps ht hname hps hb =>
      obtain ⟨ty, hty⟩ := type_ok ht
      have hroom := h.room
      have hw2 : headerWeight (.node .func text span [t, name, .node .paramList text' span' ps, b]) =
          1 + (1 + Tree.weights ps) := by
        simp [headerWeight, Tree.child, Tree.children, NodeKind.weight]
      simp only [List.map_cons, List.sum_cons, hw2] at hroom ⊢
      simp only [List.mapM_cons, header, wp_bind, wp_lift, wp_get, wp_set, wp_pure]
      refine ⟨ty, hty, ?_⟩
      by_cases hd : (T.declareFunc name.text ty name.span).1.fresh = true
      · have hspelled : IsName name.text := by cases hname; assumption
        obtain ⟨hw, hl, hc, hid, hsize⟩ := Table.declareFunc_fresh h.wf h.laid hspelled (by omega) hd
        have h0 : Open (T.declareFunc name.text ty name.span).2 0 := ⟨hw, hl, by omega⟩
        simp only [Tree.child, Tree.children, List.getElem?_cons_succ, List.getElem?_cons_zero,
          Option.getD_some, hd, if_true, wp_bind, wp_pure]
        refine (params_binds hps ⟨hw, hl, by omega⟩ (by rw [hid, hsize]) (by omega)).weaken ?_
        rintro ds T1 ⟨hds, hw1, hl1, hc1⟩
        refine (ih htail ⟨hw1, hl1, by omega⟩).weaken ?_
        rintro hs T2 ⟨hhs, hw2, hl2, hc2⟩
        exact ⟨.fresh ⟨h.wf, h.laid, by omega⟩ hty rfl hd h0 hid hsize hds hhs, hw2, hl2, by omega⟩
      · have hsame : (T.declareFunc name.text ty name.span).2 = T := by
          unfold Table.declareFunc at hd ⊢
          split at hd
          · rfl
          · exact absurd rfl hd
        simp only [Tree.child, Tree.children, List.getElem?_cons_succ, List.getElem?_cons_zero,
          Option.getD_some, hd, Bool.false_eq_true, if_false, wp_pure, hsame]
        refine (ih htail ⟨h.wf, h.laid, by omega⟩).weaken ?_
        rintro hs T2 ⟨hhs, hw2, hl2, hc2⟩
        exact ⟨.taken h.wf (Prod.ext rfl hsame) (Bool.eq_false_of_not_eq_true hd) hhs, hw2, hl2, by omega⟩

theorem Declares.size_le {ns : List Tree} {hs : List Header} (h : Declares ns hs T T') :
    T.funcs.size ≤ T'.funcs.size := by
  induction h with
  | nil => exact le_rfl
  | fresh _ _ _ _ _ _ hsize hps _ ih => have := hps.size; omega
  | taken _ _ _ _ ih => exact ih

/-- The functions are numbered in the order of their declarations. -/
theorem Declares.ids {ns : List Tree} {hs : List Header} {ids : List FuncId} (h : Declares ns hs T T')
    (hids : hs.map (·.id) = ids.map some) :
    ids = (List.range' T.funcs.size (T'.funcs.size - T.funcs.size)).map fun i => (i + 1).toUInt32 := by
  induction h generalizing ids with
  | nil =>
    obtain rfl : ids = [] := by simpa using hids
    simp
  | @fresh T T0 T1 T' _ _ _ _ _ _ _ _ _ _ _ _ d _ _ _ _ _ hid hsize hps hrest ih =>
    obtain ⟨j, js, rfl, hj, hjs⟩ := List.map_eq_cons_iff.1 hids.symm
    have hle := hrest.size_le
    have hsize1 : T1.funcs.size = T.funcs.size + 1 := hps.size.trans hsize
    obtain rfl : j = (T.funcs.size + 1).toUInt32 := by
      rw [← Option.some.inj hj] at hid
      refine UInt32.toNat_inj.1 (hid.trans (Table.toNat_number ?_).symm)
      have := j.toNat_lt
      omega
    rw [ih hjs.symm, hsize1, show T'.funcs.size - T.funcs.size = T'.funcs.size - (T.funcs.size + 1) + 1 by omega,
      List.range'_succ, List.map_cons]
  | taken =>
    obtain ⟨j, js, rfl, hj, -⟩ := List.map_eq_cons_iff.1 hids.symm
    cases hj

/-! ## Bodies -/

theorem Func.Typed.mono {f : Func} (h : T.Grows T') (hf : T'.funcs = T.funcs) (ht : f.Typed T) :
    f.Typed T' := by
  obtain ⟨g, hg, hrest⟩ := ht.signature
  exact ⟨⟨g, by rw [Table.func?_eq, hf]; exact hg, hrest⟩, ht.body.1.mono h, ht.body.2.mono h hf⟩

def bodyWeight (n : Tree) : Nat := 1 + (n.child 3).weight

theorem Bodies.extends {ns : List Tree} {hs : List Header} {cs : List (Checked Func)}
    (h : Bodies ns hs cs T T') : T.Extends (ns.map bodyWeight).sum T' := by
  induction h with
  | nil hw hl => exact .refl hw hl _
  | fresh _ hc _ ih => exact hc.extends.trans ih
  | taken _ ih => exact ih.weaken (by simp)

theorem funcs_bodies {ns : List Tree} {hs : List Header} {U V : Table} (hhs : Declares ns hs U V)
    (hle : V.funcs.size ≤ T.funcs.size) (hns : ∀ n ∈ ns, n.IsFunc) (h : Open T (ns.map bodyWeight).sum) :
    Wp ((ns.zip hs).mapM fun (n, x) => func n x) (fun cs T' => Bodies ns hs cs T T') T := by
  induction hhs generalizing T with
  | nil =>
    simp only [List.zip_nil_right, List.mapM_nil, wp_pure]
    exact .nil h.wf h.laid
  | fresh _ _ _ _ _ hid hsize hps hrest ih =>
    obtain ⟨hn, htail⟩ := List.forall_mem_cons.1 hns
    obtain ⟨-, -, -, hb⟩ := hn
    have hsize1 := hps.size
    have hsize' := hrest.size_le
    obtain ⟨g, hg⟩ := Table.numbered_of_lt (a := T.funcs) (by rw [hid]; exact Nat.succ_pos _) (by omega)
    rw [← Table.func?_eq] at hg
    obtain ⟨s, hs, -⟩ := h.wf.funcs _ g hg
    simp only [List.zip_cons_cons, List.mapM_cons, func, wp_bind, wp_get, Option.bind_some, hg, Option.map_some,
      wp_pure, Tree.child, Tree.children, List.getElem?_cons_succ, List.getElem?_cons_zero, Option.getD_some]
    refine inBlock_walks (stat_walks hb) (h.le (Nat.le_add_right _ _)) hs fun c T1 hc he => ?_
    exact (ih (by rw [he.funcs]; exact hle) htail (h.after he)).weaken fun cs T2 hcs => .fresh hg hc hcs
  | taken _ _ _ _ ih =>
    simp only [List.zip_cons_cons, List.mapM_cons, func, wp_bind, wp_get, Option.bind_none, Checked.ofProblems?,
      wp_pure]
    exact (ih hle (List.forall_mem_cons.1 hns).2 (h.le (Nat.le_add_left _ _))).weaken fun cs T2 hcs => .taken hcs

theorem Bodies.typed {ns : List Tree} {hs : List Header} {cs : List (Checked Func)} (h : Bodies ns hs cs T T') :
    (Checked.all cs).Holds fun fs => (∀ f ∈ fs, f.Typed T' ∧ f.body.size ≤ Tree.weights ns) ∧
      hs.map (·.id) = (fs.map (·.id)).map some := by
  induction h with
  | nil => exact Checked.holds_ok ⟨by simp, rfl⟩
  | @fresh T T1 T' text span t name ps b ns id ds hs g c cs hg hc hcs ih =>
    have he := hc.extends
    have he' := hcs.extends
    have hf : ((c.map (Signature.func g id span)).check ds).Holds fun f =>
        f.Typed T1 ∧ f.id = id ∧ f.body.size ≤ b.weight := by
      refine Checked.Holds.check (hc.typed.map ?_)
      rintro _ ⟨site, i, r, rfl, hi, hr, hsize⟩
      exact ⟨⟨⟨g, by rw [Table.func?_eq, he.funcs]; exact hg, rfl, rfl, rfl, rfl⟩, hi, hr⟩, rfl,
        by simpa only [Signature.func, Block.size] using hsize⟩
    refine hf.map2 ih ?_
    rintro f fs ⟨ht, rfl, hsize⟩ ⟨hfs, hids⟩
    simp only [Tree.weight_steps, NodeKind.weight]
    refine ⟨List.forall_mem_cons.2 ⟨⟨Func.Typed.mono he'.grows he'.funcs ht, by omega⟩, fun f' hf' => ?_⟩, ?_⟩
    · exact ⟨(hfs f' hf').1, by have := (hfs f' hf').2; omega⟩
    · simp only [List.map_cons, hids]
  | taken =>
    exact Checked.Holds.map2 (P := fun _ => False) Checked.holds_bad (Q := fun _ => True) (fun _ _ => trivial) (by simp)

theorem weights_funcs {ns : List Tree} (hns : ∀ n ∈ ns, n.IsFunc) :
    (ns.map headerWeight).sum + (ns.map bodyWeight).sum ≤ Tree.weights ns := by
  induction ns with
  | nil => simp
  | cons n ns ih =>
    obtain ⟨hn, htail⟩ := List.forall_mem_cons.1 hns
    have := ih htail
    cases hn with
    | mk ht hname hps hb =>
      have h3 := ht.weight_ge
      simp only [List.map_cons, List.sum_cons, headerWeight, bodyWeight, Tree.child, Tree.children,
        List.getElem?_cons_succ, List.getElem?_cons_zero, Option.getD_some, Tree.weights_cons,
        Tree.weight_steps, NodeKind.weight]
      omega

/-! ## Programs -/

structure Bounded (n : Nat) (p : Program) : Prop where
  typed : p.Typed
  body : p.body.size ≤ n
  funcs : ∀ f ∈ p.funcs, f.body.size ≤ n

/-- **A tree with the shape of a program is typed without a fault.** -/
theorem check_runs {n : Tree} (hn : n.IsProgram) (hw : n.weight < 2 ^ 32) :
    ∃ c T, check n = .ok (c, T) ∧ Checks n c T := by
  suffices hwp : Wp (program n) (Checks n) Table.empty from hwp
  cases hn with
  | @mk text span fs main hfs hmain =>
    have hsum := weights_funcs hfs
    have hcost : Table.empty.cost = 1 := rfl
    simp only [Tree.weight_steps, NodeKind.weight, Tree.weights_append] at hw
    simp only [program, List.getLast?_concat, List.dropLast_concat, wp_bind, wp_get, wp_pure]
    refine (headers_declare hfs ⟨Table.empty_wf, Table.empty_laid, by omega⟩).weaken ?_
    rintro hs T1 ⟨hhs, hw1, hl1, hc1⟩
    refine (funcs_bodies hhs le_rfl hfs ⟨hw1, hl1, by omega⟩).weaken fun cs T2 hcs => ?_
    have he := hcs.extends
    have hc2 := he.cost
    obtain ⟨s, hroot, hk⟩ := he.wf.root
    have hready : Ready T2 Table.global main.weight :=
      ⟨⟨he.wf, he.laid, by omega⟩, s, hroot, by rw [hk]; decide⟩
    exact (stat_walks hmain _ _ hready).weaken fun c T3 hc => .mk hhs hcs hc

/-- **What is typed as a program is well-typed.** -/
theorem check_sound {n : Tree} (hn : n.IsProgram) (hw : n.weight < 2 ^ 32) :
    ∃ c T, check n = .ok (c, T) ∧ c.Holds fun p => Bounded n.weight p ∧ p.table = T := by
  obtain ⟨c, T, hrun, hc⟩ := check_runs hn hw
  refine ⟨c, T, hrun, ?_⟩
  cases hc with
  | @mk T1 T2 T text span fs main hs cs c hhs hcs hc =>
    have he := hcs.extends
    have he' := hc.extends
    refine hcs.typed.map2 hc.typed ?_
    rintro gs b ⟨hgs, hids⟩ ⟨hb, hsize⟩
    simp only [Tree.weight_steps, NodeKind.weight, Tree.weights_append]
    refine ⟨⟨⟨he'.wf, he'.laid, ?_, fun f hf => ?_, hb⟩, by simp only; omega, fun f hf => ?_⟩, trivial⟩
    · have := hhs.ids hids
      rw [show Table.empty.funcs.size = 0 from rfl] at this
      simpa only [Table.funcIds, he'.funcs, he.funcs, List.range_eq_range', Nat.sub_zero] using this
    · exact Func.Typed.mono he'.grows he'.funcs (hgs f hf).1
    · have := (hgs f hf).2
      omega

end Wacc.Typing
