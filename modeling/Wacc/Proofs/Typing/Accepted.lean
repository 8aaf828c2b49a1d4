/-
  Programs that typing accepts are well-typed and well-scoped.

  Functions are declared before any body is typed, so at first a table has the global scope, a scope
  for each function and the parameters: it is `Bare`.  The bodies follow in order, and the main
  program comes last.
-/
import Wacc.Proofs.Compile
import Wacc.Proofs.Typing.Names

namespace Wacc.Typing

variable {T T' : Table}
  {p : Program} {d : Table.Declared} {i : Nat} {hs : List Header} {ns : List Tree} {name : Text} {span : Span}

/-! ## Tables without blocks -/

/-- Nothing but functions and their parameters is declared. -/
structure Bare (T : Table) : Prop where
  listed : T.Listed
  scopes : T.scopes.size = T.funcs.size + 1
  vars : T.vars.size = (T.funcs.toList.map (·.params.length)).sum
  frames : ∀ i s, T.scope? i = some s → s.kind ≠ .block

theorem empty_bare : Bare Table.empty := by
  refine ⟨Table.empty_listed, rfl, rfl, fun i s hs => ?_⟩
  have hplaced := Table.empty_wf.placed i s hs
  intro hk
  simp only [Table.Placed, hk] at hplaced
  -- a block has a parent with a smaller number, and there is one scope only
  obtain ⟨hlt, p, hp⟩ := hplaced
  have h1 := (Table.numbered_lt hs).2
  have h2 := (Table.numbered_lt hp).1
  simp only [Table.empty, List.size_toArray, List.length_cons, List.length_nil] at h1
  omega

theorem declareFunc_bare {result : Ty} (hw : T.Wf) (h : Bare T) (hc : T.cost + 1 < 2 ^ 32)
    (hd : T.declareFunc name result span = (d, T')) : Bare T' := by
  rw [← show (T.declareFunc name result span).2 = T' from congrArg Prod.snd hd]
  unfold Table.declareFunc
  split
  · exact h
  · obtain ⟨p, hp, -⟩ := hw.root
    have hsize : T.scopes.size + 1 < 2 ^ 32 := by simp only [Table.cost] at hc; omega
    have ho := @Table.newScope_opens T .function Table.global span (T.funcs.size + 1).toUInt32 p hp hsize
    refine ⟨ho.listed h.listed, ?_, ?_, ?_⟩
    · simp only [ho.size, Table.newScope_funcs, Array.size_push, h.scopes]
    · simp only [ho.vars, Table.newScope_funcs, Array.toList_push, List.map_append, List.sum_append, h.vars,
        List.map_cons, List.map_nil, List.sum_cons, List.sum_nil, List.length_nil, Nat.add_zero]
    · intro i s hs
      rcases ho.cases hs with ⟨rfl, rfl⟩ | ⟨s', hs', rfl⟩
      · rintro ⟨⟩
      · exact h.frames i s' hs'

theorem sum_params_modify {l : List Signature} (x : VarId) (hi : i < l.length) :
    ((l.modify i fun g => { g with params := g.params ++ [x] }).map (·.params.length)).sum =
      (l.map (·.params.length)).sum + 1 := by
  induction l generalizing i with
  | nil => simp at hi
  | cons g l ih =>
    cases i with
    | zero =>
      simp only [List.modify_zero_cons, List.map_cons, List.sum_cons, List.length_append, List.length_cons,
        List.length_nil]
      omega
    | succ i =>
      rw [List.modify_succ_cons, List.map_cons, List.sum_cons, ih (by simpa using hi), List.map_cons,
        List.sum_cons, Nat.add_assoc]

theorem bindParam_bare {f : FuncId} {type : Ty} (hw : T.Wf) (h : Bare T) (hc : T.cost + 4 < 2 ^ 32)
    (hd : T.bindParam f name type span = .ok (d, T')) : Bare T' := by
  cases hg : T.func? f with
  | none => simp [Table.bindParam, hg] at hd
  | some g =>
    obtain ⟨s, hs, hk, -⟩ := hw.funcs f g hg
    cases hn : s.names.lookup name with
    | some old =>
      simp only [Table.bindParam, hg, hs, Table.declareIn, hn] at hd
      cases hd
      exact h
    | none =>
      have ha := @Table.adds_modifyScope T g.scope s name type span true hs hn
        (by simp only [Table.cost] at hc; omega)
      simp only [Table.bindParam, hg, hs, Table.declareIn_unknown hn, if_true] at hd
      obtain ⟨i, hi, hget⟩ := Table.numbered_eq_some.1 hg
      have hindex : Table.index? f = some i := by
        rw [Table.index?, if_neg (by rintro rfl; simp at hi), hi, Nat.add_sub_cancel]
      simp only [Table.modifyFunc, hindex] at hd
      cases hd
      refine ⟨ha.listed h.listed, ?_, ?_, ?_⟩
      · simp only [ha.scopes, Array.size_modify, Table.modifyScope_funcs, h.scopes]
      · have hlt : i < T.funcs.toList.length := by
          rw [Array.length_toList]
          exact (Array.getElem?_eq_some_iff.1 hget).1
        refine ha.size.trans ?_
        simp only [Array.toList_modify, Table.modifyScope_funcs, sum_params_modify _ hlt, h.vars]
      · intro o s' hs'
        rcases ha.cases hs' with ⟨rfl, rfl⟩ | ⟨-, ht⟩
        · exact h.frames _ s hs
        · exact h.frames o s' ht

theorem Binds.bare {f : FuncId} {func : Text} {ps : List Tree} {ds : List Diagnostic}
    (h : Binds f func ps ds T T') (hb : Bare T) : Bare T' := by
  induction h with
  | nil => exact hb
  | cons ho _ _ _ hd _ _ _ ih => exact ih (bindParam_bare ho.wf hb ho.room hd)

theorem Declares.bare (h : Declares ns hs T T') (hb : Bare T) : Bare T' := by
  induction h with
  | nil => exact hb
  | fresh ho _ hd _ _ _ _ hps _ ih => exact ih (hps.bare (declareFunc_bare ho.wf hb ho.room hd))
  | taken _ _ _ _ ih => exact ih hb

/-! ## Bodies -/

theorem Bodies.scoped {cs : List (Checked Func)} (h : Bodies ns hs cs T T') (hl : T.Listed) :
    T'.Listed ∧ (Checked.all cs).Holds fun fs => Func.ScopedAll T' T.now fs ∧
      T'.now = T.now.plus (Func.openedAll fs) (Func.declaredAll fs) := by
  induction h with
  | nil => exact ⟨hl, Checked.holds_ok ⟨trivial, rfl⟩⟩
  | @fresh T T1 T' text span t name ps b ns id ds hs g c cs hg hc hcs ih =>
    obtain ⟨hl1, hc1⟩ := hc.scoped hl
    obtain ⟨hl2, hcs2⟩ := ih hl1
    have hf : ((c.map (Signature.func g id span)).check ds).Holds fun f =>
        f.body.Scoped T1 f.scope T.now ∧ T1.now = T.now.afterBlock f.body :=
      Checked.Holds.check (hc1.map fun b hb => hb)
    refine ⟨hl2, ?_⟩
    rw [Checked.all]
    refine hf.map2 hcs2 ?_
    rintro f fs ⟨hf, hnow⟩ ⟨hfs, hnow'⟩
    have he := hcs.extends
    rw [hnow] at hfs hnow'
    refine ⟨⟨hf.mono ⟨hc.extends.wf, he.wf, he.grows⟩ f.body (by rw [← hnow]; exact le_rfl), hfs⟩, ?_⟩
    rw [hnow']
    simp only [Moment.afterBlock, Moment.plus, Func.openedAll, Func.declaredAll, List.flatMap_cons,
      List.length_append, Nat.add_assoc]
  | taken _ ih =>
    refine ⟨(ih hl).1, ?_⟩
    rw [Checked.all]
    exact Checked.Holds.map2 (P := fun _ => False) Checked.holds_bad (Q := fun _ => True) (fun _ _ => trivial) (by simp)

/-! ## Programs -/

theorem length_funcs (hp : p.Typed) : p.funcs.length = p.table.funcs.size := by
  have := congrArg List.length hp.ids
  simpa [Table.funcIds] using this

theorem id_getElem (hp : p.Typed) (hi : i < p.funcs.length) : p.funcs[i].id.toNat = i + 1 := by
  have hid : p.funcs[i].id = (i + 1).toUInt32 := by
    have := List.getElem_of_eq hp.ids (i := i) (by simpa using hi)
    simpa [Table.funcIds] using this
  have hlen := length_funcs hp
  have hsmall := hp.wf.small
  have hfew := hp.wf.few
  simp only [Table.cost] at hsmall
  rw [hid]
  exact Table.toNat_number (by omega)

theorem func?_getElem (hp : p.Typed) (hi : i < p.funcs.length) : p.table.func? p.funcs[i].id = p.table.funcs[i]? := by
  ext g
  rw [Table.func?_eq, Table.numbered_eq_some, id_getElem hp hi]
  constructor
  · rintro ⟨j, hj, hg⟩
    rwa [Nat.succ.inj hj]
  · intro hg
    exact ⟨i, rfl, hg⟩

theorem mem_funcs_of_func? (hp : p.Typed) {id : FuncId} {g : Signature} (hg : p.table.func? id = some g) :
    ∃ f ∈ p.funcs, f.id = id ∧ f.name = g.name ∧ f.result = g.result ∧ f.params = g.params := by
  obtain ⟨i, hi, hget⟩ := Table.numbered_eq_some.1 hg
  have hlt : i < p.funcs.length := by
    rw [length_funcs hp]
    exact (Array.getElem?_eq_some_iff.1 hget).1
  have hmem := List.getElem_mem hlt
  obtain ⟨g', hg', hname, hresult, hparams, -⟩ := (hp.funcs _ hmem).signature
  have hsame : p.table.func? p.funcs[i].id = some g := (func?_getElem hp hlt).trans hget
  cases hg'.symm.trans hsame
  have hid : p.funcs[i].id = id := UInt32.toNat_inj.1 ((id_getElem hp hlt).trans hi.symm)
  exact ⟨_, hmem, hid, hname.symm, hresult.symm, hparams.symm⟩

theorem params_eq (hp : p.Typed) : p.funcs.map (·.params) = p.table.funcs.toList.map (·.params) := by
  have hlen := length_funcs hp
  refine List.ext_getElem (by simpa using hlen) fun i h1 h2 => ?_
  have hi : i < p.funcs.length := by simpa using h1
  obtain ⟨g, hg, -, -, hparams, -⟩ := (hp.funcs _ (List.getElem_mem hi)).signature
  rw [func?_getElem hp hi] at hg
  have hget := (Array.getElem?_eq_some_iff.1 hg).2
  simp [← hparams, ← hget]

theorem start_eq (hp : p.Typed) (hf : p.table.funcs = T.funcs) (hb : Bare T) : p.start = T.now := by
  have hparams : p.funcs.map (·.params.length) = T.funcs.toList.map (·.params.length) := by
    have := congrArg (List.map List.length) (params_eq hp)
    simpa [hf, Function.comp_def] using this
  rw [Program.start, Table.now, length_funcs hp, hparams, hf, hb.scopes, hb.vars]

/-- **What is typed as a program is well-scoped.** -/
theorem Checks.scoped {n : Tree} {c : Checked Program} (h : Checks n c T) :
    c.Holds fun p => p.Typed → p.Scoped := by
  obtain @⟨T1, T2, T, text, span, fs, main, hs, cs, c, hhs, hcs, hc⟩ := h
  have hbare := hhs.bare empty_bare
  have he2 := hcs.extends
  have he3 := hc.extends
  obtain ⟨hl2, hcs2⟩ := hcs.scoped hbare.listed
  refine hcs2.map2 (hc.scoped hl2).2 ?_
  rintro gs b ⟨hgs, hnow2⟩ ⟨hb, hnow3⟩ htyped
  have hstart : _ = T1.now := start_eq htyped (he3.funcs.trans he2.funcs) hbare
  have hlater : Later T2 T := ⟨he2.wf, he3.wf, he3.grows⟩
  rw [← hstart] at hgs hnow2
  rw [hnow2] at hb hnow3
  refine ⟨fun i s hs hle => ?_, hgs.mono hlater (by rw [← hnow2]; exact le_rfl), hb, hnow3⟩
  -- the scopes up to the start were there before any block was opened
  rw [hstart] at hle
  obtain ⟨s1, hs1⟩ := Table.numbered_of_lt (a := T1.scopes) (Table.numbered_lt hs).1 hle
  obtain ⟨s3, hs3, hkind, -⟩ := (he2.grows.trans he3.grows).scopes i s1 hs1
  cases hs3.symm.trans hs
  rw [hkind]
  exact hbare.frames i s1 hs1

theorem program_scoped {n : Tree} (hn : n.IsProgram) (hw : n.weight < 2 ^ 32) :
    Wp (program n) (fun c _ => c.Holds fun p => p.Typed → p.Scoped) Table.empty := by
  obtain ⟨c, T, hrun, hc⟩ := check_runs hn hw
  exact ⟨c, T, hrun, hc.scoped⟩

/-- **A program that typing accepts is well-typed and well-scoped.**  Every name in it stands for the
    variable of the nearest scope that has the name at that point; every function that is called is a
    function of the program; and the blocks and headers of loops of the program are the blocks of its
    table, each once. -/
theorem accepted_resolved {f : File} {t : Tree} {p : Program} {T : Table}
    (hlen : f.content.length < 2 ^ 32) (ht : (Parsed.ofFile f).tree? 0 = some t)
    (hp : check t = .ok (.ok p, T)) :
    p.Typed ∧ p.Scoped ∧
      (∀ id g, p.table.func? id = some g →
        ∃ f ∈ p.funcs, f.id = id ∧ f.name = g.name ∧ f.result = g.result ∧ f.params = g.params) ∧
      p.blocks.Nodup ∧ ∀ i, i ∈ p.blocks ↔ ∃ s, p.table.scope? i = some s ∧ s.kind = .block := by
  obtain ⟨hshape, hweight⟩ := Parsed.tree_shape ht
  have hsmall : t.weight < 2 ^ 32 := hweight.trans_lt hlen
  obtain ⟨c, T₁, hc, hsound⟩ := check_sound hshape hsmall
  obtain ⟨c', T₂, hc', hscoped⟩ := program_scoped hshape hsmall
  cases hp.symm.trans hc
  cases hp.symm.trans hc'
  have htyped : p.Typed := (hsound p rfl).1.typed
  have hs : p.Scoped := hscoped p rfl htyped
  exact ⟨htyped, hs, fun id g hg => mem_funcs_of_func? htyped hg, hs.consecutive.nodup, hs.blocks_iff⟩

/-- A program in which one name means three variables: the first value of the second `x` is the first
    `x`, and the parameter is seen in the function only. -/
def shadowing : File where
  id := 0
  path := lit "shadowing.wacc"
  flags := 0
  content := lit "begin
    int twice(int x) is return x + x end
    int x = 1 ;
    for (int i = 0 ; i < 3 ; i = i + x) do
      int x = x + i ;
      println x
    done ;
    x = call twice(x)
  end"

theorem accepted_resolved_shadowing : ∃ t p T, shadowing.content.length < 2 ^ 32 ∧
    (Parsed.ofFile shadowing).tree? 0 = some t ∧ check t = .ok (.ok p, T) ∧ p.Typed ∧ p.Scoped ∧
      p.blocks.Nodup := by
  obtain ⟨p, hp⟩ : ∃ p, shadowing.program? = some p := Option.isSome_iff_exists.1 (by decide +kernel)
  obtain ⟨t, T, ht, hcheck, -⟩ := File.program?_eq_some hp
  have hlen : shadowing.content.length < 2 ^ 32 := by decide +kernel
  obtain ⟨htyped, hscoped, -, hnodup, -⟩ := accepted_resolved hlen ht hcheck
  exact ⟨t, p, T, hlen, ht, hcheck, htyped, hscoped, hnodup⟩

end Wacc.Typing
