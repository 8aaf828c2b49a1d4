/-
  Typing resolves names in the order of the program.
-/
import Wacc.Proofs.Typing.Stat

namespace Wacc.Typing

variable {α β : Type} {T T' : Table} {sc : ScopeId}
  {P : α → Prop} {x : Except Fault (Checked α)} {m : Moment} {R : β → Prop} {span : Span} {site : Site}

def Gives (P : α → Prop) (x : Except Fault (Checked α)) : Prop := ∀ c, x = .ok c → c.Holds P

def AllGive (P : α → Prop) (x : Except Fault (List (Checked α))) : Prop :=
  ∀ cs, x = .ok cs → ∀ c ∈ cs, c.Holds P

theorem Gives.ok {c : Checked α} (h : c.Holds P) : Gives P (.ok c) := by
  rintro _ ⟨⟩
  exact h

theorem Gives.bind {f : Checked α → Except Fault (Checked β)} (h : Gives P x) (hf : ∀ c, c.Holds P → Gives R (f c)) :
    Gives R (x >>= f) := by
  cases x with
  | error e => rintro _ ⟨⟩
  | ok c => exact hf c (h c rfl)

theorem AllGive.bind {x : Except Fault (List (Checked α))} {f : List (Checked α) → Except Fault (Checked β)}
    (h : AllGive P x) (hf : ∀ cs, (∀ c ∈ cs, c.Holds P) → Gives R (f cs)) : Gives R (x >>= f) := by
  cases x with
  | error e => rintro _ ⟨⟩
  | ok cs => exact hf cs (h cs rfl)

theorem all_holds {cs : List (Checked α)} (h : ∀ c ∈ cs, c.Holds P) :
    (Checked.all cs).Holds fun as => ∀ a ∈ as, P a := by
  refine Checked.holds_all.weaken fun as has a ha => ?_
  subst has
  exact h _ (List.mem_map_of_mem ha) a rfl

theorem allGive_cons {xs : Except Fault (List (Checked α))} (h : Gives P x) (hs : AllGive P xs) :
    AllGive P (do return (← x) :: (← xs)) := by
  cases x with
  | error e => rintro _ ⟨⟩
  | ok c =>
    cases xs with
    | error e => rintro _ ⟨⟩
    | ok cs =>
      rintro _ ⟨⟩
      exact List.forall_mem_cons.2 ⟨h c rfl, hs cs rfl⟩

theorem allGive_nil : AllGive P (.ok []) := by
  rintro _ ⟨⟩
  simp

/-! ## Statements -/

/-- What a walk from the table `T` finds is well-scoped from then on. -/
def Walk.Scoped (T T' : Table) (sc : ScopeId) : Walk → Prop
  | stat _ c => c.Holds fun s => s.Scoped T' sc T.now ∧ T'.now = T.now.after s
  | stats _ cs => (Checked.all cs).Holds fun ss => Stat.ScopedAll T' sc T.now ss ∧ T'.now = T.now.afterAll ss
  | block _ c => c.Holds fun b => b.Scoped T' sc T.now ∧ T'.now = T.now.afterBlock b

theorem newBlock_opens {s : Scope} {i : ScopeId} (h : Open T 1) (hs : T.scope? sc = some s) (hl : T.Listed)
    (hb : T.newBlock sc span = (i, T')) : Opens T' sc T.now i ∧ T'.Listed ∧ T'.now = T.now.next := by
  have hsize : T.scopes.size + 1 < 2 ^ 32 := by
    have hroom := h.room
    simp only [Table.cost] at hroom
    omega
  obtain ⟨rfl, rfl⟩ := Prod.mk.inj (show ((T.newBlock sc span).1, (T.newBlock sc span).2) = _ from hb)
  have ho : Table.Opens T { kind := .block, parent := sc, span } (T.newBlock sc span).1 (T.newBlock sc span).2 :=
    Table.newScope_opens hs hsize
  refine ⟨⟨ho.number, (h.newBlock (n := 0) hs hb).2.1⟩, ho.listed hl, ?_⟩
  simp only [Table.now, ho.size, ho.vars, Moment.next]

theorem declare_listed {name : Text} {type : Ty} {d : Table.Declared} (h : Ready T sc 4) (hl : T.Listed)
    (hd : T.declare sc name type span = .ok (d, T')) :
    T'.Listed ∧ (d.fresh = true → NewVar T' sc T.now d.id name type ∧
      T'.now = ⟨T.now.scopes, T.now.vars + 1⟩) := by
  obtain ⟨s, hs, -⟩ := h.scope
  simp only [Table.declare, hs, Except.ok.injEq] at hd
  cases hn : s.names.lookup name with
  | some old =>
    simp only [Table.declareIn, hn] at hd
    cases hd
    exact ⟨hl, (by rintro ⟨⟩)⟩
  | none =>
    have hroom := h.room
    have ha := @Table.adds_modifyScope T sc s name type span false hs hn
      (by simp only [Table.cost] at hroom; omega)
    rw [Table.declareIn_unknown hn] at hd
    cases hd
    refine ⟨ha.listed hl, fun _ => ⟨⟨ha.number, _, ha.here, rfl, rfl, rfl⟩, ?_⟩⟩
    simp only [Table.now, ha.scopes, ha.size]

/-! Sequences are taken apart, which changes neither the order nor the moments. -/

theorem openedAll_append (ss rs : List Stat) :
    Stat.openedAll (ss ++ rs) = Stat.openedAll ss ++ Stat.openedAll rs := by
  induction ss with
  | nil => rfl
  | cons s ss ih => simp only [List.cons_append, Stat.openedAll, ih, List.append_assoc]

theorem declaredAll_append (ss rs : List Stat) :
    Stat.declaredAll (ss ++ rs) = Stat.declaredAll ss ++ Stat.declaredAll rs := by
  induction ss with
  | nil => rfl
  | cons s ss ih => simp only [List.cons_append, Stat.declaredAll, ih, List.append_assoc]

theorem openedAll_flatten (s : Stat) : Stat.openedAll s.flatten = s.opened := by
  cases s <;> simp [Stat.flatten, Stat.openedAll, Stat.opened]

theorem declaredAll_flatten (s : Stat) : Stat.declaredAll s.flatten = s.declared := by
  cases s <;> simp [Stat.flatten, Stat.declaredAll, Stat.declared]

theorem after_sequence (m : Moment) (site : Site) (ss : List Stat) :
    m.after (.sequence site ss) = m.afterAll ss := by
  have hparts : Stat.openedAll (ss.flatMap Stat.flatten) = Stat.openedAll ss ∧
      Stat.declaredAll (ss.flatMap Stat.flatten) = Stat.declaredAll ss := by
    induction ss with
    | nil => exact ⟨rfl, rfl⟩
    | cons s ss ih =>
      rw [List.flatMap_cons, openedAll_append, openedAll_flatten, ih.1, Stat.openedAll, declaredAll_append,
        declaredAll_flatten, ih.2, Stat.declaredAll]
      exact ⟨rfl, rfl⟩
  rw [Moment.after, Stat.sequence, Stat.opened, Stat.declared, hparts.1, hparts.2, Moment.afterAll]

theorem Moment.afterAll_cons (m : Moment) (s : Stat) (ss : List Stat) :
    m.afterAll (s :: ss) = (m.after s).afterAll ss := by
  simp only [Moment.afterAll, Moment.after, Moment.plus, Stat.openedAll, Stat.declaredAll,
    List.length_append, Nat.add_assoc]

theorem scopedAll_append {ss rs : List Stat} (hs : Stat.ScopedAll T sc m ss)
    (hr : Stat.ScopedAll T sc (m.afterAll ss) rs) : Stat.ScopedAll T sc m (ss ++ rs) := by
  induction ss generalizing m with
  | nil => exact hr
  | cons s ss ih =>
    rw [Moment.afterAll_cons] at hr
    exact ⟨hs.1, ih hs.2 hr⟩

theorem flatten_scoped {s : Stat} (hs : s.Scoped T sc m) : Stat.ScopedAll T sc m s.flatten := by
  cases s with
  | seq site ss => exact hs.2
  | _ => exact ⟨hs, trivial⟩

theorem sequence_scoped {ss : List Stat} (hsite : site.scope = sc) (h : Stat.ScopedAll T sc m ss) :
    (Stat.sequence site ss).Scoped T sc m := by
  refine ⟨hsite, ?_⟩
  induction ss generalizing m with
  | nil => trivial
  | cons s ss ih =>
    rw [List.flatMap_cons]
    refine scopedAll_append (flatten_scoped h.1) ?_
    rw [Moment.afterAll, openedAll_flatten, declaredAll_flatten]
    exact ih h.2

theorem wordStat_scoped {k : NodeKind} {c : Checked Expr} (hk : Tree.isWord k = true) (hsc : site.scope = sc)
    (hc : c.Holds fun e => Named T sc T.now e.idents) :
    (wordStat T site k c).Holds fun s => s.Scoped T sc T.now ∧ T.now = T.now.after s := by
  subst hsc
  cases k <;> simp only [Tree.isWord, Bool.false_eq_true] at hk
  case free =>
    refine hc.bind fun e he => ?_
    split_ifs
    · exact Checked.holds_ok ⟨⟨rfl, he⟩, rfl⟩
    · exact Checked.holds_fails
  case «return» =>
    unfold wordStat ret
    split_ifs
    · exact Checked.holds_refuse
    · exact hc.map fun e he => ⟨⟨rfl, he⟩, rfl⟩
  case exit => exact (expectType_holds hc).map fun e he => ⟨⟨rfl, he.1⟩, rfl⟩
  all_goals exact hc.map fun e he => ⟨⟨rfl, he⟩, rfl⟩

theorem Walks.later {w : Walk} (h : Walks sc w T T') (hw : T.Wf) : Later T T' :=
  ⟨hw, h.extends.wf, h.extends.grows⟩

/-- **What is typed as a statement is well-scoped**, from the moment before it to the moment after. -/
theorem Walks.scoped {w : Walk} (h : Walks sc w T T') (hl : T.Listed) : T'.Listed ∧ w.Scoped T T' sc := by
  induction h with
  | skip => exact ⟨hl, Checked.holds_ok ⟨rfl, rfl⟩⟩
  | declare hr _ hv _ hc hd =>
    obtain ⟨type, d, -, hd', hs⟩ := declare_ok hd
    obtain ⟨hl', hfresh⟩ := declare_listed hr hl hd'
    have he := (hr.declare hd').1
    refine ⟨hl', hs.weaken ?_⟩
    rintro _ ⟨u, rfl, rfl, hf, -⟩
    have hu := ((value_sound hr.wf hr.laid hv).holds hc u rfl).named hl
    exact ⟨⟨rfl, hu.mono ⟨hr.wf, he.wf, he.grows⟩ le_rfl, (hfresh hf).1⟩, (hfresh hf).2⟩
  | assign hr hl' hv hc hd =>
    refine ⟨hl, ((target_sound hr.wf hl').holds hc).bind2 ((value_sound hr.wf hr.laid hv).holds hd) fun x y hx hy => ?_⟩
    split_ifs
    · exact Checked.holds_ok ⟨⟨rfl, hx.named hl, hy.named hl⟩, rfl⟩
    · exact Checked.holds_fails
  | read hr hl' hc =>
    refine ⟨hl, ((target_sound hr.wf hl').holds hc).bind fun x hx => ?_⟩
    split_ifs
    · exact Checked.holds_ok ⟨⟨rfl, hx.named hl⟩, rfl⟩
    · exact Checked.holds_fails
  | word hr hk he hc => exact ⟨hl, wordStat_scoped hk rfl (((expr_sound hr.wf he).holds hc).weaken fun _ h => h.named hl)⟩
  | ifThen hr hc hx hy ih | «while» hr hc hx hy ih =>
    obtain ⟨hl1, hy1⟩ := ih hl
    refine ⟨hl1, (condition_holds ((expr_sound hr.wf hc).holds hx)).map2 hy1 ?_⟩
    rintro e b ⟨he, -⟩ ⟨hb, hnow⟩
    exact ⟨⟨rfl, Named.mono (hy.later hr.wf) (he.named hl) le_rfl, hb⟩, hnow⟩
  | ifElse hr hc hx hy hz iha ihb =>
    obtain ⟨hl1, hy1⟩ := iha hl
    obtain ⟨hl2, hz2⟩ := ihb hl1
    refine ⟨hl2, (condition_holds ((expr_sound hr.wf hc).holds hx)).map3 hy1 hz2 ?_⟩
    rintro e b1 b2 ⟨he, -⟩ ⟨hb1, hnow1⟩ ⟨hb2, hnow2⟩
    have hlater := hz.later hy.extends.wf
    rw [hnow1] at hb2 hnow2
    refine ⟨⟨rfl, Named.mono ⟨hr.wf, hlater.wf', hy.extends.grows.trans hlater.grows⟩ (he.named hl) le_rfl,
      hb1.mono hlater b1 (by rw [← hnow1]; exact le_rfl), hb2⟩, ?_⟩
    rw [hnow2]
    simp only [Moment.afterBlock, Moment.after, Moment.plus, Stat.opened, Stat.declared, List.length_append,
      Nat.add_assoc]
  | «for» hr hc hb hi hx hs hy ihi ihs ihb =>
    obtain ⟨s0, hs0, -⟩ := hr.scope
    obtain ⟨ho, hl0, hnow0⟩ := newBlock_opens hr.toOpen hs0 hl hb
    have hw0 := (hr.toOpen.newBlock (n := 0) hs0 hb).1.wf
    obtain ⟨hl1, hi1⟩ := ihi hl0
    obtain ⟨hl2, hs2⟩ := ihs hl1
    obtain ⟨hl3, hy3⟩ := ihb hl2
    have hx1 := ((expr_sound hi.extends.wf hc).holds hx).weaken fun _ h => h.named hl1
    refine ⟨hl3, hi1.map4 (condition_holds hx1) hs2 hy3 ?_⟩
    rintro p e q b' ⟨hp, hnow1⟩ ⟨he, -⟩ ⟨hq, hnow2⟩ ⟨hb', hnow3⟩
    have hlater2 := hy.later hs.extends.wf
    have hlater1 : Later _ _ := ⟨hi.extends.wf, hlater2.wf', hs.extends.grows.trans hlater2.grows⟩
    have hlater0 : Later _ _ := ⟨hw0, hlater2.wf', hi.extends.grows.trans hlater1.grows⟩
    rw [hnow0] at hp hnow1
    rw [hnow1] at he hq hnow2
    rw [hnow2] at hb' hnow3
    refine ⟨⟨rfl, ho.mono hlater0, hp.mono hlater1 p (by rw [← hnow1]; exact le_rfl),
      Named.mono hlater1 he (by rw [← hnow1]; exact le_rfl),
      hq.mono hlater2 q (by rw [← hnow2]; exact le_rfl), hb'⟩, ?_⟩
    rw [hnow3]
    simp only [Moment.afterBlock, Moment.after, Moment.plus, Moment.next, Stat.opened, Stat.declared,
      List.length_append, List.length_cons]
    congr 1 <;> omega
  | scope _ ih =>
    obtain ⟨hl1, hy⟩ := ih hl
    exact ⟨hl1, hy.map fun b hb => hb⟩
  | seq _ ih =>
    obtain ⟨hl1, hcs⟩ := ih hl
    refine ⟨hl1, Checked.Holds.check (hcs.map ?_)⟩
    rintro ss ⟨hss, hnow⟩
    exact ⟨sequence_scoped rfl hss, by rw [hnow, after_sequence]⟩
  | nil => exact ⟨hl, Checked.holds_ok ⟨trivial, rfl⟩⟩
  | cons hc hcs ih ihs =>
    obtain ⟨hl1, hc1⟩ := ih hl
    obtain ⟨hl2, hcs2⟩ := ihs hl1
    refine ⟨hl2, ?_⟩
    rw [Walk.Scoped, Checked.all]
    refine hc1.map2 hcs2 ?_
    rintro s ss ⟨hs, hnow⟩ ⟨hss, hnow'⟩
    rw [hnow] at hss hnow'
    refine ⟨⟨hs.mono (hcs.later hc.extends.wf) s (by rw [← hnow]; exact le_rfl), hss⟩, ?_⟩
    rw [hnow', Moment.afterAll_cons]
  | block ho hs hb hc ih =>
    obtain ⟨hopens, hl0, hnow⟩ := newBlock_opens ho hs hl hb
    obtain ⟨hl1, hc1⟩ := ih hl0
    refine ⟨hl1, hc1.map ?_⟩
    rintro s ⟨hs', hafter⟩
    rw [hnow] at hs' hafter
    refine ⟨⟨rfl, hopens.mono (hc.later (ho.newBlock (n := 0) hs hb).1.wf), hs'⟩, ?_⟩
    rw [hafter]
    simp only [Moment.after, Moment.afterBlock, Moment.plus, Moment.next, Block.opened, Block.declared,
      List.length_cons]
    congr 1
    omega

end Wacc.Typing
