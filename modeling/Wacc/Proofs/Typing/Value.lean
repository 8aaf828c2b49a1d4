/-
  Typing of written types, of places and of values is sound.

  Trees of their shapes are typed without a fault, and what is found is well-typed, no larger than the
  tree weighs, and uses names as they are at that moment.
-/
import Wacc.Proofs.Typing.Expr

namespace Wacc.Typing

variable {T : Table} {sc : ScopeId}
  {ns : List Tree} {n : Tree} {span : Span} {cs : List (Checked Expr)} {vs : List Value}

theorem type_ok (h : n.IsType) : ∃ t, type n = .ok t := by
  induction h with
  | base ht =>
    rw [type]
    simp only [List.mem_cons, List.not_mem_nil, or_false] at ht
    rcases ht with rfl | rfl | rfl | rfl <;> exact ⟨_, rfl⟩
  | bare => exact ⟨_, by rw [type]⟩
  | array _ ih =>
    obtain ⟨t, ht⟩ := ih
    exact ⟨_, by rw [type, ht]; rfl⟩
  | pair _ _ iha ihb =>
    obtain ⟨a, ha⟩ := iha
    obtain ⟨b, hb⟩ := ihb
    exact ⟨_, by rw [type, ha, hb]; rfl⟩

/-! ## Places -/

structure IsTarget (T : Table) (sc : ScopeId) (n : Tree) (l : Target) : Prop where
  typed : l.Typed T sc
  size : l.size ≤ n.weight
  named : T.Listed → Named T sc T.now l.idents

theorem slot_holds {word : Text} {c : Checked Target} {P : Target → Prop} (h : c.Holds P) :
    (slot span word c).Holds fun (t, snd, p) =>
      P p ∧ ∃ a b, p.type = .pair a b ∧ t = if snd then b else a := by
  refine h.bind fun p hp => ?_
  cases ht : p.type with
  | pair a b => exact Checked.holds_ok ⟨hp, a, b, ht, rfl⟩
  | _ => exact Checked.holds_fails

theorem target_sound (hw : T.Wf) (h : n.IsTarget) : Sound (IsTarget T sc n) (target T sc n) := by
  induction h with
  | ident hi =>
    cases hi
    exact ⟨_, by rw [target], (ident_holds hw).map fun id hid => ⟨.var hid.1,
      by simp [Target.size, NodeKind.weight], fun hl => List.forall_mem_singleton.2 (hid.2 hl)⟩⟩
  | @elem text span name i is hname hi his =>
    obtain ⟨cs, hcs, hall⟩ : AllSound (IsExpr T sc) (i :: is) _ :=
      exprs_sound (List.forall_mem_cons.2 ⟨expr_sound hw hi, fun j hj => expr_sound hw (his j hj)⟩)
    obtain ⟨c, hc, helem⟩ := element_sound hw span name.text name.span (by simp) hall
    refine ⟨_, by rw [target, hcs]; show (element _ _ _ >>= _) = _; rw [hc]; rfl, helem.map ?_⟩
    rintro ⟨t, id, es⟩ ⟨hid, hx, ht, hint, hsize, hnamed⟩
    refine ⟨.elem hid hx ht hint, ?_, hnamed⟩
    simp only [Target.size, Tree.weight_steps, NodeKind.weight] at hsize ⊢
    omega
  | slot _ ih =>
    obtain ⟨c, hc, hh⟩ := ih
    refine ⟨_, by rw [target, hc]; rfl, (slot_holds hh).map ?_⟩
    rintro ⟨t, snd, p⟩ ⟨⟨hp, hsize, hnamed⟩, a, b, hpair, rfl⟩
    refine ⟨.slot hp hpair, ?_, hnamed⟩
    simp only [Target.size, Tree.weight_steps, NodeKind.weight]
    omega

/-! ## Values -/

structure IsItem (T : Table) (sc : ScopeId) (n : Tree) (v : Value) : Prop where
  typed : v.Item T sc
  size : v.size ≤ n.weight
  named : T.Listed → Named T sc T.now v.idents

structure IsValue (T : Table) (sc : ScopeId) (n : Tree) (v : Value) : Prop where
  typed : v.Typed T sc
  size : v.size ≤ n.weight
  named : T.Listed → Named T sc T.now v.idents

theorem items_sound (h : ∀ n ∈ ns, Sound (IsItem T sc n) (item T sc n)) :
    AllSound (IsItem T sc) ns (items T sc ns) := by
  induction ns with
  | nil => exact ⟨[], by rw [items], .nil⟩
  | cons n ns ih =>
    obtain ⟨c, hc, hn⟩ := h n List.mem_cons_self
    obtain ⟨cs, hcs, hns⟩ := ih fun m hm => h m (List.mem_cons_of_mem _ hm)
    exact ⟨c :: cs, by rw [items, hc, hcs]; rfl, .cons hn hns⟩

theorem areItems (h : List.Forall₂ (IsItem T sc) ns vs) :
    Value.sizes vs ≤ Tree.weights ns ∧ (∀ v ∈ vs, v.Item T sc) ∧
      (T.Listed → Named T sc T.now (Value.identsAll vs)) := by
  induction h with
  | nil => simp [Value.sizes, Value.identsAll, Named]
  | cons h _ ih =>
    obtain ⟨hle, ht, hn⟩ := ih
    have := h.size
    exact ⟨by rw [Value.sizes, Tree.weights_cons]; omega, List.forall_mem_cons.2 ⟨h.typed, ht⟩,
      fun hl => List.forall_mem_append.2 ⟨h.named hl, hn hl⟩⟩

theorem arrayOf_holds : (arrayOf span vs).Holds fun v => ∃ t, v = .array span t vs := by
  cases vs with
  | nil => exact Checked.holds_ok ⟨_, rfl⟩
  | cons v vs => exact Checked.Holds.check (Checked.holds_ok ⟨_, rfl⟩)

theorem item_expr {k : NodeKind} {text : Text} {cs : List Tree} (hk : k ≠ .arrayLit) :
    item T sc (.node k text span cs) =
      (expr T sc (.node k text span cs) >>= fun c => pure (c.map Value.expr)) := by
  rw [item]
  exact hk

theorem IsExpr.not_arrayLit (h : n.IsExpr) : ∃ k text span cs, n = .node k text span cs ∧ k ≠ .arrayLit := by
  cases h with
  | ident hi => cases hi; exact ⟨_, _, _, _, rfl, nofun⟩
  | _ => exact ⟨_, _, _, _, rfl, nofun⟩

theorem item_sound (hw : T.Wf) (h : n.IsItem) : Sound (IsItem T sc n) (item T sc n) := by
  induction h with
  | expr he =>
    obtain ⟨c, hc, hh⟩ : Sound (IsExpr T sc _) _ := expr_sound hw he
    obtain ⟨k, text, span, cs, rfl, hk⟩ := IsExpr.not_arrayLit he
    refine ⟨_, by rw [item_expr hk, hc]; rfl, hh.map fun e he => ⟨.expr he.1, ?_, he.3⟩⟩
    simpa only [Value.size] using he.2
  | array _ ih =>
    obtain ⟨cs, hcs, hall⟩ := items_sound ih
    refine ⟨_, by rw [item, hcs]; rfl, Checked.holds_all.bind fun vs hvs => ?_⟩
    obtain ⟨hsize, hitems, hnamed⟩ := areItems (forall₂_values hall hvs)
    refine arrayOf_holds.weaken ?_
    rintro v ⟨t, rfl⟩
    refine ⟨.array hitems, ?_, hnamed⟩
    simp only [Value.size, Tree.weight_node, NodeKind.weight]
    omega

/-! ## Calls -/

theorem matchArguments_holds {func : Text} {ps : List VarId} (hps : ∀ p ∈ ps, ∃ v, T.var? p = some v)
    (hlen : cs.length = ps.length) (h : List.Forall₂ (fun n c => c.Holds (IsExpr T sc n)) ns cs) :
    (Checked.all (matchArguments T func ps cs)).Holds fun es =>
      List.Forall₂ (IsExpr T sc) ns es ∧ List.Forall₂ (ArgumentOf T) ps es := by
  induction ps generalizing ns cs with
  | nil =>
    obtain rfl := List.eq_nil_of_length_eq_zero hlen
    cases h
    exact Checked.holds_ok ⟨.nil, .nil⟩
  | cons p ps ih =>
    obtain ⟨c, cs, rfl⟩ := List.exists_cons_of_length_eq_add_one hlen
    obtain ⟨v, hv⟩ := hps p List.mem_cons_self
    cases h with
    | cons hc hcs =>
      have htail := ih (fun q hq => hps q (List.mem_cons_of_mem _ hq)) (by simpa using hlen) hcs
      simp only [matchArguments, hv, Checked.all]
      refine (expectType_holds hc).map2 htail ?_
      rintro e es ⟨he, ha⟩ ⟨hes, has⟩
      exact ⟨.cons he hes, .cons ⟨v, hv, ha⟩ has⟩

theorem params_vars (hl : T.Laid) {f : FuncId} {g : Signature} (hg : T.func? f = some g) :
    ∀ p ∈ g.params, ∃ v, T.var? p = some v := by
  obtain ⟨s, -, hlaid⟩ := hl f g hg
  generalize g.params = ps at hlaid ⊢
  generalize 0 = base at hlaid
  induction ps generalizing base with
  | nil => simp
  | cons p ps ih =>
    obtain ⟨v, hv, -, -, hlaid⟩ := hlaid
    exact List.forall_mem_cons.2 ⟨⟨v, hv⟩, ih _ hlaid⟩

theorem call_holds (hl : T.Laid) {name : Tree} (h : List.Forall₂ (fun n c => c.Holds (IsExpr T sc n)) ns cs) :
    (call T span name cs).Holds fun v => v.Typed T sc ∧ v.size ≤ 1 + Tree.weights ns ∧
      (T.Listed → Named T sc T.now v.idents) := by
  unfold call
  split
  · exact Checked.holds_refuse
  · rename_i f g hf
    obtain ⟨id, -, hfid⟩ := Option.bind_eq_some_iff.1 hf
    obtain ⟨g', hg, he⟩ := Option.map_eq_some_iff.1 hfid
    cases he
    split_ifs with hlen
    · exact Checked.holds_refuse
    · refine (matchArguments_holds (params_vars hl hg) (not_not.1 hlen) h).map ?_
      rintro es ⟨hes, hargs⟩
      obtain ⟨hsize, htyped, hnamed⟩ := areExprs hes
      exact ⟨.call hg htyped hargs, by rw [Value.size]; omega, hnamed⟩

/-- **A tree with the shape of a value is typed without a fault.** -/
theorem value_sound (hw : T.Wf) (hl : T.Laid) (h : n.IsValue) : Sound (IsValue T sc n) (value T sc n) := by
  cases h with
  | item hi =>
    obtain ⟨c, hc, hh⟩ : Sound (IsItem T sc _) _ := item_sound hw hi
    refine ⟨c, ?_, hh.weaken fun v hv => ⟨.item hv.1, hv.2, hv.3⟩⟩
    cases hi with
    | expr he =>
      cases he with
      | ident hi => cases hi; exact hc
      | _ => exact hc
    | array => exact hc
  | newPair ha hb =>
    obtain ⟨c, hc, hh⟩ : Sound (IsExpr T sc _) _ := expr_sound hw ha
    obtain ⟨d, hd, hh'⟩ : Sound (IsExpr T sc _) _ := expr_sound hw hb
    refine ⟨_, by rw [value, hc, hd]; rfl, hh.map2 hh' ?_⟩
    rintro a b ⟨ha, hm, hna⟩ ⟨hb, hn, hnb⟩
    refine ⟨.newPair ha hb, ?_, fun hl => List.forall_mem_append.2 ⟨hna hl, hnb hl⟩⟩
    simp only [Value.size, Tree.weight_steps, NodeKind.weight]
    omega
  | slot hp =>
    obtain ⟨c, hc, hh⟩ : Sound (IsTarget T sc _) _ := target_sound hw hp
    refine ⟨_, by rw [value, hc]; rfl, (slot_holds hh).map ?_⟩
    rintro ⟨t, snd, p⟩ ⟨⟨hp, hsize, hnamed⟩, a, b, hpair, rfl⟩
    refine ⟨.slot hp hpair, ?_, hnamed⟩
    simp only [Value.size, Tree.weight_steps, NodeKind.weight]
    omega
  | @call text text' span span' name args hname hargs =>
    obtain ⟨cs, hcs, hall⟩ : AllSound (IsExpr T sc) args _ :=
      exprs_sound fun a ha => expr_sound hw (hargs a ha)
    refine ⟨_, by rw [value, Tree.children, hcs]; rfl, (call_holds hl hall).weaken ?_⟩
    rintro v ⟨hv, hsize, hnamed⟩
    refine ⟨hv, ?_, hnamed⟩
    simp only [Tree.weight_steps, NodeKind.weight]
    omega

end Wacc.Typing
