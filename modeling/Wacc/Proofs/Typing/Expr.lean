/-
  Typing of expressions is sound.

  A tree with the shape of an expression is typed without a fault, and what is found to be an
  expression is well-typed, no larger than the tree weighs, and uses names as they are at that moment.
-/
import Wacc.Proofs.Typing.Scoped
import Wacc.Proofs.Tree.Shape

namespace Wacc

/-! ## Checked values -/

namespace Checked

variable {α β γ δ : Type} {P : α → Prop} {Q : β → Prop} {R : γ → Prop}
  {c : Checked α} {a : Checked α} {b : Checked β} {ds : List Diagnostic} {d : Diagnostic} {S : δ → Prop}

def Holds (P : α → Prop) (c : Checked α) : Prop := ∀ a, c = .ok a → P a

theorem holds_ok {a : α} (h : P a) : (Checked.ok a).Holds P := by rintro _ ⟨⟩; exact h

theorem holds_bad : (Checked.bad d ds : Checked α).Holds P :=
  nofun

theorem holds_fails {p : Problem} {s : Span} : (p.fails s : Checked α).Holds P := nofun

theorem Holds.weaken {P' : α → Prop} (h : c.Holds P) (hp : ∀ a, P a → P' a) :
    c.Holds P' := fun a ha => hp a (h a ha)

theorem Holds.map {f : α → β} (h : c.Holds P) (hf : ∀ a, P a → Q (f a)) : (c.map f).Holds Q := by
  cases c with
  | ok a => exact holds_ok (hf a (h a rfl))
  | bad => exact holds_bad

theorem Holds.bind {f : α → Checked β} (h : c.Holds P) (hf : ∀ a, P a → (f a).Holds Q) : (c.bind f).Holds Q := by
  cases c with
  | ok a => exact hf a (h a rfl)
  | bad => exact holds_bad

theorem Holds.bind2 {f : α → β → Checked γ} (ha : a.Holds P) (hb : b.Holds Q)
    (hf : ∀ x y, P x → Q y → (f x y).Holds R) : (bind2 a b f).Holds R := by
  cases a with
  | ok x =>
    cases b with
    | ok y => exact hf x y (ha x rfl) (hb y rfl)
    | bad => exact holds_bad
  | bad => exact holds_bad

theorem Holds.map2 {f : α → β → γ} (ha : a.Holds P) (hb : b.Holds Q) (hf : ∀ x y, P x → Q y → R (f x y)) :
    (map2 f a b).Holds R :=
  ha.bind2 hb fun x y hx hy => holds_ok (hf x y hx hy)

theorem Holds.map3 {c : Checked γ} {f : α → β → γ → δ} (ha : a.Holds P) (hb : b.Holds Q) (hc : c.Holds R)
    (hf : ∀ x y z, P x → Q y → R z → S (f x y z)) : (map3 f a b c).Holds S :=
  Holds.map2 (P := fun g => ∀ z, R z → S (g z)) (ha.map2 hb fun x y hx hy z hz => hf x y z hx hy hz) hc
    fun _ z hg hz => hg z hz

theorem Holds.map4 {ε : Type} {U : ε → Prop} {c : Checked γ} {d : Checked δ} {f : α → β → γ → δ → ε} (ha : a.Holds P)
    (hb : b.Holds Q) (hc : c.Holds R) (hd : d.Holds S) (hf : ∀ x y z w, P x → Q y → R z → S w → U (f x y z w)) :
    (Checked.map2 (fun g w => g w) (Checked.map3 f a b c) d).Holds U :=
  Holds.map2 (P := fun g => ∀ w, S w → U (g w))
    (ha.map3 hb hc fun x y z hx hy hz w hw => hf x y z w hx hy hz hw) hd fun _ w hg hw => hg w hw

theorem Holds.check (h : c.Holds P) : (c.check ds).Holds P := by
  cases ds with
  | nil => exact h
  | cons => cases c <;> exact holds_bad

theorem holds_refuse : (c.refuse d : Checked β).Holds Q := by
  cases c <;> exact holds_bad

theorem holds_all {cs : List (Checked α)} : (all cs).Holds fun as => cs = as.map .ok := by
  induction cs with
  | nil => exact holds_ok rfl
  | cons c cs ih =>
    refine Holds.map2 (P := fun a => c = .ok a) (fun a ha => ha) ih ?_
    rintro a as rfl rfl
    rfl

end Checked

namespace Typing

variable {T : Table} {sc : ScopeId} {text : Text} {span : Span} {c : Checked Expr} {op : BinOp}

/-- Typing ends without a fault, in a checked value that satisfies `P` if there is one. -/
def Sound {α : Type} (P : α → Prop) (x : Except Fault (Checked α)) : Prop :=
  ∃ c, x = .ok c ∧ c.Holds P

def AllSound {α : Type} (P : Tree → α → Prop) (ns : List Tree) (x : Except Fault (List (Checked α))) :
    Prop := ∃ cs, x = .ok cs ∧ List.Forall₂ (fun n c => c.Holds (P n)) ns cs

structure IsExpr (T : Table) (sc : ScopeId) (n : Tree) (e : Expr) : Prop where
  typed : e.Typed T sc
  size : e.size ≤ n.weight
  named : T.Listed → Named T sc T.now e.idents

/-! ## Names and elements -/

theorem accepts_int {t : Ty} (h : Ty.int.accepts t = true) : t = .int := by
  cases t <;> simp [Ty.accepts] at h ⊢

theorem accepts_bool {t : Ty} (h : Ty.bool.accepts t = true) : t = .bool := by
  cases t <;> simp [Ty.accepts] at h ⊢

theorem ident_holds (hw : T.Wf) {name : Text} :
    (ident T sc name span).Holds fun id => id.Typed T sc ∧ (T.Listed → id.Named T sc T.now.vars) := by
  unfold ident
  cases hx : T.lookup sc name with
  | none => exact Checked.holds_fails
  | some x =>
    obtain ⟨v, hv, he⟩ := Table.lookup_encloses hw hx
    simp only [hv]
    refine Checked.holds_ok ⟨⟨v, hv, rfl, he⟩, fun hl => ?_⟩
    obtain ⟨v', near, far, hv', hname, hchain, hnear⟩ := Table.lookup_nearest hw hl hx
    cases hv.symm.trans hv'
    exact ⟨v, near, far, hv, hname, rfl, (Table.numbered_lt hv).2, hchain, fun o ho y w hy hws hwn =>
      absurd hwn (hnear o ho y w hy hws)⟩

theorem expectType_holds {want : Ty} {role : Role} {P : Expr → Prop} (h : c.Holds P) :
    (expectType want role c).Holds fun e => P e ∧ want.accepts e.type = true := by
  refine h.bind fun e he => ?_
  split_ifs with hw
  · exact Checked.holds_ok ⟨he, hw⟩
  · exact Checked.holds_fails

theorem forall₂_values {α : Type} {P : Tree → α → Prop} {ns : List Tree} {cs : List (Checked α)}
    {as : List α} (h : List.Forall₂ (fun n c => c.Holds (P n)) ns cs) (hcs : cs = as.map .ok) :
    List.Forall₂ P ns as := by
  subst hcs
  rw [List.forall₂_map_right_iff] at h
  exact h.imp fun n a ha => ha a rfl

theorem forall_of_forall₂ {α β : Type} {Q : β → Prop} {as : List α} {bs : List β}
    (h : List.Forall₂ (fun _ b => Q b) as bs) : ∀ b ∈ bs, Q b := by
  induction h with
  | nil => simp
  | cons h _ ih => exact List.forall_mem_cons.2 ⟨h, ih⟩

theorem areExprs {ns : List Tree} {es : List Expr} (h : List.Forall₂ (IsExpr T sc) ns es) :
    Expr.sizes es ≤ Tree.weights ns ∧ (∀ e ∈ es, e.Typed T sc) ∧
      (T.Listed → Named T sc T.now (Expr.identsAll es)) := by
  induction h with
  | nil => simp [Expr.sizes, Expr.identsAll, Named]
  | cons h _ ih =>
    obtain ⟨hle, ht, hn⟩ := ih
    have := h.size
    exact ⟨by rw [Expr.sizes, Tree.weights_cons]; omega, List.forall_mem_cons.2 ⟨h.typed, ht⟩,
      fun hl => List.forall_mem_append.2 ⟨h.named hl, hn hl⟩⟩

theorem nested_ok {e : Ty} {d n : UInt32} (h : n ≤ d) : ∃ t, (Ty.array e d).nested n = .ok t := by
  unfold Ty.nested
  split_ifs with h0
  · exact ⟨_, rfl⟩
  · simp only [if_neg (UInt32.not_lt.2 h)]
    split_ifs
    · exact ⟨_, rfl⟩
    · exact ⟨_, rfl⟩

/-- A well-typed element of an array, whose indices the trees `ns` pay for. -/
structure ElementOf (T : Table) (sc : ScopeId) (ns : List Tree) (t : Ty) (id : Ident) (is : List Expr) :
    Prop where
  array : id.Typed T sc
  indexed : IndexedBy id.type is.length t
  typed : ∀ i ∈ is, i.Typed T sc
  int : ∀ i ∈ is, i.type = .int
  size : Expr.sizes is ≤ Tree.weights ns
  named : T.Listed → Named T sc T.now (id :: Expr.identsAll is)

theorem element_sound (hw : T.Wf) (span : Span) (name : Text) (span' : Span) {ns : List Tree}
    {cs : List (Checked Expr)} (hpos : 0 < ns.length)
    (hcs : List.Forall₂ (fun n c => c.Holds (IsExpr T sc n)) ns cs) :
    Sound (fun (t, id, is) => ElementOf T sc ns t id is)
      (element span (ident T sc name span') cs) := by
  have hall : (Checked.all (cs.map (expectType .int .index))).Holds fun es =>
      List.Forall₂ (fun n e => IsExpr T sc n e ∧ e.type = .int) ns es := by
    refine Checked.holds_all.weaken fun es hes => forall₂_values ?_ hes
    rw [List.forall₂_map_right_iff]
    exact hcs.imp fun n c hc =>
      (expectType_holds hc).weaken fun e he => ⟨he.1, accepts_int he.2⟩
  have hid : (ident T sc name span').Holds _ := ident_holds hw
  unfold element
  generalize Checked.all (cs.map (expectType .int .index)) = is at hall
  generalize ident T sc name span' = id at hid
  cases id with
  | bad d ds => cases is <;> exact ⟨_, rfl, Checked.holds_bad⟩
  | ok id =>
    cases is with
    | bad d ds => exact ⟨_, rfl, Checked.holds_bad⟩
    | ok is =>
      have his := hall is rfl
      have hlen := his.length_eq
      obtain ⟨hsize, htyped, hnamed⟩ := areExprs (his.imp fun _ _ h => h.1)
      have hint : ∀ i ∈ is, i.type = .int := forall_of_forall₂ (his.imp fun _ _ h => h.2)
      cases htype : id.type with
      | array e d =>
        simp only [htype]
        split_ifs with hd
        · exact ⟨_, rfl, Checked.holds_fails⟩
        · have hn : is.length.toUInt32.toNat = is.length :=
            UInt32.toNat_ofNat_of_lt' (by have := d.toNat_lt; simp only [UInt32.size]; omega)
          obtain ⟨t, ht⟩ := nested_ok (e := e) (d := d) (n := is.length.toUInt32)
            (UInt32.le_iff_toNat_le.2 (by rw [hn]; omega))
          simp only [ht]
          have hindexed : IndexedBy id.type is.length t :=
            ⟨by omega, e, d, htype, by omega, by rw [htype]; exact ht⟩
          have hid := hid id rfl
          exact ⟨_, rfl, Checked.holds_ok ⟨hid.1, hindexed, htyped, hint, hsize,
            fun hl => List.forall_mem_cons.2 ⟨hid.2 hl, hnamed hl⟩⟩⟩
      | _ => simp only [htype]; exact ⟨_, rfl, Checked.holds_fails⟩

/-! ## Expressions -/

theorem isExpr_leaf {k : NodeKind} {cs : List Tree} {e : Expr} (ht : e.Typed T sc) (hk : k.weight = 1)
    (hsize : e.size = 1) (hids : e.idents = []) : IsExpr T sc (.node k text span cs) e :=
  ⟨ht, by rw [hsize, Tree.weight_node, hk]; omega, fun _ => by simp [Named, hids]⟩

theorem intLit_holds : (intLit text span).Holds (IsExpr T sc (.node .intLit text span [])) := by
  unfold intLit
  split
  · split_ifs with hf
    · exact Checked.holds_ok (isExpr_leaf (.int hf) rfl rfl rfl)
    · exact Checked.holds_fails
  · exact Checked.holds_fails

theorem unary_rule {op : UnOp} (h : UnOp.ofText? text = some op) : ∃ r, op.rule? = some r := by
  cases op with
  | unknown n =>
    obtain ⟨⟨op, t⟩, hf, he⟩ := Option.map_eq_some_iff.1 h
    have := List.mem_of_find?_eq_some hf
    simp only at he
    subst he
    simp [UnOp.table] at this
  | _ => exact ⟨_, rfl⟩

theorem binary_rule (h : BinOp.ofText? text = some op) : ∃ r, op.rule? = some r := by
  cases op with
  | unknown n =>
    obtain ⟨⟨op, t⟩, hf, he⟩ := Option.map_eq_some_iff.1 h
    have := List.mem_of_find?_eq_some hf
    simp only at he
    subst he
    simp [BinOp.table] at this
  | _ => exact ⟨_, rfl⟩

theorem applyUnary_holds {op : UnOp} {r : UnRule} {n : Tree} (hr : op.rule? = some r) (hc : c.Holds (IsExpr T sc n)) :
    (applyUnary span op r c).Holds (IsExpr T sc (.node .unary text span [n])) := by
  refine hc.bind fun e he => ?_
  have := he.size
  split_ifs with ha
  · exact Checked.holds_ok ⟨.unary hr he.typed ha, by simp [Expr.size, NodeKind.weight]; omega, he.named⟩
  · exact Checked.holds_fails

theorem binaryOperand_holds {r : BinRule} {P : Expr → Prop} (hc : c.Holds P) :
    (binaryOperand op r c).Holds fun e => P e ∧ r.operands.accepts e.type = true := by
  refine hc.bind fun e he => ?_
  split_ifs with ha
  · exact Checked.holds_ok ⟨he, ha⟩
  · exact Checked.holds_fails

theorem applyBinary_holds {rule : BinRule} {l r : Checked Expr} {m n : Tree} (hr : op.rule? = some rule)
    (hl : l.Holds (IsExpr T sc m)) (hr' : r.Holds (IsExpr T sc n)) :
    (applyBinary span op rule l r).Holds (IsExpr T sc (.node .binary text span [m, n])) := by
  refine (binaryOperand_holds hl).bind2 (binaryOperand_holds hr') ?_
  rintro a b ⟨ha, hal⟩ ⟨hb, har⟩
  have := ha.size
  have := hb.size
  split_ifs with hs
  · exact Checked.holds_fails
  · refine Checked.holds_ok ⟨.binary hr ha.typed hb.typed ⟨hal, har, fun hsame => ?_⟩, ?_, fun hl =>
      List.forall_mem_append.2 ⟨ha.named hl, hb.named hl⟩⟩
    · simp only [hsame, Bool.true_and, Bool.and_eq_true, Bool.not_eq_true', not_and,
        Bool.not_eq_false] at hs
      by_cases hx : a.type.accepts b.type = true
      · exact .inl hx
      · exact .inr (hs (Bool.not_eq_true _ ▸ hx))
    · simp [Expr.size, NodeKind.weight]
      omega

theorem exprs_sound {ns : List Tree} (h : ∀ n ∈ ns, Sound (IsExpr T sc n) (expr T sc n)) :
    AllSound (IsExpr T sc) ns (exprs T sc ns) := by
  induction ns with
  | nil => exact ⟨[], by rw [exprs], .nil⟩
  | cons n ns ih =>
    obtain ⟨c, hc, hn⟩ := h n List.mem_cons_self
    obtain ⟨cs, hcs, hns⟩ := ih fun m hm => h m (List.mem_cons_of_mem _ hm)
    exact ⟨c :: cs, by rw [exprs, hc, hcs]; rfl, .cons hn hns⟩

/-- **A tree with the shape of an expression is typed without a fault.** -/
theorem expr_sound (hw : T.Wf) {n : Tree} (h : n.IsExpr) : Sound (IsExpr T sc n) (expr T sc n) := by
  induction h with
  | int => exact ⟨_, by rw [expr], intLit_holds⟩
  | bool => exact ⟨_, by rw [expr], Checked.holds_ok (isExpr_leaf .bool rfl rfl rfl)⟩
  | char hc =>
    exact ⟨_, by rw [expr]; simp only [hc]; rfl, Checked.holds_ok (isExpr_leaf .char rfl rfl rfl)⟩
  | str hs =>
    exact ⟨_, by rw [expr]; simp only [hs]; rfl, Checked.holds_ok (isExpr_leaf .str rfl rfl rfl)⟩
  | null => exact ⟨_, by rw [expr], Checked.holds_ok (isExpr_leaf .null rfl rfl rfl)⟩
  | ident hi =>
    cases hi
    exact ⟨_, by rw [expr], (ident_holds hw).map fun id hid => ⟨.var hid.1, by simp [Expr.size, NodeKind.weight],
      fun hl => List.forall_mem_singleton.2 (hid.2 hl)⟩⟩
  | @elem text span name i is hname _ _ ih ihs =>
    obtain ⟨cs, hcs, hall⟩ := exprs_sound (List.forall_mem_cons.2 ⟨ih, ihs⟩)
    obtain ⟨c, hc, helem⟩ := element_sound hw span name.text name.span (by simp) hall
    refine ⟨_, by rw [expr, hcs]; show (element _ _ _ >>= _) = _; rw [hc]; rfl, helem.map ?_⟩
    rintro ⟨t, id, es⟩ ⟨hid, hx, ht, hint, hsize, hnamed⟩
    refine ⟨.elem hid hx ht hint, ?_, hnamed⟩
    simp only [Expr.size, Tree.weight_steps, NodeKind.weight] at hsize ⊢
    omega
  | paren _ ih =>
    obtain ⟨c, hc, hh⟩ := ih
    exact ⟨c, by rw [expr, hc], hh.weaken fun e he => ⟨he.1, he.2.trans (by simp), he.3⟩⟩
  | unary ho _ ih =>
    obtain ⟨c, hc, hh⟩ := ih
    obtain ⟨r, hr⟩ := unary_rule ho
    exact ⟨_, by rw [expr]; simp only [ho, hr, hc]; rfl, applyUnary_holds hr hh⟩
  | binary ho _ _ ihl ihr =>
    obtain ⟨c, hc, hh⟩ := ihl
    obtain ⟨c', hc', hh'⟩ := ihr
    obtain ⟨r, hr⟩ := binary_rule ho
    exact ⟨_, by rw [expr]; simp only [ho, hr, hc, hc']; rfl, applyBinary_holds hr hh hh'⟩

end Typing

end Wacc
