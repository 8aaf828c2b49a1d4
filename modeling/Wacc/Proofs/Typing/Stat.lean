/-
  Typing of statements is sound.

  Statements are typed against a table that grows.  A tree with the shape of a statement is typed
  without a fault, the table stays well-formed and grows by no more than the tree weighs, and what
  is found is well-typed against every later table.
-/
import Wacc.Proofs.Typing.Value

namespace Wacc.Typing

variable {α β : Type} {T T' : Table} {sc : ScopeId}
  {site : Site} {c : Checked Expr} {ns : List Tree} {ss : List Stat} {span : Span}

/-! ## Running -/

/-- Typing from the table `T` ends without a fault, in an outcome and a table that satisfy `Q`. -/
def Wp (x : Typing α) (Q : α → Table → Prop) (T : Table) : Prop := ∃ a T', x T = .ok (a, T') ∧ Q a T'

section
variable {Q : α → Table → Prop} {P : α → Prop}

theorem wp_bind {x : Typing β} {f : β → Typing α} :
    Wp (x >>= f) Q T ↔ Wp x (fun a T' => Wp (f a) Q T') T := by
  constructor
  · rintro ⟨a, T', h, hq⟩
    obtain ⟨⟨b, T1⟩, hx, hf⟩ : ∃ y, x T = .ok y ∧ f y.1 y.2 = .ok (a, T') := by
      change (x T >>= fun y => f y.1 y.2) = _ at h
      cases hx : x T with
      | error e => rw [hx] at h; cases h
      | ok y => rw [hx] at h; exact ⟨y, rfl, h⟩
    exact ⟨b, T1, hx, a, T', hf, hq⟩
  · rintro ⟨b, T1, hx, a, T', hf, hq⟩
    refine ⟨a, T', ?_, hq⟩
    change (x T >>= fun y => f y.1 y.2) = _
    rw [hx]
    exact hf

theorem wp_pure {a : α} : Wp (pure a) Q T ↔ Q a T :=
  ⟨fun ⟨_, _, h, hq⟩ => by cases h; exact hq, fun h => ⟨a, T, rfl, h⟩⟩

theorem wp_get {Q : Table → Table → Prop} : Wp get Q T ↔ Q T T :=
  ⟨fun ⟨_, _, h, hq⟩ => by cases h; exact hq, fun h => ⟨T, T, rfl, h⟩⟩

theorem wp_set {Q : PUnit → Table → Prop} : Wp (set T') Q T ↔ Q ⟨⟩ T' :=
  ⟨fun ⟨_, _, h, hq⟩ => by cases h; exact hq, fun h => ⟨⟨⟩, T', rfl, h⟩⟩

theorem wp_lift {x : Except Fault α} : Wp (x : Typing α) Q T ↔ ∃ a, x = .ok a ∧ Q a T := by
  cases x with
  | error e =>
    constructor
    · rintro ⟨a, T', h, -⟩; cases h
    · rintro ⟨a, h, -⟩; cases h
  | ok a =>
    constructor
    · rintro ⟨b, T', h, hq⟩; cases h; exact ⟨a, rfl, hq⟩
    · rintro ⟨b, h, hq⟩; cases h; exact ⟨a, T, rfl, hq⟩

theorem wp_query {f : Table → Except Fault α} : Wp (query f) Q T ↔ ∃ a, f T = .ok a ∧ Q a T := by
  rw [query, wp_bind, wp_get, wp_lift]

theorem Sound.query {f : Table → Except Fault (Checked α)} {Q : Checked α → Table → Prop} (h : Sound P (f T))
    (hq : ∀ c, f T = .ok c → Q c T) : Wp (query f) Q T := by
  obtain ⟨c, hc, -⟩ := h
  exact wp_query.2 ⟨c, hc, hq c hc⟩

theorem Sound.holds {x : Except Fault (Checked α)} {c : Checked α} (h : Sound P x) (hc : x = .ok c) : c.Holds P := by
  obtain ⟨d, hd, hh⟩ := h
  cases hc.symm.trans hd
  exact hh

theorem Wp.weaken {x : Typing α} {Q' : α → Table → Prop} (h : Wp x Q T) (hq : ∀ a T', Q a T' → Q' a T') :
    Wp x Q' T := by
  obtain ⟨a, T', hx, hqa⟩ := h
  exact ⟨a, T', hx, hq a T' hqa⟩

end

/-! ## Tables that are ready -/

structure Open (T : Table) (n : Nat) : Prop where
  wf : T.Wf
  laid : T.Laid
  room : T.cost + n < 2 ^ 32

structure Ready (T : Table) (sc : ScopeId) (n : Nat) : Prop extends Open T n where
  scope : ∃ s, T.scope? sc = some s ∧ s.kind ≠ .function

theorem Open.le {m n : Nat} (h : Open T n) (hm : m ≤ n) : Open T m :=
  ⟨h.wf, h.laid, by have := h.room; omega⟩

theorem Open.after {m n : Nat} (h : Open T (m + n)) (he : T.Extends m T') : Open T' n :=
  ⟨he.wf, he.laid, by have := he.cost; have := h.room; omega⟩

theorem Ready.le {m n : Nat} (h : Ready T sc n) (hm : m ≤ n) : Ready T sc m := ⟨h.toOpen.le hm, h.scope⟩

theorem Ready.after {m n : Nat} (h : Ready T sc (m + n)) (he : T.Extends m T') : Ready T' sc n := by
  obtain ⟨s, hs, hk⟩ := h.scope
  obtain ⟨s', hs', hk', -⟩ := he.grows.scopes sc s hs
  exact ⟨h.toOpen.after he, s', hs', hk' ▸ hk⟩

theorem Ready.encloses {n : Nat} (h : Ready T sc n) : T.Encloses sc sc := by
  obtain ⟨s, hs, -⟩ := h.scope
  exact .here hs

/-- A block is opened in a scope of any kind, and it is ready for what it holds. -/
theorem Open.newBlock {n : Nat} {s : Scope} {i : ScopeId} (h : Open T (1 + n)) (hs : T.scope? sc = some s)
    (hb : T.newBlock sc span = (i, T')) : T.Extends 1 T' ∧ T'.IsBlock sc i ∧ Ready T' i n := by
  have hnew := Table.newBlock_extends span h.wf h.laid (by have := h.room; omega) hs
  rw [hb] at hnew
  obtain ⟨s', hs', hk, -⟩ := hnew.2
  exact ⟨hnew.1, hnew.2, h.after hnew.1, s', hs', by rw [hk]; decide⟩

/-! ## Walks -/

def wordStat (T : Table) (site : Site) (k : NodeKind) (c : Checked Expr) : Checked Stat :=
  match k with
  | .free => free site c
  | .return => ret T site c
  | .exit => (expectType .int .exitCode c).map (.exit site)
  | .print => c.map (.print site · false)
  | _ => c.map (.print site · true)

/-- What typing walks over, with what it finds there. -/
inductive Walk
  | stat (n : Tree) (c : Checked Stat)
  | stats (ns : List Tree) (cs : List (Checked Stat))
  | block (n : Tree) (c : Checked Block)

def Walk.weight : Walk → Nat
  | stat n _ => n.weight
  | stats ns _ => Tree.weights ns
  | block n _ => 1 + n.weight

/-- In a scope, typing walks from one table to another. -/
inductive Walks : ScopeId → Walk → Table → Table → Prop
  | skip {sc T text span} : Ready T sc 0 →
    Walks sc (.stat (.node .skip text span []) (.ok (.skip ⟨span, sc⟩))) T T
  | declare {sc T T' text span t name v written c d} : Ready T sc 4 → t.IsType → v.IsValue → type t = .ok written →
      value T sc v = .ok c → declare ⟨span, sc⟩ written name c T = .ok (d, T') → name.IsIdent →
    Walks sc (.stat (.node .declare text span [t, name, v]) d) T T'
  | assign {sc T text span l v c d} : Ready T sc 0 → l.IsTarget → v.IsValue → target T sc l = .ok c →
      value T sc v = .ok d → Walks sc (.stat (.node .assign text span [l, v]) (assign ⟨span, sc⟩ c d)) T T
  | read {sc T text span l c} :
      Ready T sc 0 → l.IsTarget → target T sc l = .ok c →
    Walks sc (.stat (.node .read text span [l]) (read ⟨span, sc⟩ c)) T T
  | word {sc T k text span e c} :
      Ready T sc 0 → Tree.isWord k = true → e.IsExpr → expr T sc e = .ok c →
    Walks sc (.stat (.node k text span [e]) (wordStat T ⟨span, sc⟩ k c)) T T
  | ifThen {sc T T' text span e a c x} : Ready T sc 0 → e.IsExpr → expr T sc e = .ok c → Walks sc (.block a x) T T' →
    Walks sc (.stat (.node .if text span [e, a])
      (Checked.map2 (.ifThen ⟨span, sc⟩) (expectType .bool .condition c) x)) T T'
  | ifElse {sc T T1 T' text span e a b c x y} : Ready T sc 0 → e.IsExpr → expr T sc e = .ok c → Walks sc (.block a x) T T1 →
      Walks sc (.block b y) T1 T' →
    Walks sc (.stat (.node .if text span [e, a, b])
      (Checked.map3 (.ifElse ⟨span, sc⟩) (expectType .bool .condition c) x y)) T T'
  | while {sc T T' text span e b c x} : Ready T sc 0 → e.IsExpr → expr T sc e = .ok c → Walks sc (.block b x) T T' →
    Walks sc (.stat (.node .while text span [e, b])
      (Checked.map2 (.while ⟨span, sc⟩) (expectType .bool .condition c) x)) T T'
  | for {sc i T T0 T1 T2 T' text span init e step b c x y z} : Ready T sc 1 → e.IsExpr →
      T.newBlock sc span = (i, T0) → Walks i (.stat init x) T0 T1 → expr T1 i e = .ok c →
      Walks i (.stat step y) T1 T2 → Walks i (.block b z) T2 T' →
    Walks sc (.stat (.node .for text span [init, e, step, b])
      (Checked.map2 (fun (f : Block → Stat) b => f b)
        (Checked.map3 (Stat.for ⟨span, sc⟩ i) x (expectType .bool .condition c) y) z)) T T'
  | scope {sc T T' text span b x} :
      Walks sc (.block b x) T T' → Walks sc (.stat (.node .block text span [b]) (x.map .block)) T T'
  | seq {sc T T' text span ns cs} :
      Walks sc (.stats ns cs) T T' →
    Walks sc (.stat (.node .seq text span ns) (((Checked.all cs).map (.sequence ⟨span, sc⟩)).check
      (unreachable? (T.enclosingFunc sc != 0) ns).toList)) T T'
  | nil {sc : ScopeId} {T : Table} : Ready T sc 0 → Walks sc (.stats [] []) T T
  | cons {sc T T1 T' n ns c cs} : Walks sc (.stat n c) T T1 → Walks sc (.stats ns cs) T1 T' →
    Walks sc (.stats (n :: ns) (c :: cs)) T T'
  | block {sc i s T T0 T' n c} : Open T 1 → T.scope? sc = some s →
      T.newBlock sc n.span = (i, T0) → Walks i (.stat n c) T0 T' →
    Walks sc (.block n (c.map (.mk ⟨n.span, sc⟩ i))) T T'

theorem size_refine (d a : Ty) : (d.refine a).size = d.size := by
  unfold Ty.refine
  split <;> rfl

/-- A variable is declared with a type of the size that is written, and a statement is found only if its name
    is new and its value fits. -/
theorem declare_ok {written : Ty} {name : Tree} {v : Checked Value} {c : Checked Stat}
    (h : declare site written name v T = .ok (c, T')) :
    ∃ type d, type.size = written.size ∧ T.declare site.scope name.text type name.span = .ok (d, T') ∧
      c.Holds fun s => ∃ u, v = .ok u ∧ s = .declare site d.id name.text type u ∧ d.fresh = true ∧
        type.accepts u.type = true := by
  have hwp : Wp (declare site written name v) (fun a U => a = c ∧ U = T') T := ⟨c, T', h, rfl, rfl⟩
  simp only [declare, wp_bind, wp_get, wp_lift, wp_set, wp_pure] at hwp
  obtain ⟨⟨d, U⟩, hd, rfl, rfl⟩ := hwp
  refine ⟨_, d, ?_, hd, ?_⟩
  · cases v with
    | ok v => exact size_refine written v.type
    | bad => rfl
  · cases v with
    | bad => exact Checked.Holds.check Checked.holds_bad
    | ok v =>
      simp only [Checked.map]
      split_ifs with hf ha
      · exact Checked.holds_ok ⟨v, rfl, rfl, hf, ha⟩
      all_goals exact Checked.holds_bad

theorem Ready.declare {name : Text} {type : Ty} {d : Table.Declared} (h : Ready T sc 4)
    (hd : T.declare sc name type span = .ok (d, T')) :
    T.Extends 4 T' ∧ (d.fresh = true → ∃ v, T'.var? d.id = some v ∧ v.scope = sc ∧ v.type = type) := by
  obtain ⟨s, hs, hk⟩ := h.scope
  obtain ⟨d', U, hd', he, hfresh⟩ := Table.declare_extends name type span h.wf h.laid hs hk h.room
  cases hd.symm.trans hd'
  exact ⟨he, hfresh⟩

theorem Walks.extends {w : Walk} (h : Walks sc w T T') : T.Extends w.weight T' := by
  induction h with
  | skip hr | nil hr => exact .refl hr.wf hr.laid _
  | assign hr | read hr | word hr => exact .refl hr.wf hr.laid _
  | @declare _ _ _ _ _ _ _ _ _ _ _ hr ht _ _ _ hd =>
    obtain ⟨_, _, -, hd, -⟩ := declare_ok hd
    refine (hr.declare hd).1.weaken ?_
    have := ht.weight_ge
    simp only [Walk.weight, Tree.weight_steps, NodeKind.weight]
    omega
  | ifThen _ _ _ _ ih | «while» _ _ _ _ ih | scope _ ih =>
    refine ih.weaken ?_
    simp only [Walk.weight, Tree.weight_steps, NodeKind.weight]
    omega
  | ifElse _ _ _ _ _ iha ihb =>
    refine (iha.trans ihb).weaken ?_
    simp only [Walk.weight, Tree.weight_steps, NodeKind.weight]
    omega
  | «for» hr _ hb _ _ _ _ ihi ihs ihb =>
    obtain ⟨s, hs, -⟩ := hr.scope
    refine ((hr.toOpen.newBlock (n := 0) hs hb).1.trans <| ihi.trans <| ihs.trans ihb).weaken ?_
    simp only [Walk.weight, Tree.weight_steps, NodeKind.weight]
    omega
  | seq _ ih =>
    refine ih.weaken ?_
    simp only [Walk.weight, Tree.weight_node]
    omega
  | cons _ _ ih ihs => exact (ih.trans ihs).weaken (Tree.weights_cons ..).ge
  | block ho hs hb _ ih => exact (ho.newBlock (n := 0) hs hb).1.trans ih

/-! ## Typing walks -/

def StatWalks (n : Tree) : Prop :=
  ∀ T sc, Ready T sc n.weight → Wp (stat sc n) (fun c T' => Walks sc (.stat n c) T T') T

section
variable {n : Tree} {Q : Checked Stat → Table → Prop}

theorem StatWalks.call (hn : StatWalks n) (h : Ready T sc n.weight)
    (hq : ∀ c T', Walks sc (.stat n c) T T' → T.Extends n.weight T' → Q c T') : Wp (stat sc n) Q T :=
  (hn T sc h).weaken fun c T' hw => hq c T' hw hw.extends

theorem inBlock_walks {s : Scope} {Q : Checked Block → Table → Prop} (hn : StatWalks n)
    (h : Open T (1 + n.weight)) (hs : T.scope? sc = some s)
    (hq : ∀ c T', Walks sc (.block n c) T T' → T.Extends (1 + n.weight) T' → Q c T') :
    Wp (inBlock sc n.span fun i => stat i n) Q T := by
  simp only [inBlock, wp_bind, wp_get, wp_set, wp_pure]
  refine (hn _ _ (h.newBlock hs rfl).2.2).weaken fun c T' hw => ?_
  have hblock := Walks.block (h.le (Nat.le_add_right 1 _)) hs rfl hw
  exact hq _ T' hblock hblock.extends

theorem StatWalks.block {Q : Checked Block → Table → Prop} (hn : StatWalks n) (h : Ready T sc (1 + n.weight))
    (hq : ∀ c T', Walks sc (.block n c) T T' → T.Extends (1 + n.weight) T' → Q c T') :
    Wp (inBlock sc n.span fun i => stat i n) Q T := by
  obtain ⟨s, hs, -⟩ := h.scope
  exact inBlock_walks hn h.toOpen hs hq

end

theorem stats_walks (hns : ∀ n ∈ ns, StatWalks n) (h : Ready T sc (Tree.weights ns)) :
    Wp (stats sc ns) (fun cs T' => Walks sc (.stats ns cs) T T') T := by
  induction ns generalizing T with
  | nil =>
    simp only [stats, wp_pure]
    exact .nil (h.le (Nat.zero_le _))
  | cons n ns ih =>
    obtain ⟨hn, hns⟩ := List.forall_mem_cons.1 hns
    rw [Tree.weights_cons] at h
    simp only [stats, wp_bind, wp_pure]
    refine hn.call (h.le (by omega)) fun c T1 hc he => ?_
    exact (ih hns (h.after he)).weaken fun cs T2 hcs => .cons hc hcs

/-- **A tree with the shape of a statement is typed without a fault.** -/
theorem stat_walks {n : Tree} (hn : n.IsStat) : StatWalks n := by
  induction hn with
  | skip =>
    intro T sc h
    simp only [stat, wp_pure]
    exact .skip (h.le (Nat.zero_le _))
  | @declare text span t name v ht hname hv =>
    intro T sc h
    obtain ⟨written, hty⟩ := type_ok ht
    have h3 := ht.weight_ge
    simp only [Tree.weight_steps, NodeKind.weight] at h
    have h4 : Ready T sc 4 := h.le (by omega)
    obtain ⟨s, hs, hk⟩ := h.scope
    simp only [stat, wp_bind, wp_lift]
    refine ⟨written, hty, (value_sound h.wf h.laid hv).query fun c hc => ?_⟩
    have hd : Wp (declare ⟨span, sc⟩ written name c) (fun _ _ => True) T := by
      simp only [declare, wp_bind, wp_get, wp_lift, wp_set, wp_pure]
      obtain ⟨d, T', hd, -⟩ := Table.declare_extends name.text _ name.span h.wf h.laid hs hk h4.room
      exact ⟨(d, T'), hd, trivial⟩
    obtain ⟨d, T', hd, -⟩ := hd
    exact ⟨d, T', hd, .declare h4 ht hv hty hc hd hname⟩
  | @assign text span l v hl hv =>
    intro T sc h
    simp only [stat, wp_bind, wp_pure]
    refine Sound.query (target_sound h.wf hl) fun c hc => ?_
    exact Sound.query (value_sound h.wf h.laid hv) fun d hd => .assign (h.le (Nat.zero_le _)) hl hv hc hd
  | read hl =>
    intro T sc h
    simp only [stat, wp_bind, wp_pure]
    exact Sound.query (target_sound h.wf hl) fun c hc => .read (h.le (Nat.zero_le _)) hl hc
  | @word k text span e hk he =>
    intro T sc h
    have hx : Sound (IsExpr T sc e) (expr T sc e) := expr_sound h.wf he
    have hword {c} (hc : expr T sc e = .ok c) := @Walks.word sc T k text span e c (h.le (Nat.zero_le _)) hk he hc
    cases k <;> simp only [Tree.isWord, Bool.false_eq_true] at hk <;>
      simp only [stat, wp_bind, wp_get, wp_pure] <;> exact hx.query fun c hc => hword hc
  | @ifThen text span c a hc _ iha =>
    intro T sc h
    simp only [Tree.weight_steps, NodeKind.weight] at h
    simp only [stat, wp_bind, wp_pure]
    refine Sound.query (expr_sound h.wf hc) fun x hx => ?_
    exact iha.block (h.le (by omega)) fun y T1 hy _ => .ifThen (h.le (Nat.zero_le _)) hc hx hy
  | @ifElse text span c a b hc _ _ iha ihb =>
    intro T sc h
    simp only [Tree.weight_steps, NodeKind.weight] at h
    simp only [stat, wp_bind, wp_pure]
    refine Sound.query (expr_sound h.wf hc) fun x hx => ?_
    refine iha.block (h.le (by omega)) fun y T1 hy he => ?_
    refine ihb.block ((h.le (by omega)).after he) fun z T2 hz _ => ?_
    exact .ifElse (h.le (Nat.zero_le _)) hc hx hy hz
  | @«while» text span c b hc _ ihb =>
    intro T sc h
    simp only [Tree.weight_steps, NodeKind.weight] at h
    simp only [stat, wp_bind, wp_pure]
    refine Sound.query (expr_sound h.wf hc) fun x hx => ?_
    exact ihb.block (h.le (by omega)) fun y T1 hy _ => .while (h.le (Nat.zero_le _)) hc hx hy
  | @«for» text span init c step b _ hc _ _ ihi ihs ihb =>
    intro T sc h
    simp only [Tree.weight_steps, NodeKind.weight] at h
    have h0 : Ready T sc (1 + (init.weight + (step.weight + (1 + b.weight)))) := h.le (by omega)
    obtain ⟨s, hs, -⟩ := h0.scope
    obtain ⟨-, -, hr0⟩ := h0.toOpen.newBlock hs (show T.newBlock sc span = _ from rfl)
    simp only [stat, wp_bind, wp_get, wp_set, wp_pure]
    refine ihi.call (hr0.le (by omega)) fun i T1 hi he1 => ?_
    have hr1 := hr0.after he1
    refine Sound.query (expr_sound hr1.wf hc) fun x hx => ?_
    refine ihs.call (hr1.le (by omega)) fun s T2 hs he2 => ?_
    exact ihb.block (hr1.after he2) fun y T3 hy _ => .for (h.le (by omega)) hc rfl hi hx hs hy
  | @block text span b _ ih =>
    intro T sc h
    simp only [Tree.weight_steps, NodeKind.weight] at h
    simp only [stat, wp_bind, wp_pure]
    exact ih.block (h.le (by omega)) fun y T1 hy _ => .scope hy
  | @seq text span ns _ ih =>
    intro T sc h
    simp only [Tree.weight_node, NodeKind.weight] at h
    simp only [stat, wp_bind, wp_get, wp_pure]
    exact (stats_walks ih (h.le (by omega))).weaken fun cs T' hcs => .seq hcs

/-! ## What is found is well-typed -/

theorem sequence_typed (h : ∀ s ∈ ss, s.Typed T sc) : (Stat.sequence site ss).Typed T sc := by
  refine .seq fun s hs => ?_
  obtain ⟨r, hr, hs⟩ := List.mem_flatMap.1 hs
  cases h r hr with
  | seq hrs => exact hrs s hs
  | _ => obtain rfl := List.mem_singleton.1 hs; exact h _ hr

theorem sizes_append (ss rs : List Stat) : Stat.sizes (ss ++ rs) = Stat.sizes ss + Stat.sizes rs := by
  induction ss with
  | nil => simp [Stat.sizes]
  | cons s ss ih => simp only [List.cons_append, Stat.sizes, ih]; omega

theorem sequence_size (ss : List Stat) : (Stat.sequence site ss).size = Stat.sizes ss := by
  have hflat : ∀ s : Stat, Stat.sizes s.flatten = s.size := fun s => by
    cases s <;> simp [Stat.flatten, Stat.sizes, Stat.size]
  rw [Stat.sequence, Stat.size]
  induction ss with
  | nil => simp [Stat.sizes]
  | cons s ss ih => rw [List.flatMap_cons, sizes_append, hflat, ih, Stat.sizes]

theorem stat_sizes (h : List.Forall₂ (fun n (s : Stat) => s.Typed T sc ∧ s.size ≤ n.weight) ns ss) :
    Stat.sizes ss ≤ Tree.weights ns ∧ ∀ s ∈ ss, s.Typed T sc := by
  induction h with
  | nil => simp [Stat.sizes]
  | cons h _ ih =>
    obtain ⟨hle, ht⟩ := ih
    exact ⟨by rw [Stat.sizes, Tree.weights_cons]; omega, List.forall_mem_cons.2 ⟨h.1, ht⟩⟩

theorem condition_holds {P : Expr → Prop} (h : c.Holds P) :
    (expectType .bool .condition c).Holds fun e => P e ∧ e.type = .bool :=
  (expectType_holds h).weaken fun _ he => ⟨he.1, accepts_bool he.2⟩

def Walk.Typed (T : Table) (sc : ScopeId) : Walk → Prop
  | stat n c => c.Holds fun s => s.Typed T sc ∧ s.size ≤ n.weight
  | stats ns cs => List.Forall₂ (fun n c => c.Holds fun s : Stat => s.Typed T sc ∧ s.size ≤ n.weight) ns cs
  | block n c => c.Holds fun b => ∃ site i s, b = .mk site i s ∧ T.IsBlock sc i ∧ s.Typed T i ∧ s.size ≤ n.weight

theorem wordStat_typed {k : NodeKind} {n : Tree} (hk : Tree.isWord k = true) (hw : T.Wf) (hsc : site.scope = sc)
    (hc : c.Holds (IsExpr T sc n)) :
    (wordStat T site k c).Holds fun s => s.Typed T sc ∧ s.size ≤ k.weight + (n.weight + 0) := by
  subst hsc
  cases k <;> simp only [Tree.isWord, Bool.false_eq_true] at hk
  case free =>
    refine hc.bind fun e he => ?_
    split_ifs with hf
    · exact Checked.holds_ok ⟨.free he.1 hf, by simp only [Stat.size, NodeKind.weight]; have := he.2; omega⟩
    · exact Checked.holds_fails
  case «return» =>
    unfold wordStat ret
    split_ifs with hf
    · exact Checked.holds_refuse
    · refine hc.map fun e he => ⟨.ret rfl he.1 (Table.enclosingFunc_encloses hw hf), ?_⟩
      simp only [Stat.size, NodeKind.weight]; have := he.2; omega
  case exit =>
    refine (expectType_holds hc).map fun e he => ⟨.exit he.1.1 (accepts_int he.2), ?_⟩
    simp only [Stat.size, NodeKind.weight]; have := he.1.2; omega
  all_goals
    refine hc.map fun e he => ⟨.print he.1, ?_⟩
    simp only [Stat.size, NodeKind.weight]; have := he.2; omega

/-- **What is typed as a statement is well-typed.** -/
theorem Walks.typed {w : Walk} (h : Walks sc w T T') : w.Typed T' sc := by
  have hw := h.extends
  induction h with
  | skip => exact Checked.holds_ok ⟨.skip, by simp [Stat.size, NodeKind.weight]⟩
  | declare hr ht hv _ hc hd =>
    obtain ⟨type, d, -, hd, hs⟩ := declare_ok hd
    obtain ⟨he, hfresh⟩ := hr.declare hd
    refine hs.weaken ?_
    rintro _ ⟨u, rfl, rfl, hf, ha⟩
    obtain ⟨x, hx, hsc, rfl⟩ := hfresh hf
    obtain ⟨hu, hsize, -⟩ := (value_sound hr.wf hr.laid hv).holds hc u rfl
    refine ⟨.declare hx hsc (hr.encloses.mono he.grows) (hu.mono he.grows he.funcs) ha, ?_⟩
    simp only [Stat.size, Tree.weight_steps, NodeKind.weight]
    omega
  | assign hr hl hv hc hd =>
    refine ((target_sound hr.wf hl).holds hc).bind2 ((value_sound hr.wf hr.laid hv).holds hd) ?_
    rintro x y ⟨hx, hm, -⟩ ⟨hy, hn, -⟩
    split_ifs with ha
    · refine Checked.holds_ok ⟨.assign hx hy ha, ?_⟩
      simp only [Stat.size, Tree.weight_steps, NodeKind.weight]
      omega
    · exact Checked.holds_fails
  | read hr hl hc =>
    refine ((target_sound hr.wf hl).holds hc).bind ?_
    rintro x ⟨hx, hm, -⟩
    split_ifs with ha
    · refine Checked.holds_ok ⟨.read hx ha, ?_⟩
      simp only [Stat.size, Tree.weight_steps, NodeKind.weight]
      omega
    · exact Checked.holds_fails
  | word hr hk he hc =>
    simpa only [Walk.Typed, Tree.weight_steps] using
      wordStat_typed hk hr.wf rfl ((expr_sound hr.wf he).holds hc)
  | ifThen hr hc hx hy ih =>
    refine (condition_holds ((expr_sound hr.wf hc).holds hx)).map2 (ih hy.extends) ?_
    rintro e _ ⟨⟨he, hm, -⟩, hbool⟩ ⟨site, i, s, rfl, hb, hs, hn⟩
    refine ⟨.ifThen (he.mono hw.grows) hbool hb hs, ?_⟩
    simp only [Stat.size, Block.size, Tree.weight_steps, NodeKind.weight]
    omega
  | ifElse hr hc hx hy hz iha ihb =>
    have he2 := hz.extends
    refine (condition_holds ((expr_sound hr.wf hc).holds hx)).map3 (iha hy.extends) (ihb he2) ?_
    rintro e _ _ ⟨⟨he, hm, -⟩, hbool⟩ ⟨site, i, s, rfl, hb, hs, hn⟩ ⟨site', j, r, rfl, hb', hr, hn'⟩
    refine ⟨.ifElse (he.mono hw.grows) hbool (hb.mono he2.grows) (hs.mono he2.grows he2.funcs) hb' hr, ?_⟩
    simp only [Stat.size, Block.size, Tree.weight_steps, NodeKind.weight]
    omega
  | «while» hr hc hx hy ih =>
    refine (condition_holds ((expr_sound hr.wf hc).holds hx)).map2 (ih hy.extends) ?_
    rintro e _ ⟨⟨he, hm, -⟩, hbool⟩ ⟨site, i, s, rfl, hb, hs, hn⟩
    refine ⟨.while (he.mono hw.grows) hbool hb hs, ?_⟩
    simp only [Stat.size, Block.size, Tree.weight_steps, NodeKind.weight]
    omega
  | «for» hr hc hb0 hi hx hs hy ihi ihs ihb =>
    have he1 := hi.extends
    have he2 := hs.extends
    have he3 := hy.extends
    have hg1 := he2.grows.trans he3.grows
    have hf1 := he3.funcs.trans he2.funcs
    obtain ⟨s, hs0, -⟩ := hr.scope
    have hblock := (hr.toOpen.newBlock (n := 0) hs0 hb0).2.1
    refine (ihi he1).map4 (condition_holds ((expr_sound he1.wf hc).holds hx)) (ihs he2) (ihb he3) ?_
    rintro p e q _ ⟨hp, hm⟩ ⟨⟨he, hn, -⟩, hbool⟩ ⟨hq, hk⟩ ⟨site, j, r, rfl, hj, hr, hl⟩
    refine ⟨.for (hblock.mono (he1.grows.trans hg1)) (hp.mono hg1 hf1) (he.mono hg1) hbool
      (hq.mono he3.grows he3.funcs) hj hr, ?_⟩
    simp only [Stat.size, Block.size, Tree.weight_steps, NodeKind.weight]
    omega
  | scope hy ih =>
    refine (ih hy.extends).map ?_
    rintro _ ⟨site, i, s, rfl, hb, hs, hn⟩
    refine ⟨.block hb hs, ?_⟩
    simp only [Stat.size, Block.size, Tree.weight_steps, NodeKind.weight]
    omega
  | seq hcs ih =>
    refine Checked.Holds.check (Checked.holds_all.map fun ss hss => ?_)
    obtain ⟨hsize, htyped⟩ := stat_sizes (forall₂_values (ih hcs.extends) hss)
    refine ⟨sequence_typed htyped, ?_⟩
    rw [sequence_size, Tree.weight_node]
    omega
  | nil => exact .nil
  | cons hc hcs ih ihs =>
    have he := hcs.extends
    exact .cons ((ih hc.extends).weaken fun s hs => ⟨hs.1.mono he.grows he.funcs, hs.2⟩) (ihs he)
  | block ho hs hb hc ih =>
    have hblock := (ho.newBlock (n := 0) hs hb).2.1
    refine (ih hc.extends).map ?_
    rintro s ⟨hs, hsize⟩
    exact ⟨_, _, s, rfl, hblock.mono hc.extends.grows, hs, hsize⟩

end Wacc.Typing
