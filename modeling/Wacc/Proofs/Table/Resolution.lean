/-
  Scope resolution.

  A name is looked up along the chain of a scope: the scope itself and the blocks around it, up to the
  scope of the function or the global scope.
-/
import Wacc.Proofs.Table.Chain
import Wacc.Proofs.Table.Plan

namespace Wacc.Table

variable {T T' : Table} {sc : ScopeId} {s : Scope} {x : VarId} {log : List Entry}

def Declares (T : Table) (o : ScopeId) (n : Text) (x : VarId) : Prop :=
  ∃ v, T.var? x = some v ∧ v.scope = o ∧ v.name = n

def Op.place (T : Table) : Op → Option ScopeId
  | .block parent _ => some parent
  | .var scope _ _ _ => some scope
  | .func _ _ _ => some global
  | .param f _ _ _ => (T.func? f).map (·.scope)

/-! ## Reached tables -/

theorem Rooted.nested (h : T.Rooted) : T.Nested := by
  intro id s hs
  by_cases hid : id = global
  · obtain ⟨r, hr, hk, hp⟩ := h.root
    cases hr.symm.trans (hid ▸ hs)
    exact .inl ⟨hk, hp⟩
  · obtain ⟨hk | hk, hlt, p, hp, -⟩ := h.parent id s hs hid
    · exact .inr (.inr ⟨hk, hlt, p, hp⟩)
    · exact .inr (.inl hk)

def Owned (T : Table) : Prop := ∀ o s, T.scope? o = some s → s.kind = .function → s.func ≠ 0

def Keeps (T T' : Table) : Prop :=
  ∀ o s, T.scope? o = some s → ∃ s', T'.scope? o = some s' ∧ s'.kind = s.kind ∧ s'.parent = s.parent

theorem Opens.keeps {new : Scope} {id : ScopeId} (h : Opens T new id T')
    (hnew : new.kind = .function → new.func ≠ 0) :
    T.Keeps T' ∧ (T.Listed → T'.Listed) ∧ (T.Owned → T'.Owned) := by
  refine ⟨fun _ _ hs => ⟨_, h.old hs, rfl, rfl⟩, h.listed, fun hown o s' hs hk => ?_⟩
  rcases h.cases hs with ⟨-, rfl⟩ | ⟨s, hold, rfl⟩
  · exact hnew hk
  · exact hown o s hold hk

theorem Adds.keepsAll {v : Variable} (h : Adds T s x v T') :
    T.Keeps T' ∧ (T.Listed → T'.Listed) ∧ (T.Owned → T'.Owned) := by
  refine ⟨fun _ _ hs => ⟨_, h.keeps hs, by split_ifs <;> rfl, by split_ifs <;> rfl⟩, h.listed,
    fun hown o s' hs hk => ?_⟩
  rcases h.cases hs with ⟨-, rfl⟩ | ⟨-, hs⟩
  · exact hown _ s h.before hk
  · exact hown o s' hs hk

theorem Effect.keeps {op : Op} {id : UInt32} (he : Effect T id T' op) :
    T.Keeps T' ∧ (T.Listed → T'.Listed) ∧ (T.Owned → T'.Owned) := by
  cases op with
  | block => exact he.1.keeps nofun
  | var =>
    obtain ⟨s, v, ha, -⟩ := he
    exact ha.keepsAll
  | func =>
    obtain ⟨scope, hid, -, ho, -⟩ := he
    refine ho.keeps fun _ h0 => ?_
    rw [show id = 0 from h0] at hid
    exact absurd hid (by simp)
  | param =>
    obtain ⟨g, s, v, -, ha, -⟩ := he
    exact ha.keepsAll

theorem Reached.listed (h : Reached log T) : T.Listed ∧ T.Owned := by
  induction h with
  | empty =>
    refine ⟨empty_listed, fun o s hs hk => ?_⟩
    rw [(empty_scope? hs).2] at hk
    cases hk
  | step op before done small ih =>
    have hc := before.sound.1
    obtain ⟨r, hroot, -⟩ := hc.rooted.root
    rcases apply_cases ⟨r, hroot⟩ hc.few done with ⟨-, -, he⟩ | ⟨-, rfl, -⟩
    · obtain ⟨-, hlisted, howned⟩ := (he small.scopes small.vars).keeps
      exact ⟨hlisted ih.1, howned ih.2⟩
    · exact ih

/-! ## Chains -/

/-- What the chain of a scope looks like: blocks, each in the next one, and a function or the global
    scope at the end. -/
theorem frameChain_shape (hn : T.Nested) (hs : T.scope? sc = some s) :
    (T.frameChain sc).head? = some sc ∧ (T.frameChain sc).Pairwise (fun o p => p.toNat < o.toNat) ∧
      (T.frameChain sc).IsChain (fun o p => ∃ b, T.scope? o = some b ∧ b.parent = p) ∧
      ∃ inner o t, T.frameChain sc = inner ++ [o] ∧ T.scope? o = some t ∧
        (t.kind = .function ∨ t.kind = .global) ∧ ∀ i ∈ inner, ∃ b, T.scope? i = some b ∧ b.kind = .block := by
  obtain ⟨n, hsc⟩ : ∃ n, sc.toNat = n := ⟨_, rfl⟩
  induction n using Nat.strong_induction_on generalizing sc s with
  | _ n ih =>
    rw [frameChain_cons hn hs]
    cases hf : isFrame s with
    | true =>
      refine ⟨rfl, by simp, by simp, [], sc, s, rfl, hs, ?_, by simp⟩
      simpa [isFrame] using hf
    | false =>
      obtain ⟨hk, hlt, p, hp⟩ := isFrame_eq_false hn hs hf
      obtain ⟨hhead, hpair, hchain, inner, o, t, heq, ho, hend, hinner⟩ := ih _ (hsc ▸ hlt) hp rfl
      simp only [Bool.false_eq_true, if_false]
      have hbelow : ∀ q ∈ T.frameChain s.parent, q.toNat ≤ s.parent.toNat := by
        obtain ⟨rest, hrest⟩ := List.head?_eq_some_iff.1 hhead
        rw [hrest] at hpair ⊢
        intro q hq
        rcases List.mem_cons.1 hq with rfl | hq
        · exact le_rfl
        · exact ((List.pairwise_cons.1 hpair).1 q hq).le
      refine ⟨rfl, List.pairwise_cons.2 ⟨fun q hq => (hbelow q hq).trans_lt hlt, hpair⟩, ?_, sc :: inner, o, t,
        by rw [heq]; rfl, ho, hend, List.forall_mem_cons.2 ⟨⟨s, hs, hk⟩, hinner⟩⟩
      refine List.isChain_cons.2 ⟨fun q hq => ⟨s, hs, ?_⟩, hchain⟩
      exact Option.some.inj (hhead.symm.trans hq)

theorem findSome?_congr {α β : Type} {f g : α → Option β} {l : List α} (h : ∀ a ∈ l, f a = g a) :
    l.findSome? f = l.findSome? g := by
  induction l with
  | nil => rfl
  | cons a l ih =>
    obtain ⟨ha, hl⟩ := List.forall_mem_cons.1 h
    simp only [List.findSome?_cons, ha, ih hl]

theorem lookup_eq (hn : T.Nested) (n : Text) :
    T.lookup sc n = (T.frameChain sc).findSome? fun o => T.lookupLocal o n := by
  rw [lookup, visible_eq hn, frameChain_eq, List.findSome?_map]
  refine findSome?_congr ?_
  rintro ⟨o, s⟩ hmem
  simp [lookupLocal, scope?_of_mem_outwards hmem]

theorem lookupLocal_iff (hc : Consistent T) (hl : T.Listed) {o : ScopeId} {n : Text} :
    T.lookupLocal o n = some x ↔ T.Declares o n x := by
  constructor
  · intro h
    obtain ⟨s, hs, hlook⟩ := Option.bind_eq_some_iff.1 h
    obtain ⟨l, r, heq, -⟩ := List.lookup_eq_some_iff.1 hlook
    have hpack := hc.packed o s hs
    have hmem : (n, x) ∈ s.vars.map fun y => (T.nameOf y, y) := by rw [← hpack.names, heq]; simp
    obtain ⟨y, hy, he⟩ := List.mem_map.1 hmem
    cases he
    obtain ⟨v, hv, hscope⟩ := hpack.laid.exists_var hy
    exact ⟨v, hv, hscope, by simp [nameOf, hv]⟩
  · rintro ⟨v, hv, rfl, rfl⟩
    obtain ⟨s, hs, hmem⟩ := hl x v hv
    have hpack := hc.packed _ s hs
    have hkeys : (s.names.map (·.1)).Nodup := by
      have : s.names.map (·.1) = s.vars.map T.nameOf := by rw [hpack.names, List.map_map]; rfl
      rw [this]
      exact hpack.distinct
    simp only [lookupLocal, hs, Option.bind_eq_bind, Option.bind_some]
    obtain ⟨l, r, heq⟩ := List.append_of_mem hmem
    rw [heq, List.map_append, List.nodup_append] at hkeys
    refine List.lookup_eq_some_iff.2 ⟨l, r, heq, fun p hp => ?_⟩
    exact bne_iff_ne.2 fun he => hkeys.2.2 p.1 (List.mem_map_of_mem hp) v.name (by simp) he.symm

theorem lookup_iff (hc : Consistent T) (hl : T.Listed) {n : Text} :
    T.lookup sc n = some x ↔ ∃ near o far, T.frameChain sc = near ++ o :: far ∧ T.Declares o n x ∧
      ∀ q ∈ near, ∀ y, ¬ T.Declares q n y := by
  have hnone : ∀ q, T.lookupLocal q n = none ↔ ∀ y, ¬ T.Declares q n y := fun q => by
    simp only [← lookupLocal_iff hc hl, Option.eq_none_iff_forall_ne_some, ne_eq]
  rw [lookup_eq hc.rooted.nested, List.findSome?_eq_some_iff]
  simp only [lookupLocal_iff hc hl, hnone]

theorem global_mem_frameChain (hr : T.Rooted) (hown : T.Owned) (hs : T.scope? sc = some s) :
    global ∈ T.frameChain sc ↔ T.enclosingFunc sc = 0 := by
  have hfind : T.enclosingFunc sc = 0 ↔
      ∀ q ∈ T.frameChain sc, ∀ b, T.scope? q = some b → b.kind ≠ .function := by
    rw [frameChain_eq, enclosingFunc, visible_eq hr.nested]
    split
    · rename_i q b hq
      have hmem := List.mem_of_find?_eq_some hq
      have hb : b.kind = .function := by simpa using List.find?_some hq
      have hscope := scope?_of_mem_outwards hmem
      exact ⟨fun h0 => absurd h0 (hown q b hscope hb),
        fun h => absurd hb (h q (List.mem_map_of_mem hmem) b hscope)⟩
    · rename_i hq
      refine ⟨fun _ q hchain b hb => ?_, fun _ => rfl⟩
      obtain ⟨⟨q, b'⟩, hmem, rfl⟩ := List.mem_map.1 hchain
      cases (scope?_of_mem_outwards hmem).symm.trans hb
      simpa using List.find?_eq_none.1 hq _ hmem
  obtain ⟨-, -, -, inner, o, t, heq, ho, hend, hinner⟩ := frameChain_shape hr.nested hs
  obtain ⟨r, hroot, hrk, -⟩ := hr.root
  rw [hfind, heq]
  constructor
  · intro hg q hq b hb hk
    -- the global scope is no block, so it is the end of the chain
    have hlast : o = global := by
      rcases List.mem_append.1 hg with hg | hg
      · obtain ⟨b', hb', hblock⟩ := hinner _ hg
        rw [Option.some.inj (hb'.symm.trans hroot), hrk] at hblock
        cases hblock
      · exact (List.mem_singleton.1 hg).symm
    rcases List.mem_append.1 hq with hq | hq
    · obtain ⟨b', hb', hblock⟩ := hinner q hq
      rw [Option.some.inj (hb'.symm.trans hb), hk] at hblock
      cases hblock
    · rw [List.mem_singleton.1 hq, hlast] at hb
      rw [Option.some.inj (hb.symm.trans hroot), hrk] at hk
      cases hk
  · intro h
    rcases hend with hk | hk
    · exact absurd hk (h o (by simp) t ho)
    · have hlast : o = global := by
        by_contra hne
        obtain ⟨hk' | hk', -⟩ := hr.parent o t ho hne <;> rw [hk] at hk' <;> cases hk'
      simp [hlast]

/-! ## Operations -/

/-- An operation on a scope that is not on the chain changes the meaning of no name. -/
theorem lookup_of_apply (h : Reached log T) (hs : T.scope? sc = some s) {op : Op} {d : Declared}
    (hop : op.apply T = .ok (d, T')) (hsmall : T'.Small) (hplace : ∀ o, op.place T = some o → o ∉ T.frameChain sc)
    (n : Text) : T'.lookup sc n = T.lookup sc n := by
  have hc := h.sound.1
  have hc' := (h.step op hop hsmall).sound.1
  obtain ⟨r, hroot, -⟩ := hc.rooted.root
  rcases apply_cases ⟨r, hroot⟩ hc.few hop with ⟨-, -, he⟩ | ⟨-, rfl, -⟩
  · have heff := he hsmall.scopes hsmall.vars
    rw [lookup_eq hc'.rooted.nested, lookup_eq hc.rooted.nested,
      frameChain_grows hc.rooted.nested hc'.rooted.nested heff.keeps.1 hs]
    refine findSome?_congr fun o ho => ?_
    have hkey : op.key? T ≠ some (.var o n) := by
      intro hk
      cases op with
      | block | func => cases hk
      | var => cases hk; exact hplace _ rfl ho
      | param f =>
        obtain ⟨g, hg, he⟩ := Option.map_eq_some_iff.1 hk
        cases he
        exact hplace g.scope (by simp [Op.place, hg]) ho
    have hfind := heff.find? (.var o n)
    rwa [if_neg hkey] at hfind
  · rfl

/-- Scope resolution in every table that can be reached.  The paths outwards end: more steps than there are
    scopes find nothing more.  A name means the variable that is declared under it in the first scope on the
    chain that has one.  The chain leads from parent to parent, up to the nearest scope of a function or the
    global scope, which is on it exactly outside of functions; no scope is on it twice.  An operation on a
    scope that is not on the chain changes no meaning. -/
theorem Reached.resolution {log : List Entry} (h : Reached log T) {s : Scope} (hs : T.scope? sc = some s) :
    (∀ n, T.scopes.size ≤ n →
      T.outwards (·.kind == .function) n sc = T.visible sc ∧
      (T.outwards (fun t => t.kind == .function || t.kind == .global) n sc).map (·.1) = T.frameChain sc) ∧
    (∀ n x, T.lookup sc n = some x ↔ ∃ near o far, T.frameChain sc = near ++ o :: far ∧ T.Declares o n x ∧
      ∀ q ∈ near, ∀ y, ¬ T.Declares q n y) ∧
    ((T.frameChain sc).head? = some sc ∧
      (T.frameChain sc).IsChain (fun o p => ∃ b, T.scope? o = some b ∧ b.parent = p) ∧
      ∃ inner o t, T.frameChain sc = inner ++ [o] ∧ T.scope? o = some t ∧
        (t.kind = .function ∨ t.kind = .global) ∧ ∀ i ∈ inner, ∃ b, T.scope? i = some b ∧ b.kind = .block) ∧
    (global ∈ T.frameChain sc ↔ T.enclosingFunc sc = 0) ∧
    (T.frameChain sc).Nodup ∧
    ∀ (op : Op) (d : Declared) (T' : Table), op.apply T = .ok (d, T') → T'.Small →
      (∀ o, op.place T = some o → o ∉ T.frameChain sc) → ∀ n, T'.lookup sc n = T.lookup sc n := by
  have hc := h.sound.1
  obtain ⟨hlisted, howned⟩ := h.listed
  have hn := hc.rooted.nested
  obtain ⟨hhead, hpair, hchain, hend⟩ := frameChain_shape hn hs
  have hle := (numbered_lt hs).2
  refine ⟨fun n hn' => ⟨?_, ?_⟩, fun n x => lookup_iff hc hlisted, ⟨hhead, hchain, hend⟩,
    global_mem_frameChain hc.rooted howned hs, hpair.imp fun hlt he => ?_, fun op d T' hop hsmall hplace n =>
      lookup_of_apply h hs hop hsmall hplace n⟩
  · exact outwards_fuel hn (fun t ht => by simp [ht]) hle hn'
  · rw [frameChain_eq, show isFrame = fun t => t.kind == .function || t.kind == .global from rfl,
      outwards_fuel hn (fun t ht => by simp [ht]) hle hn']
  · rw [he] at hlt
    exact absurd hlt (lt_irrefl _)

/-- A variable of the main program, and a function with a parameter of the same name and a block. -/
def shadowing : List Entry :=
  [⟨.var 1 (lit "x") .bool {}, some (.var 1 (lit "x")), ⟨1, true⟩⟩,
   ⟨.func (lit "f") .int {}, some (.func (lit "f")), ⟨1, true⟩⟩,
   ⟨.param 1 (lit "x") .int {}, some (.var 2 (lit "x")), ⟨2, true⟩⟩,
   ⟨.block 2 {}, none, ⟨3, true⟩⟩]

theorem Reached.resolution_shadowing : ∃ T s, Reached shadowing T ∧ T.scope? 3 = some s ∧
    T.frameChain 3 = [3, 2] ∧ T.lookup 3 (lit "x") = some 2 ∧ T.lookup 1 (lit "x") = some 1 ∧
    (global ∈ T.frameChain 3 ↔ T.enclosingFunc 3 = 0) ∧
    ∀ d T', Op.apply T (.var 1 (lit "y") .int {}) = .ok (d, T') → T'.Small →
      T'.lookup 3 (lit "y") = T.lookup 3 (lit "y") := by
  have h₁ := Reached.step (.var 1 (lit "x") .bool {}) .empty rfl (.of_all (by decide) (by decide) (by decide))
  have h₂ := h₁.step (.func (lit "f") .int {}) rfl (.of_all (by decide) (by decide) (by decide))
  have h₃ := h₂.step (.param 1 (lit "x") .int {}) rfl (.of_all (by decide) (by decide) (by decide))
  have h₄ : Reached shadowing _ := h₃.step (.block 2 {}) rfl (.of_all (by decide) (by decide) (by decide))
  obtain ⟨-, -, -, hglobal, -, hframe⟩ := Reached.resolution h₄ (show Table.scope? _ 3 = some _ from rfl)
  refine ⟨_, _, h₄, rfl, by decide, by decide, by decide, hglobal, fun d T' hop hsmall => ?_⟩
  refine hframe _ d T' hop hsmall (fun o ho => ?_) _
  cases ho
  decide

end Wacc.Table
