/-
  Values that go through memory.

  A value is computed in a register, stored at an address or pushed, and loaded again.
-/
import Wacc.Proofs.Machine.Simulation
import Wacc.Proofs.Semantics.Kept

namespace Wacc

open Arm Reference

theorem Datum.Has.transfer {m m' : Mem} {floor limit : Nat} {t : Ty} {x : Datum} (h : x.Has m floor (2 ^ 32) t)
    (hmem : ∀ a : Word, a.toNat < floor → m' a = m a) : x.Has m' floor limit t := by
  induction h with
  | int hn => exact .int hn
  | bool => exact .bool
  | char hn => exact .char hn
  | string => exact .string
  | pair => exact .pair
  | anyPair => exact .anyPair
  | @array e t n a xs hp hlen hload hclear hs hxs ih =>
    have hmem' : ∀ b : Word, b.toNat < floor ∨ 2 ^ 32 ≤ b.toNat → m' b = m b := fun b hb =>
      hmem b (by have := b.isLt; omega)
    have hapart : a.toNat + (4 + xs.length * t.size.toNat) ≤ floor := by
      have := hclear.apart
      omega
    have hword : Mem.Clear floor (2 ^ 32) a Width.word.bytes :=
      ⟨by have := hclear.fits; simp only [Width.bytes]; omega, by simp only [Width.bytes]; omega⟩
    refine .array hp hlen ((hword.load_eq hmem').trans hload) ⟨hclear.fits, .inl hapart⟩ (fun i x hx => ?_) ih
    have helem := (elem_word (V := ⟨fun _ => 0, fun _ => 0, m⟩) (j := i) (.array hp hlen hload hclear hs hxs) hp
      (by simpa [elem?] using hx)).2.1
    rw [Int.toNat_natCast] at helem
    rw [← hs i x hx]
    exact Mem.load_congr (by rw [Ty.bytes_widthOf]; exact helem.fits) fun b _ hb => hmem' b
      (by have := helem.apart; rw [Ty.bytes_widthOf] at hb; omega)

namespace Arm

namespace Context

variable {C : Context} {T : Table} {s : Stage} {sc : ScopeId} {e : Expr} {d : Reg} {rest : List Reg}
  {v : Variable} {x : VarId} {r : Reg} {t : Ty} {site : Site} {name : Text}

/-! ## Stored and loaded -/

theorem Emits.store {r base : Reg} {off : Int} (hb : base ≠ scratch) (hr : r ≠ scratch) :
    C.Emits T s (Gen.store r base off t) 0 fun out => ∀ k, C.system.Does out k fun k' =>
      k'.mem = k.mem.store (Gen.widthOf t) (k.reg base + BitVec.ofInt 32 off) (k.reg r) ∧
        ∀ q, q ≠ scratch → k'.reg q = k.reg q := by
  obtain ⟨out, hrun, hdoes⟩ := Gen.store_lines (T := T) (s := s) r hb off t
  refine ⟨(), out, s, hrun, .refl s, fun _ k => (hdoes C.system k).weaken fun k' ⟨⟨v, hmem, hv⟩, hregs⟩ => ?_⟩
  exact ⟨hv hr ▸ hmem, hregs⟩

theorem Emits.delivers (he : e.Typed T sc) (hv : ∀ x ∈ e.vars, Gen.HasSlot T s x) (hfree : Gen.Free (d :: rest))
    (hnodup : (d :: rest).Nodup) :
    C.Emits T s (Gen.expr e (d :: rest)) 0 fun out => ∀ E k, C.Ready s.depth (4 * e.size + 16) k →
      C.Represents T s E e.vars k → C.system.Yields out k (e.eval E) fun x k' =>
        k'.reg d = x.word ∧ Core.Frame C.floor (d :: rest) k k' := by
  refine (expr_yields (C := C) he d rest s hfree hnodup hv).weaken fun out hout E k hk hr => ?_
  have hagrees := he.agrees (hr.shows hv)
  have hyields := hout (C.view E k) k.sp k (hr.start hv hk) hagrees.safe
  rw [hagrees.word] at hyields
  exact hyields.of_map fun _ _ h => h

theorem Represents.stored_eq_iff {E : Env} {k : Core} {x : Datum} (h : C.Represents T s E e.vars k) (he : e.Typed T sc)
    (hv : ∀ x ∈ e.vars, Gen.HasSlot T s x) (hx : e.eval E = some x) :
    (x.stored = x ↔ ¬ e.Wide E) ∧ ∃ m floor limit, x.Has m floor limit e.type := by
  have hshows := h.shows hv
  refine ⟨he.stored_eq_iff hshows (fun y hy v hyv => ?_) hx, _, _, _, (he.agrees hshows).has x hx⟩
  obtain ⟨v', base, hv', hb, h0⟩ := hv y hy
  cases hyv.symm.trans hv'
  exact ⟨_, (h.vars y hy v _ hyv (Gen.slot_eq hyv hb h0)).2.1⟩

/-- The lines leave in `r` what memory keeps of the value of the expression, and this is the value unless it
    is more than a byte holds. -/
def Restores (C : Context) (T : Table) (s : Stage) (e : Expr) (r : Reg) (out : List Line) : Prop :=
  ∀ E k, C.Ready s.depth (4 * e.size + 16) k → C.Represents T s E e.vars k →
    C.system.Yields out k (e.eval E) fun x k' => k'.reg r = x.stored.word ∧ (k'.reg r = x.word ↔ ¬ e.Wide E)

theorem Restores.of_kept {o o' : List Line} (he : e.Typed T sc) (ht : e.type.isScalar = true)
    (hv : ∀ x ∈ e.vars, Gen.HasSlot T s x) (ho : ∀ E k, C.Ready s.depth (4 * e.size + 16) k → C.Represents T s E
      e.vars k → C.system.Yields o k (e.eval E) fun x k' => k'.reg d = x.word ∧ Core.Frame C.floor (d :: rest) k k')
    (ho' : ∀ k, 4 ≤ k.sp → C.system.Does o' k fun k' => k'.reg r = (Gen.widthOf e.type).keep (k.reg d))
    (hsp : .sp ∉ d :: rest) : C.Restores T s e r (o ++ o') := by
  intro E k hk hr
  have hyields := ho E k hk hr
  cases hx : e.eval E with
  | none =>
    rw [hx] at hyields
    exact System.Throws.append hyields
  | some x =>
    rw [hx] at hyields
    obtain ⟨hiff, m, floor, limit, hhas⟩ := hr.stored_eq_iff he hv hx
    obtain ⟨hkeep, -⟩ := (hhas.is ht).keep ht
    have hroom := hk.room
    have hdoes : C.system.Does o k fun k' => k'.reg d = x.word ∧ Core.Frame C.floor (d :: rest) k k' := hyields
    refine System.Yields.of_does (hdoes.seq ?_)
    rintro k1 ⟨hval, hframe⟩
    have hsp1 : k1.sp = k.sp := by rw [Core.sp, hframe.sp hsp, Core.sp]
    refine (ho' k1 (by omega)).weaken fun k2 hreg => ?_
    rw [hval, hkeep] at hreg
    rw [hreg, ← hhas.stored_eq_iff]
    exact ⟨rfl, hiff⟩

theorem Emits.pushed (he : e.Typed T sc) (ht : e.type.isScalar = true) (hv : ∀ x ∈ e.vars, Gen.HasSlot T s x)
    (hfree : Gen.Free (d :: rest)) (hnodup : (d :: rest).Nodup) :
    C.Emits T s (do Gen.expr e (d :: rest); Gen.pushValue d e.type; Gen.load r .sp 0 e.type) e.type.size.toNat
      (C.Restores T s e r) := by
  refine (((Emits.delivers he hv hfree hnodup).seq fun s1 _ => Emits.pushValue.seq fun s2 _ =>
    Emits.load (by decide)).cast (by ring)).weaken ?_
  rintro _ ⟨s1, o1, _, -, rfl, hexpr, s2, _, o3, -, rfl, rfl, hload⟩
  refine Restores.of_kept he ht hv hexpr (fun k hk => ?_) (sp_notMem hfree)
  have hbytes := (Gen.widthOf e.type).bytes_le
  refine (System.does_pushStore (by omega)).seq fun k1 ⟨_, hmem, _⟩ => (hload k1).weaken fun k2 ⟨hreg, _⟩ => ?_
  rw [hreg, show BitVec.ofInt 32 0 = 0#32 from rfl, BitVec.add_zero, hmem]

/-! ## Declared and used -/

/-- The stack holds the values of the variables `xs`, and all arrays lie below it. -/
structure Houses (C : Context) (T : Table) (s : Stage) (E : Env) (xs : List VarId) (k : Core) : Prop where
  const : E.const = C.const
  vars : ∀ x ∈ xs, ∀ v base, s.Owns T x v base → C.home v base + v.type.size.toNat ≤ 2 ^ 32 ∧
    k.mem.load (Gen.widthOf v.type) (C.slot v base) = (E.var x).word ∧
    (E.var x).Has k.mem C.floor (2 ^ 32) v.type

theorem toNat_slot {b : Int} (h0 : 0 ≤ C.home v b) (h1 : C.home v b < 2 ^ 32) :
    ((C.slot v b).toNat : Int) = C.home v b := by
  rw [slot, BitVec.toNat_ofInt]
  unfold home at *
  omega

theorem sp_le_home {k : Core} {base : Int} (hx : Gen.HasSlot T s x) (ho : s.Owns T x v base)
    (hdepth : (k.sp : Int) + s.depth = C.top) : (k.sp : Int) ≤ C.home v base := by
  obtain ⟨v', base', hv', hb', h0⟩ := hx
  cases ho.var.symm.trans hv'
  cases ho.entry.symm.trans hb'
  unfold home
  omega

namespace Houses

variable {E : Env} {xs ys : List VarId} {k k' : Core}

theorem mono (h : C.Houses T s E xs k) (hys : ∀ y ∈ ys, y ∈ xs) : C.Houses T s E ys k :=
  ⟨h.const, fun y hy => h.vars y (hys y hy)⟩

theorem shift {s' : Stage} {j : Int} (h : C.Houses T s E xs k) (hs : s.Shift j s') : C.Houses T s' E xs k :=
  ⟨h.const, fun x hx v base ho => h.vars x hx v base ⟨ho.var, hs.entry ▸ ho.entry⟩⟩

theorem represents (h : C.Houses T s E xs k) (hv : ∀ x ∈ xs, Gen.HasSlot T s x)
    (hdepth : (k.sp : Int) + s.depth = C.top) : C.Represents T s E xs k := by
  refine ⟨h.const, fun x hx v off hxv hslot => ?_⟩
  obtain ⟨v', base, hv', hb, h0⟩ := hv x hx
  cases hxv.symm.trans hv'
  rw [Gen.slot_eq hxv hb h0] at hslot
  obtain rfl : s.depth - base - v.offset.toNat = off := by cases hslot; rfl
  obtain ⟨hfits, hload, hhas⟩ := h.vars x hx v base ⟨hxv, hb⟩
  refine ⟨?_, by rw [slot_eq hdepth, hload], hhas.transfer fun _ _ => rfl⟩
  unfold home at hfits
  omega

theorem frame {rs : List Reg} (h : C.Houses T s E xs k) (hv : ∀ x ∈ xs, Gen.HasSlot T s x)
    (hdepth : (k.sp : Int) + s.depth = C.top) (hf : Core.Frame C.floor rs k k') : C.Houses T s E xs k' := by
  refine ⟨h.const, fun x hx v base ho => ?_⟩
  obtain ⟨hfits, hload, hhas⟩ := h.vars x hx v base ho
  have hle := sp_le_home (hv x hx) ho hdepth
  have hpos := Lookup.Place.size_pos v.type
  have hslot := toNat_slot (C := C) (v := v) (b := base) (by omega) (by omega)
  refine ⟨hfits, ?_, hhas.transfer fun a ha => hf.mem a (.inl ha)⟩
  rw [← hload]
  exact Mem.load_congr (by rw [Gen.bytes_widthOf]; omega) fun a ha _ => hf.mem a (.inr (by omega))

theorem set (h : C.Houses T s E xs k) (hw : T.Wf) (hat : Around T sc s) (hv : ∀ x ∈ ys, Gen.HasSlot T s x)
    (hdepth : (k.sp : Int) + s.depth = C.top) (hfloor : C.floor ≤ k.sp) {x : VarId} {v : Variable} {base : Int}
    {y : Datum} (ho : s.Owns T x v base) (hx : Gen.HasSlot T s x) (hroof : C.home v base + v.type.size.toNat ≤ 2 ^ 32)
    (hy : y.Is v.type) (ht : v.type.isScalar = true) (hys : ∀ z ∈ ys, z = x ∨ z ∈ xs)
    (hmem : k'.mem = k.mem.store (Gen.widthOf v.type) (C.slot v base) y.word) :
    C.Houses T s (E.set x y.stored) ys k' := by
  have hpos := Lookup.Place.size_pos v.type
  have hle := sp_le_home hx ho hdepth
  have hslot := toNat_slot (C := C) (v := v) (b := base) (by omega) (by omega)
  have hfits : (C.slot v base).toNat + (Gen.widthOf v.type).bytes ≤ 2 ^ 32 := by
    rw [Gen.bytes_widthOf]
    omega
  obtain ⟨hkeep, his⟩ := hy.keep ht
  refine ⟨h.const, fun z hz w base' hz' => ?_⟩
  by_cases hzx : z = x
  · subst hzx
    cases ho.var.symm.trans hz'.var
    cases ho.entry.symm.trans hz'.entry
    rw [Env.var_set, hmem, Mem.load_store]
    exact ⟨hroof, hkeep, his _ _ _⟩
  · obtain ⟨hroof', hload', hhas'⟩ := h.vars z ((hys z hz).resolve_left hzx) w base' hz'
    have hpos' := Lookup.Place.size_pos w.type
    have hle' := sp_le_home (hv z hz) hz' hdepth
    have hslot' := toNat_slot (C := C) (v := w) (b := base') (by omega) (by omega)
    have hapart := home_apart (C := C) hw hat ho hz' (Ne.symm hzx)
    rw [Env.var_set_of_ne E _ hzx, hmem]
    refine ⟨hroof', ?_, hhas'.transfer fun a ha => Mem.store_outside hfits (by omega)⟩
    rw [← hload', Mem.load_store_other hfits (by rw [Gen.bytes_widthOf]; omega)]
    rw [Gen.bytes_widthOf, Gen.bytes_widthOf]
    omega

end Houses

theorem Emits.storeVar {b : Int} (hv : T.var? x = some v) (hb : s.entry.lookup v.scope = some b)
    (h0 : 0 ≤ s.depth - b - v.offset.toNat) (hr : r ≠ scratch) :
    C.Emits T s (Gen.storeVar r x) 0 fun out => ∀ k, (k.sp : Int) + s.depth = C.top →
      C.system.Does out k fun k' =>
        k'.mem = k.mem.store (Gen.widthOf v.type) (C.slot v b) (k.reg r) ∧ k'.reg .sp = k.reg .sp := by
  refine (Gen.wp_bind_pure (Gen.slot_eq hv hb h0)).2 ?_
  refine Gen.Wp.weaken (Emits.store (C := C) (by decide) hr) fun _ out s' ⟨hs, hout⟩ => ⟨hs, fun hc k hk => ?_⟩
  refine (hout hc k).weaken fun k' ⟨hmem, hregs⟩ => ⟨?_, hregs .sp (by decide)⟩
  rw [hmem, slot_eq hk]

theorem Emits.declared (hw : T.Wf) (hat : Around T sc s) (he : e.Typed T sc) (ht : e.type.isScalar = true)
    (hx : T.var? x = some v) (henc : T.Encloses sc v.scope) (htype : v.type = e.type) {xs ys : List VarId}
    (hxs : ∀ z ∈ xs, Gen.HasSlot T s z) (hys : ∀ z ∈ ys, z = x ∨ z ∈ xs) (hvars : ∀ z ∈ e.vars, z ∈ xs) :
    C.Emits T s (Gen.stat (.declare site x name t (.expr e))) 0 fun out => ∀ E k,
      C.Ready s.depth (4 * e.size + 16) k → C.Houses T s E xs k →
      (∀ o base, s.entry.lookup o = some base → C.top - base ≤ 2 ^ 32) →
      C.system.Yields out k (e.eval E) fun y k' => C.Houses T s (E.set x y.stored) ys k' ∧ k'.reg .sp = k.reg .sp := by
  obtain ⟨v', base, hv', hb, h0⟩ := hat.covers hw x v hx henc
  cases hx.symm.trans hv'
  have hslot : Gen.HasSlot T s x := ⟨v, base, hx, hb, h0⟩
  have hys' : ∀ z ∈ ys, Gen.HasSlot T s z := fun z hz => (hys z hz).elim (fun h => h ▸ hslot) (hxs z)
  refine (((Emits.delivers he (fun z hz => hxs z (hvars z hz)) Gen.pool_free (by decide)).seq fun s1 hs1 =>
    Emits.storeVar (v := v) (b := base) hx (hs1.entry ▸ hb) (by rw [hs1.depth]; omega) (by decide)).cast
    (by ring)).weaken ?_
  rintro _ ⟨s1, o1, o2, hs1, rfl, hexpr, hstore⟩ E k hk hhouses hroof
  have hv : ∀ z ∈ e.vars, Gen.HasSlot T s z := fun z hz => hxs z (hvars z hz)
  have hr := (hhouses.mono hvars).represents hv hk.depth
  have hyields := hexpr E k hk hr
  cases hy : e.eval E with
  | none =>
    rw [hy] at hyields
    exact System.Throws.append hyields
  | some y =>
    rw [hy] at hyields
    obtain ⟨-, m, floor, limit, hhas⟩ := hr.stored_eq_iff he hv hy
    have hdoes : C.system.Does o1 k fun k' => k'.reg Gen.result = y.word ∧ Core.Frame C.floor pool k k' := hyields
    refine System.Yields.of_does (hdoes.seq ?_)
    rintro k1 ⟨hval, hframe⟩
    have hsp1 : k1.sp = k.sp := by rw [Core.sp, hframe.sp (by decide), Core.sp]
    have hdepth₁ : (k1.sp : Int) + s.depth = C.top := by rw [hsp1]; exact hk.depth
    refine (hstore k1 (by rw [hs1.depth, add_zero]; exact hdepth₁)).weaken ?_
    rintro k2 ⟨hmem, hsp2⟩
    rw [hval] at hmem
    refine ⟨?_, hsp2.trans (hframe.sp (by decide))⟩
    have hroom := hk.room
    have hroof' : C.home v base + v.type.size.toNat ≤ 2 ^ 32 := by
      obtain ⟨_, -, hsize, -⟩ := hw.room x v hx
      have := hroof _ _ hb
      unfold home
      omega
    exact (hhouses.frame hxs hk.depth hframe).set hw hat hys' hdepth₁ (by omega) ⟨hx, hb⟩ hslot hroof'
      (htype ▸ hhas.is ht) (htype ▸ ht) hys hmem

theorem Emits.used (hw : T.Wf) (hat : Around T sc s) (he : e.Typed T sc) (ht : e.type.isScalar = true)
    (hx : T.var? x = some v) (henc : T.Encloses sc v.scope) (htype : v.type = e.type) {use : Expr}
    (huse : use.Typed T sc) {xs : List VarId} (hxs : ∀ z ∈ xs, Gen.HasSlot T s z) (hvars : ∀ z ∈ e.vars, z ∈ xs)
    (huses : ∀ z ∈ use.vars, z = x ∨ z ∈ xs) (hfree : Gen.Free (d :: rest)) (hnodup : (d :: rest).Nodup) :
    C.Emits T s (do Gen.stat (.declare site x name t (.expr e)); Gen.expr use (d :: rest)) 0 fun out => ∀ E k,
      C.Ready s.depth (4 * max e.size use.size + 16) k → C.Houses T s E xs k →
      (∀ o base, s.entry.lookup o = some base → C.top - base ≤ 2 ^ 32) →
      C.system.Yields out k ((e.eval E).bind fun y => use.eval (E.set x y.stored)) fun z k' => k'.reg d = z.word := by
  have huses' : ∀ z ∈ use.vars, Gen.HasSlot T s z := fun z hz => by
    obtain ⟨w, hzw, hencw⟩ := huse.enclosed hz
    exact hat.covers hw z w hzw hencw
  refine (((Emits.declared hw hat he ht hx henc htype hxs huses hvars).seq fun s1 hs1 =>
    Emits.delivers huse (fun z hz => HasSlot.shift (huses' z hz) hs1 le_rfl) hfree hnodup).cast (by ring)).weaken ?_
  rintro _ ⟨s1, o1, o2, hs1, rfl, hdeclare, hexpr⟩ E k hk hhouses hroof
  have hdepth₁ : s1.depth = s.depth := by rw [hs1.depth, add_zero]
  refine (hdeclare E k (hk.le (by omega)) hhouses hroof).seq fun y k1 _ ⟨hhouses₁, hsp1⟩ => ?_
  have hk1 : C.Ready s1.depth (4 * use.size + 16) k1 := by
    rw [hdepth₁]
    exact (hk.same hsp1).le (by omega)
  refine (hexpr (E.set x y.stored) k1 hk1 ?_).weaken fun z k' h => h.1
  exact (hhouses₁.shift hs1).represents (fun z hz => HasSlot.shift (huses' z hz) hs1 le_rfl) hk1.depth

end Context

/-! ## A character -/

namespace Letters

def scope : Scope := { kind := .global, parent := 0, span := {}, footprint := 5 }

def i : Variable := { name := lit "i", type := .int, scope := 1, offset := 4, span := {} }

def c : Variable := { name := lit "c", type := .char, scope := 1, offset := 5, span := {} }

def table : Table where
  scopes := #[scope]
  vars := #[i, c]

def stage : Stage := { depth := 9, entry := [(1, 4)] }

def letter : Expr := .unary {} .char .chr (.var ⟨{}, .int, lit "i", 1⟩)

def number : Expr := .unary {} .int .ord (.var ⟨{}, .char, lit "c", 2⟩)

def code : List Line :=
  match (do Gen.stat (.declare ⟨{}, 1⟩ 2 c.name c.type (.expr letter)); Gen.expr number [.r4] : Gen Unit) table stage with
  | .ok (_, out, _) => out
  | .error _ => []

theorem length_code : (Routine.library ++ code).length < 2 ^ 30 := by decide +kernel

theorem top_aligned : (0x1010 : Int) % 8 = 0 := by decide

def context : Context where
  system := ⟨.ofCode (Routine.library ++ code) (fun _ => 0) length_code, .arithmetic⟩
  need := 0
  floor := 0x800
  top := 0x1010
  const _ := 0
  lawful := Library.arithmetic_lawful
  aligned := top_aligned

def core (n : Int) : Core where
  reg r := if r = .sp then 0x1007 else 0
  flags := ⟨false, false, false, false⟩
  mem := Mem.store (fun _ => 0) .word 0x1008 (BitVec.ofInt 32 n)

def env (n : Int) : Env := ⟨fun _ => .int n, fun _ => 0⟩

theorem var?_cases {x : VarId} {v : Variable} (h : table.var? x = some v) :
    x = 1 ∧ v = i ∨ x = 2 ∧ v = c := by
  obtain ⟨n, hn, hv⟩ := Table.numbered_eq_some.1 h
  match n, hv with
  | 0, hv => exact .inl ⟨UInt32.toNat_inj.1 hn, by simpa [table] using hv.symm⟩
  | 1, hv => exact .inr ⟨UInt32.toNat_inj.1 hn, by simpa [table] using hv.symm⟩
  | n + 2, hv => simp [table] at hv

theorem scope?_cases {o : ScopeId} {r : Scope} (h : table.scope? o = some r) :
    o = 1 ∧ r = scope := by
  obtain ⟨n, hn, hr⟩ := Table.numbered_eq_some.1 h
  match n, hr with
  | 0, hr => exact ⟨UInt32.toNat_inj.1 hn, by simpa [table] using hr.symm⟩
  | n + 1, hr => simp [table] at hr

theorem wf : table.Wf where
  small := by decide
  few := by decide
  root := ⟨_, rfl, rfl⟩
  placed o r h := by
    obtain ⟨rfl, rfl⟩ := scope?_cases h
    exact ⟨rfl, rfl⟩
  names o r n x h hn := by
    obtain ⟨rfl, rfl⟩ := scope?_cases h
    cases hn
  room x v h := by
    obtain ⟨rfl, rfl⟩ | ⟨rfl, rfl⟩ := var?_cases h
    · exact ⟨_, rfl, by decide, by decide⟩
    · exact ⟨_, rfl, by decide, by decide⟩
  footprint o r h := by
    obtain ⟨rfl, rfl⟩ := scope?_cases h
    decide
  apart x y v w hx hy hne _ := by
    obtain ⟨rfl, rfl⟩ | ⟨rfl, rfl⟩ := var?_cases hx <;> obtain ⟨rfl, rfl⟩ | ⟨rfl, rfl⟩ := var?_cases hy
    · exact absurd rfl hne
    · exact .inl (by decide)
    · exact .inr (by decide)
    · exact absurd rfl hne
  funcs f g h := by
    obtain ⟨i, -, hg⟩ := Table.numbered_eq_some.1 h
    simp [table] at hg
  nodup := by simp [table]
  spelled := by simp [table]

theorem slots : ∀ x ∈ letter.vars, Gen.HasSlot table stage x := by
  intro x hx
  obtain rfl := List.mem_singleton.1 hx
  exact ⟨_, 4, rfl, rfl, by decide⟩

theorem around : Around table Table.global stage := by
  have hmain : Frames table [(Table.global, 4)] Table.global 9 :=
    Frames.main (s := scope) rfl
  exact ⟨9, le_rfl, hmain⟩

theorem roof : ∀ o base, stage.entry.lookup o = some base → context.top - base ≤ 2 ^ 32 := by
  intro o base h
  obtain ⟨_, _, hentry, -⟩ := List.lookup_eq_some_iff.1 h
  obtain ⟨rfl, rfl⟩ : o = 1 ∧ base = 4 := by
    have hmem : (o, base) ∈ stage.entry := by simp [hentry]
    simpa [stage] using hmem
  decide

/-- From the first line of the code control gets to its end, with the number `r` in the register. -/
def Ends (n r : Int) : Prop :=
  ∃ m st, context.system.after m ⟨core n, Routine.library.length, []⟩ = .ok st ∧
    st.pc = Routine.library.length + code.length ∧ st.reg .r4 = BitVec.ofInt 32 r

end Letters

end Arm

end Wacc
