/-
  A function or the main program while it runs.

  The stack holds the values of the variables that have one.  Between statements nothing else matters: not
  the registers, and not what is below the stack pointer.
-/
import Wacc.Proofs.Arm.Slots
import Wacc.Proofs.Machine.Contract
import Wacc.Proofs.Machine.Meets

namespace Wacc

open Reference Arm

/-! ## Scalar values -/

def Datum.Is (t : Ty) (x : Datum) : Prop := ∀ m floor limit, x.Has m floor limit t

theorem Datum.Has.is {x : Datum} {t : Ty} {m : Mem} {floor limit : Nat} (h : x.Has m floor limit t)
    (ht : t.isScalar = true) : x.Is t := by
  intro m' floor' limit'
  cases h with
  | int hn => exact .int hn
  | bool => exact .bool
  | char hn => exact .char hn
  | _ => cases ht

theorem Ty.eq_of_accepts {s t : Ty} (h : s.accepts t = true) (hs : s.isScalar = true) : t = s := by
  cases s <;> cases hs <;> cases t <;> first | rfl | cases h

theorem Datum.Is.keep {x : Datum} {t : Ty} (h : x.Is t) (ht : t.isScalar = true) :
    (Gen.widthOf t).keep x.word = x.stored.word ∧ x.stored.Is t := by
  cases h (fun _ => 0) 0 0 with
  | int => exact ⟨rfl, h⟩
  | @bool b => exact ⟨by cases b <;> rfl, h⟩
  | @char n hn =>
    refine ⟨?_, fun m floor limit => .char (fits_iff.2 ?_)⟩
    · have hbyte : (BitVec.ofInt 32 n).setWidth 8 = BitVec.ofInt 8 n := by
        apply BitVec.eq_of_toNat_eq
        rw [BitVec.toNat_setWidth, BitVec.toNat_ofInt, BitVec.toNat_ofInt]
        omega
      show BitVec.ofInt 32 ((BitVec.ofInt 32 n).setWidth 8).toInt = BitVec.ofInt 32 (n.bmod 256)
      rw [hbyte, BitVec.toInt_ofInt]
    · have := Int.le_bmod (x := n) (m := 256) (by decide)
      have := Int.bmod_lt (x := n) (m := 256) (by decide)
      omega
  | _ => cases ht

namespace Arm

variable {T : Table} {sc o o' : ScopeId} {es : List (ScopeId × Int)} {d : Int}

/-! ## Open scopes -/

namespace Frames

theorem range (h : Frames T es sc d) {base : Int} {r : Scope} (hb : es.lookup o = some base)
    (hr : T.scope? o = some r) :
    4 ≤ base ∧ base + r.footprint.toNat ≤ d ∨ base + r.footprint.toNat = 0 := by
  induction h with
  | main hs =>
    obtain ⟨rfl, rfl⟩ | hnone := lookup_entry hb
    · cases hs.symm.trans hr
      exact .inl ⟨le_rfl, le_rfl⟩
    · cases hnone
  | func hs _ =>
    obtain ⟨rfl, rfl⟩ | hnone := lookup_entry hb
    · cases hs.symm.trans hr
      exact .inr (by omega)
    · cases hnone
  | block hf hs _ _ ih =>
    obtain ⟨rfl, rfl⟩ | hb := lookup_entry hb
    · cases hs.symm.trans hr
      exact .inl ⟨hf.four_le, le_rfl⟩
    · have := ih hb
      omega

theorem apart (h : Frames T es sc d) {base base' : Int} {r r' : Scope} (hb : es.lookup o = some base)
    (hb' : es.lookup o' = some base') (hr : T.scope? o = some r) (hr' : T.scope? o' = some r') (hne : o ≠ o') :
    base + r.footprint.toNat ≤ base' ∨ base' + r'.footprint.toNat ≤ base := by
  induction h with
  | main | func =>
    obtain ⟨rfl, -⟩ | hnone := lookup_entry hb
    · obtain ⟨rfl, -⟩ | hnone := lookup_entry hb'
      · exact absurd rfl hne
      · cases hnone
    · cases hnone
  | block hf hs _ _ ih =>
    have h4 := hf.four_le
    obtain ⟨rfl, rfl⟩ | hin := lookup_entry hb
    · obtain ⟨rfl, -⟩ | hin' := lookup_entry hb'
      · exact absurd rfl hne
      · have := hf.range hin' hr'
        omega
    · obtain ⟨rfl, rfl⟩ | hin' := lookup_entry hb'
      · have := hf.range hin hr
        omega
      · exact ih hin hin'

end Frames

def Around (T : Table) (sc : ScopeId) (s : Stage) : Prop := ∃ d ≤ s.depth, Frames T s.entry sc d

theorem Gen.At.around {s : Stage} (h : Gen.At T sc s) : Around T sc s := ⟨_, le_rfl, h⟩

theorem Gen.At.shift {s s' : Stage} (h : Gen.At T sc s) (hs : s.Shift 0 s') : Gen.At T sc s' := by
  unfold Gen.At
  rw [hs.entry, hs.depth, add_zero]
  exact h

theorem Around.shift {s s' : Stage} {j : Int} (h : Around T sc s) (hs : s.Shift j s') (hj : 0 ≤ j) : Around T sc s' := by
  obtain ⟨d, hd, hf⟩ := h
  exact ⟨d, by have := hs.depth; omega, by rw [hs.entry]; exact hf⟩

theorem Around.covers {s : Stage} (h : Around T sc s) (hw : T.Wf) : Gen.Covers T s sc := by
  obtain ⟨d, hd, hf⟩ := h
  exact Frames.covers hw hf hd

/-- The variable `x` is one of a scope that was entered at the depth `base`. -/
structure Stage.Owns (s : Stage) (T : Table) (x : VarId) (v : Variable) (base : Int) : Prop where
  var : T.var? x = some v
  entry : s.entry.lookup v.scope = some base

namespace Context

variable {C : Context} {s s' : Stage} {σ : Store} {k k' k'' : Core}

def home (C : Context) (v : Variable) (base : Int) : Int := C.top - base - v.offset.toNat

/-- The stack holds the values of the variables that have one. -/
structure Live (C : Context) (T : Table) (s : Stage) (σ : Store) (k : Core) : Prop where
  depth : (k.sp : Int) + s.depth = C.top
  /-- no scope reaches beyond the end of the memory -/
  roof : ∀ o base, s.entry.lookup o = some base → C.top - base ≤ 2 ^ 32
  vars : ∀ x v base d, s.Owns T x v base → σ x = some d →
    k.mem.load (Gen.widthOf v.type) (C.slot v base) = d.word ∧ d.Is v.type

def Kept (C : Context) (T : Table) (s : Stage) (k : Core) (a : Word) : Prop :=
  k.sp ≤ a.toNat ∧ ∀ x v base, s.Owns T x v base →
    (a.toNat : Int) < C.home v base ∨ C.home v base + v.type.size.toNat ≤ a.toNat

structure Stays (C : Context) (T : Table) (s : Stage) (k k' : Core) : Prop where
  sp : k'.reg .sp = k.reg .sp
  mem : ∀ a, C.Kept T s k a → k'.mem a = k.mem a

namespace Stays

theorem shift (h : C.Stays T s k k') (hs : s'.Shift 0 s) : C.Stays T s' k k' :=
  ⟨h.sp, fun a ha => h.mem a ⟨ha.1, fun x v base hx => ha.2 x v base ⟨hx.var, hs.entry ▸ hx.entry⟩⟩⟩

theorem refl : C.Stays T s k k := ⟨rfl, fun _ _ => rfl⟩

theorem trans (h : C.Stays T s k k') (h' : C.Stays T s k' k'') : C.Stays T s k k'' := by
  have hsp : k'.sp = k.sp := by rw [Core.sp, h.sp, Core.sp]
  refine ⟨h'.sp.trans h.sp, fun a ha => (h'.mem a ?_).trans (h.mem a ha)⟩
  exact ⟨hsp ▸ ha.1, ha.2⟩

theorem frame {rs : List Reg} (h : Core.Frame 0 rs k k') (hs : .sp ∉ rs) : C.Stays T s k k' :=
  ⟨h.sp hs, fun a ha => h.mem a (.inr ha.1)⟩

end Stays

theorem home_apart (hw : T.Wf) (hat : Around T sc s) {x y : VarId} {v w : Variable}
    {base base' : Int} (hx : s.Owns T x v base) (hy : s.Owns T y w base') (hne : x ≠ y) :
    C.home v base + v.type.size.toNat ≤ C.home w base' ∨ C.home w base' + w.type.size.toNat ≤ C.home v base := by
  obtain ⟨r, hr, hsize, hoff⟩ := hw.room x v hx.var
  obtain ⟨r', hr', hsize', hoff'⟩ := hw.room y w hy.var
  unfold home
  by_cases hs : v.scope = w.scope
  · cases hx.entry.symm.trans (hs ▸ hy.entry)
    obtain hvw | hwv := hw.apart x y v w hx.var hy.var hne hs
    · omega
    · omega
  · obtain ⟨d, -, hat⟩ := hat
    have := hat.apart hx.entry hy.entry hr hr' hs
    omega

namespace Live

theorem shift (h : C.Live T s σ k) (hs : s.Shift 0 s') : C.Live T s' σ k :=
  ⟨by rw [hs.depth, add_zero]; exact h.depth, fun o base ho => h.roof o base (hs.entry ▸ ho),
    fun x v base d hx hd => h.vars x v base d ⟨hx.var, hs.entry ▸ hx.entry⟩ hd⟩

theorem unshift (h : C.Live T s' σ k) (hs : s.Shift 0 s') : C.Live T s σ k :=
  ⟨by rw [← add_zero s.depth, ← hs.depth]; exact h.depth, fun o base ho => h.roof o base (hs.entry ▸ ho),
    fun x v base d hx hd => h.vars x v base d ⟨hx.var, hs.entry ▸ hx.entry⟩ hd⟩

variable {v : Variable} {base : Int} {x : VarId}

theorem home_le (h : C.Live T s σ k) (hw : T.Wf) (hat : Around T sc s) (hx : s.Owns T x v base) :
    (k.sp : Int) ≤ C.home v base ∧ C.home v base + v.type.size.toNat ≤ 2 ^ 32 := by
  obtain ⟨r, hr, hsize, hoff⟩ := hw.room x v hx.var
  obtain ⟨d, hd, hat⟩ := hat
  have hrange := hat.range hx.entry hr
  have hroof := h.roof _ _ hx.entry
  have hdepth := h.depth
  have h4 := hat.four_le
  unfold home
  omega

theorem toNat_slot (h : C.Live T s σ k) (hw : T.Wf) (hat : Around T sc s) (hx : s.Owns T x v base) :
    ((C.slot v base).toNat : Int) = C.home v base := by
  obtain ⟨hle, hroof⟩ := h.home_le hw hat hx
  have hpos := Lookup.Place.size_pos v.type
  rw [slot, BitVec.toNat_ofInt]
  unfold home at *
  omega

theorem move {j : Int} (h : C.Live T s σ k) (hw : T.Wf) (hat : Around T sc s) (hs : s.Shift j s')
    (hsp : (k'.sp : Int) + j = k.sp) (hmem : ∀ a : Word, k.sp ≤ a.toNat → k'.mem a = k.mem a) :
    C.Live T s' σ k' := by
  have hdepth := h.depth
  refine ⟨by rw [hs.depth]; omega, fun o base ho => h.roof o base (hs.entry ▸ ho), fun x v base d hx hd => ?_⟩
  have hx : s.Owns T x v base := ⟨hx.var, hs.entry ▸ hx.entry⟩
  obtain ⟨hload, hd⟩ := h.vars x v base d hx hd
  refine ⟨?_, hd⟩
  rw [← hload]
  obtain ⟨hle, hroof⟩ := h.home_le hw hat hx
  have hslot := h.toNat_slot hw hat hx
  refine Mem.load_congr ?_ fun a ha _ => hmem a ?_
  · rw [Gen.bytes_widthOf]
    omega
  · omega

theorem frame {rs : List Reg} (h : C.Live T s σ k) (hw : T.Wf) (hat : Around T sc s) (hf : Core.Frame 0 rs k k')
    (hrs : .sp ∉ rs) : C.Live T s σ k' := by
  have hsp : k'.sp = k.sp := by rw [Core.sp, hf.sp hrs, Core.sp]
  exact h.move hw hat (.refl s) (by omega) fun a ha => hf.mem a (.inr ha)

theorem set (h : C.Live T s σ k) (hw : T.Wf) (hat : Around T sc s) {d : Datum} (hx : s.Owns T x v base)
    (hd : d.Is v.type) (ht : v.type.isScalar = true) (hsp : k'.reg .sp = k.reg .sp) (hmem : k'.mem = k.mem.store
      (Gen.widthOf v.type) (C.slot v base) d.word) : C.Live T s (σ.set x d) k' ∧ C.Stays T s k k' := by
  have hspn : k'.sp = k.sp := by rw [Core.sp, hsp, Core.sp]
  have hslot := h.toNat_slot hw hat hx
  obtain ⟨-, hroof⟩ := h.home_le hw hat hx
  have hfits : (C.slot v base).toNat + (Gen.widthOf v.type).bytes ≤ 2 ^ 32 := by
    rw [Gen.bytes_widthOf]
    omega
  refine ⟨⟨hspn ▸ h.depth, h.roof, fun y w base' z hy hz => ?_⟩, hsp, fun a ha => ?_⟩
  · by_cases hxy : y = x
    · subst hxy
      cases hx.var.symm.trans hy.var
      cases hx.entry.symm.trans hy.entry
      rw [Store.set, Function.update_self, Option.some.injEq] at hz
      obtain ⟨hkeep, his⟩ := hd.keep ht
      subst hz
      rw [hmem, Mem.load_store, hkeep]
      exact ⟨rfl, his⟩
    · rw [Store.set, Function.update_of_ne hxy] at hz
      obtain ⟨hload, his⟩ := h.vars y w base' z hy hz
      have hslot' := h.toNat_slot hw hat hy
      obtain ⟨-, hroof'⟩ := h.home_le hw hat hy
      have hapart := home_apart (C := C) hw hat hx hy (Ne.symm hxy)
      refine ⟨?_, his⟩
      rw [hmem, Mem.load_store_other hfits, hload]
      all_goals simp only [Gen.bytes_widthOf]; omega
  · have := ha.2 x v base hx
    rw [hmem, Mem.store_outside hfits]
    rw [Gen.bytes_widthOf]
    omega

theorem represents (h : C.Live T s σ k) (hw : T.Wf) (hat : Around T sc s) {xs : List VarId}
    (hxs : ∀ x ∈ xs, Gen.HasSlot T s x) (hset : ∀ x ∈ xs, (σ x).isSome = true) :
    C.Represents T s (σ.env C.const) xs k := by
  refine ⟨rfl, fun x hx v off hv hoff => ?_⟩
  obtain ⟨v', base, hv', hb, h0⟩ := hxs x hx
  cases hv.symm.trans hv'
  obtain rfl : s.depth - base - v.offset.toNat = off := by
    rw [Gen.slot_eq hv hb h0] at hoff
    cases hoff
    rfl
  obtain ⟨d, hd⟩ := Option.isSome_iff_exists.1 (hset x hx)
  obtain ⟨hload, his⟩ := h.vars x v base d ⟨hv, hb⟩ hd
  have hvar : (σ.env C.const).var x = d := by
    show (σ x).getD _ = d
    rw [hd, Option.getD_some]
  obtain ⟨-, hroof⟩ := h.home_le hw hat ⟨hv, hb⟩
  have hdepth := h.depth
  rw [hvar, slot_eq h.depth]
  refine ⟨?_, hload, his _ _ _⟩
  unfold home at hroof
  omega

end Live

/-! ## Expressions and variables -/

section
variable {sc : ScopeId} {e : Expr}

theorem Live.ready (h : C.Live T s σ k) (hfloor : C.floor = 0) {n : Nat} (hroom : C.need + n ≤ k.sp) :
    C.Ready s.depth n k := ⟨h.depth, by omega⟩

theorem Emits.evaluates (hfloor : C.floor = 0) (hw : T.Wf) (he : e.Typed T sc) (hat : Around T sc s) :
    C.Emits T s (Gen.expr e pool) 0 fun out => ∀ σ k, C.Live T s σ k → C.need + (4 * e.size + 16) ≤ k.sp →
      (∀ x ∈ e.vars, (σ x).isSome = true) → C.system.Yields out k (e.eval (σ.env C.const)) fun d k' =>
        k'.reg Gen.result = d.word ∧ (∃ m floor limit, d.Has m floor limit e.type) ∧ Core.Frame 0 pool k k' := by
  have hcovers : Gen.Covers T s sc := hat.covers hw
  have hv : ∀ x ∈ e.vars, Gen.HasSlot T s x := fun x hx => by
    obtain ⟨v, hv, henc⟩ := he.enclosed hx
    exact hcovers x v hv henc
  refine (expr_yields (C := C) he .r4 pool.tail s Gen.pool_free (by decide) hv).weaken ?_
  intro out hout σ k hlive hroom hset
  have hr := hlive.represents hw hat hv hset
  have hagrees := he.agrees (hr.shows hv)
  have hyields := hout (C.view (σ.env C.const) k) k.sp k (hr.start hv (hlive.ready hfloor hroom)) hagrees.safe
  rw [hagrees.word] at hyields
  rw [hfloor] at hyields
  cases heval : e.eval (σ.env C.const) with
  | none =>
    rw [heval] at hyields
    exact hyields
  | some d =>
    rw [heval, Option.map_some] at hyields
    have hdoes : C.system.Does out k fun k' => k'.reg .r4 = d.word ∧ Core.Frame 0 pool k k' := hyields
    exact System.Yields.of_does (hdoes.weaken fun k' ⟨hvalue, hframe⟩ =>
      ⟨hvalue, ⟨_, _, _, hagrees.has d heval⟩, hframe⟩)

/-- The value of an expression is in the first register, and the stack is as before. -/
structure Computed (t : Ty) (k : Core) (x : Datum) (k' : Core) : Prop where
  value : k'.reg Gen.result = x.word
  has : ∃ m floor limit, x.Has m floor limit t
  frame : Core.Frame 0 pool k k'

theorem Emits.runs (hfloor : C.floor = 0) (hw : T.Wf) (he : e.Typed T sc) (hat : Around T sc s) :
    C.Emits T s (Gen.expr e pool) 0 fun out => ∀ (H : Host) n σ k pos tr, H.const = C.const →
      C.system.image.Has pos out → C.Live T s σ k → C.need + (4 * e.size + 16) ≤ k.sp →
      C.system.Meets n ⟨k, pos, tr⟩ (e.run H σ) fun x s' =>
        s'.pc = pos + out.length ∧ Computed e.type k x s'.toCore := by
  refine (Emits.evaluates hfloor hw he hat).weaken fun out hout H n σ k pos tr hconst hhas hlive hroom => ?_
  rw [Expr.run, hconst]
  split_ifs with hset
  · have hset : ∀ x ∈ e.vars, (σ x).isSome = true := by simpa using hset
    exact ((hout σ k hlive hroom hset).meets hhas _).weaken fun x s' _ ⟨hpc, hv, hh, hf⟩ => ⟨hpc, hv, hh, hf⟩
  · trivial

theorem Emits.stores (hw : T.Wf) (hat : Around T sc s) {x : VarId} {v : Variable} {r : Reg} (hx : T.var? x = some v)
    (henc : T.Encloses sc v.scope) (hr : r ≠ scratch) (ht : v.type.isScalar = true) :
    C.Emits T s (Gen.storeVar r x) 0 fun out => ∀ σ k d, C.Live T s σ k → k.reg r = d.word → d.Is v.type →
      C.system.Does out k fun k' => C.Live T s (σ.set x d) k' ∧ C.Stays T s k k' := by
  obtain ⟨v', base, hv', hb, h0⟩ := hat.covers hw x v hx henc
  cases hx.symm.trans hv'
  obtain ⟨out, hrun, hdoes⟩ := Gen.store_lines (T := T) (s := s) (b := .sp) r (by decide)
    (s.depth - base - v.offset.toNat) v.type
  refine (Gen.wp_bind_pure (Gen.slot_eq hx hb h0)).2 ⟨(), out, s, hrun, .refl s, fun _ σ k d hlive hval hd => ?_⟩
  refine (hdoes C.system k).weaken fun k' ⟨⟨w, hmem, hw'⟩, hregs⟩ => ?_
  rw [hw' hr, slot_eq hlive.depth, hval] at hmem
  exact hlive.set hw hat ⟨hx, hb⟩ hd ht (hregs .sp (by decide)) hmem

end

/-! ## Scopes -/

structure Inside (T : Table) (i : ScopeId) (r : Scope) (s s₁ : Stage) : Prop where
  scope : T.scope? i = some r
  depth : s₁.depth = s.depth + r.footprint.toNat
  entry : s₁.entry = (i, s.depth) :: s.entry
  fresh : ∀ o base, s.entry.lookup o = some base → o ≠ i

theorem Emits.within {i : ScopeId} {r : Scope} {x : Gen Unit} {sem : Stage → List Line → Prop}
    (hr : T.scope? i = some r) (hfilter : s.entry.filter (fun e => e.1 != i) = s.entry)
    (hx : ∀ s₁, Inside T i r s s₁ → C.Emits T s₁ x 0 (sem s₁)) :
    C.Emits T s (do Gen.enter i; x; Gen.leave i) 0 fun out => ∃ s₁ o, Inside T i r s s₁ ∧
      out = (Gen.stepsOf .sub r.footprint.toNat).map .instr ++ (o ++ (Gen.stepsOf .add r.footprint.toNat).map .instr) ∧
      sem s₁ o := by
  have hfresh : ∀ o base, s.entry.lookup o = some base → o ≠ i := by
    intro o base ho
    obtain ⟨l1, l2, hentry, -⟩ := List.lookup_eq_some_iff.1 ho
    simpa using List.filter_eq_self.1 hfilter (o, base) (by rw [hentry]; simp)
  refine Gen.Wp.seq (P := fun _ out s₁ => out = (Gen.stepsOf .sub r.footprint.toNat).map .instr ∧
    Inside T i r s s₁ ∧ s₁.used = s.used ∧ s₁.shared = s.shared) ?_ ?_
  · refine Gen.wp_update.2 ((Gen.wp_bind_pure (Gen.footprint_eq hr)).2 ?_)
    exact ⟨(), _, _, rfl, List.append_nil _, ⟨hr, rfl, rfl, hfresh⟩, rfl, rfl⟩
  rintro _ _ s₁ ⟨rfl, hin, hused, hshared⟩
  refine Gen.Wp.seq (hx s₁ hin) fun _ o s2 ⟨hs2, hsem⟩ => ?_
  refine (Gen.wp_bind_pure (Gen.footprint_eq hr)).2 ?_
  refine Gen.Wp.seq (Emits.shrink (C := C)) fun _ o' s3 ⟨hs3, ho'⟩ => Gen.wp_stage.2 ?_
  have hd3 : s3.depth = s.depth := by rw [hs3.depth, hs2.depth, hin.depth]; ring
  have he3 : s3.entry = (i, s.depth) :: s.entry := by rw [hs3.entry, hs2.entry, hin.entry]
  rw [if_neg (by simp [he3, hd3])]
  refine ⟨(), [], _, rfl, ⟨by simp [hd3], ?_, fun q hq => ?_, fun t n ht => ?_⟩, fun hc => ?_⟩
  · simp only [he3, List.filter_cons, bne_self_eq_false, Bool.false_eq_true, if_false, hfilter]
  · exact hs3.used q (hs2.used q (hused ▸ hq))
  · exact hs3.shared t n (hs2.shared t n (hshared ▸ ht))
  · have hc3 : C.Covers s3 := ⟨hc.routines, hc.consts⟩
    refine ⟨s₁, o, hin, ?_, hsem (hc3.back hs3)⟩
    rw [ho' hc3, List.append_nil, Int.toNat_natCast]

theorem Inside.at_block {i : ScopeId} {r : Scope} {s₁ : Stage} (hin : Inside T i r s s₁) (hat : Gen.At T sc s)
    (hb : T.IsBlock sc i) : Gen.At T i s₁ := by
  obtain ⟨r', hr, hk, hp⟩ := hb
  cases hr.symm.trans hin.scope
  unfold Gen.At
  rw [hin.depth, hin.entry]
  exact .block hat hr hk hp

namespace Inside

variable {i : ScopeId} {r : Scope} {s₁ : Stage} {v : Variable}

theorem owns (hin : Inside T i r s s₁) {x : VarId} {base : Int} (hx : s.Owns T x v base) : s₁.Owns T x v base := by
  refine ⟨hx.var, ?_⟩
  rw [hin.entry, List.lookup_cons, beq_false_of_ne (hin.fresh _ _ hx.entry)]
  exact hx.entry

theorem owns_cases (hin : Inside T i r s s₁) {x : VarId} {base : Int} (hx : s₁.Owns T x v base) :
    v.scope = i ∧ base = s.depth ∨ s.Owns T x v base := by
  have he := hx.entry
  rw [hin.entry] at he
  exact (lookup_entry he).imp_right fun h => ⟨hx.var, h⟩

theorem enter (hin : Inside T i r s s₁) (h : C.Live T s σ k) (hroom : r.footprint.toNat ≤ k.sp)
    (hk : k' = k.set .sp (k.reg .sp - BitVec.ofNat 32 r.footprint.toNat)) :
    C.Live T s₁ (σ.enter T i) k' ∧ k'.sp = k.sp - r.footprint.toNat := by
  have hsp : k'.sp = k.sp - r.footprint.toNat := by
    rw [hk]
    simp only [Core.sp] at hroom ⊢
    rw [Core.set_reg, if_pos rfl, BitVec.toNat_sub, BitVec.toNat_ofNat]
    omega
  have hdepth := h.depth
  refine ⟨⟨?_, fun o base ho => ?_, fun x v base d hx hd => ?_⟩, hsp⟩
  · rw [hsp, hin.depth]
    omega
  · rw [hin.entry] at ho
    obtain ⟨-, rfl⟩ | ho := lookup_entry ho
    · simp only [Core.sp] at hdepth
      omega
    · exact h.roof o base ho
  · have hne : v.scope ≠ i := by
      rintro rfl
      simp [Store.enter, hx.var] at hd
    rw [Store.enter, hx.var, if_neg (by simpa using hne)] at hd
    rw [show k'.mem = k.mem by rw [hk]; rfl]
    exact h.vars x v base d ((hin.owns_cases hx).resolve_left fun h => hne h.1) hd

theorem kept (hin : Inside T i r s s₁) (hw : T.Wf) (h : C.Live T s σ k) (hroom : r.footprint.toNat ≤ k.sp)
    (hk : k' = k.set .sp (k.reg .sp - BitVec.ofNat 32 r.footprint.toNat)) {a : Word} (ha : C.Kept T s k a) :
    C.Kept T s₁ k' a ∧ k'.mem a = k.mem a := by
  obtain ⟨-, hsp⟩ := hin.enter h hroom hk
  have hdepth := h.depth
  have hle := ha.1
  refine ⟨⟨by omega, fun x v base hx => ?_⟩, by rw [hk]; rfl⟩
  obtain ⟨-, rfl⟩ | hx := hin.owns_cases hx
  · obtain ⟨-, -, hsize, -⟩ := hw.room x v hx.var
    unfold home
    omega
  · exact ha.2 x v base hx

theorem leave (hin : Inside T i r s s₁) (hw : T.Wf) {k1 k2 k3 : Core} {σ' : Store} (h : C.Live T s σ k)
    (hroom : r.footprint.toNat ≤ k.sp) (hk1 : k1 = k.set .sp (k.reg .sp - BitVec.ofNat 32 r.footprint.toNat))
    (h2 : C.Live T s₁ σ' k2) (hstays : C.Stays T s₁ k1 k2)
    (hk3 : k3 = k2.set .sp (k2.reg .sp + BitVec.ofNat 32 r.footprint.toNat)) :
    C.Live T s σ' k3 ∧ C.Stays T s k k3 := by
  have hsp : k3.reg .sp = k.reg .sp := by
    rw [hk3, Core.set_reg, if_pos rfl, hstays.sp, hk1, Core.set_reg, if_pos rfl, BitVec.sub_add_cancel]
  have hspn : k3.sp = k.sp := by rw [Core.sp, hsp, Core.sp]
  have hmem : k3.mem = k2.mem := by rw [hk3]; rfl
  refine ⟨⟨hspn ▸ h.depth, h.roof, fun x v base d hx hd => ?_⟩, hsp, fun a ha => ?_⟩
  · rw [hmem]
    exact h2.vars x v base d (hin.owns hx) hd
  · obtain ⟨ha1, hmem1⟩ := hin.kept hw h hroom hk1 ha
    rw [hmem, hstays.mem a ha1, hmem1]

end Inside

end Context

end Arm

end Wacc
