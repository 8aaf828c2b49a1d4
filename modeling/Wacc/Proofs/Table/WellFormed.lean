/-
  Well-formed symbol tables.
-/
import Wacc.Table.Basic
import Wacc.Proofs.Token.Spelling

namespace Wacc

def Scope.add (s : Scope) (x : VarId) (v : Variable) : Scope :=
  { s with vars := s.vars ++ [x], footprint := v.offset, names := s.names ++ [(v.name, x)] }

namespace Table

/-! ## Access by number -/

section
variable {α : Type} {a : Array α} {x : α} {id : UInt32}

def numbered (a : Array α) (id : UInt32) : Option α := (index? id).bind fun i => a[i]?

theorem numbered_eq_some : numbered a id = some x ↔ ∃ i, id.toNat = i + 1 ∧ a[i]? = some x := by
  have h0 : id = 0 ↔ id.toNat = 0 := by rw [← UInt32.toNat_inj]; rfl
  by_cases h : id = 0
  · simp only [numbered, index?, if_pos h, Option.bind_none, reduceCtorEq, false_iff]
    have := h0.1 h
    omega
  · have hn : id.toNat ≠ 0 := fun hn => h (h0.2 hn)
    simp only [numbered, index?, if_neg h, Option.bind_some]
    constructor
    · intro hx
      exact ⟨id.toNat - 1, by omega, hx⟩
    · rintro ⟨i, hi, hx⟩
      rwa [show id.toNat - 1 = i by omega]

theorem numbered_lt (h : numbered a id = some x) : 0 < id.toNat ∧ id.toNat ≤ a.size := by
  obtain ⟨i, hi, hx⟩ := numbered_eq_some.1 h
  have := (Array.getElem?_eq_some_iff.1 hx).1
  omega

theorem numbered_of_lt (h0 : 0 < id.toNat) (h : id.toNat ≤ a.size) : ∃ x, numbered a id = some x :=
  ⟨a[id.toNat - 1], numbered_eq_some.2 ⟨id.toNat - 1, by omega, by simp⟩⟩

theorem numbered_push_new (h : id.toNat = a.size + 1) : numbered (a.push x) id = some x :=
  numbered_eq_some.2 ⟨a.size, h, by simp⟩

theorem numbered_push_old (h : id.toNat ≠ a.size + 1) : numbered (a.push x) id = numbered a id := by
  ext y
  rw [numbered_eq_some, numbered_eq_some]
  refine exists_congr fun i => and_congr_right fun hi => ?_
  rw [Array.getElem?_push, if_neg (by omega)]

theorem numbered_modify (f : α → α) (i : Nat) :
    numbered (a.modify i f) id = (numbered a id).map fun y => if id.toNat = i + 1 then f y else y := by
  ext y
  simp only [numbered_eq_some, Option.map_eq_some_iff, Array.getElem?_modify]
  constructor
  · rintro ⟨j, hj, hy⟩
    split_ifs at hy with hij
    · obtain ⟨z, hz, rfl⟩ := Option.map_eq_some_iff.1 hy
      exact ⟨z, ⟨j, hj, hz⟩, if_pos (by omega)⟩
    · exact ⟨y, ⟨j, hj, hy⟩, if_neg (by omega)⟩
  · rintro ⟨z, ⟨j, hj, hz⟩, rfl⟩
    refine ⟨j, hj, ?_⟩
    by_cases hij : i = j
    · rw [if_pos hij, if_pos (by omega), hz]; rfl
    · rw [if_neg hij, if_neg (by omega), hz]

theorem toNat_number {n : Nat} (h : n + 1 < 2 ^ 32) : (n + 1).toUInt32.toNat = n + 1 :=
  UInt32.toNat_ofNat_of_lt' h

end

variable {T T' : Table} {T'' : Table} {ps : List VarId} {base top : Nat}

theorem scope?_eq (id : ScopeId) : T.scope? id = numbered T.scopes id := rfl

theorem var?_eq (id : VarId) : T.var? id = numbered T.vars id := rfl

theorem func?_eq (id : FuncId) : T.func? id = numbered T.funcs id := rfl

theorem scope?_zero : T.scope? 0 = none := rfl

theorem modifyScope_scope? (id x : ScopeId) (f : Scope → Scope) :
    (T.modifyScope id f).scope? x = (T.scope? x).map fun s => if x = id then f s else s := by
  by_cases h0 : id = 0
  · cases hx : T.scope? x with
    | none => rw [h0, show T.modifyScope 0 f = T from rfl, hx]; rfl
    | some s =>
      have hne : x ≠ id := by rintro rfl; rw [h0, scope?_zero] at hx; cases hx
      rw [h0, show T.modifyScope 0 f = T from rfl, hx, Option.map_some, if_neg (h0 ▸ hne)]
  · have hid : id.toNat ≠ 0 := fun h => h0 (UInt32.toNat_inj.1 h)
    simp only [modifyScope, index?, if_neg h0]
    rw [scope?_eq, numbered_modify, ← scope?_eq]
    have : x.toNat = id.toNat - 1 + 1 ↔ x = id := by rw [← UInt32.toNat_inj]; omega
    simp only [this]

@[simp] theorem modifyScope_vars (id : ScopeId) (f : Scope → Scope) :
    (T.modifyScope id f).vars = T.vars := by unfold modifyScope; split <;> rfl

@[simp] theorem modifyScope_funcs (id : ScopeId) (f : Scope → Scope) :
    (T.modifyScope id f).funcs = T.funcs := by unfold modifyScope; split <;> rfl

@[simp] theorem size_modifyScope (id : ScopeId) (f : Scope → Scope) :
    (T.modifyScope id f).scopes.size = T.scopes.size := by
  unfold modifyScope; split <;> simp

theorem modifyFunc_func? (id x : FuncId) (f : Signature → Signature) :
    (T.modifyFunc id f).func? x = (T.func? x).map fun g => if x = id then f g else g := by
  by_cases h0 : id = 0
  · cases hx : T.func? x with
    | none => rw [h0, show T.modifyFunc 0 f = T from rfl, hx]; rfl
    | some s =>
      have hne : x ≠ id := by
        rintro rfl
        rw [h0] at hx
        exact absurd (numbered_lt hx).1 (by simp)
      rw [h0, show T.modifyFunc 0 f = T from rfl, hx, Option.map_some, if_neg (h0 ▸ hne)]
  · have hid : id.toNat ≠ 0 := fun h => h0 (UInt32.toNat_inj.1 h)
    simp only [modifyFunc, index?, if_neg h0]
    rw [func?_eq, numbered_modify, ← func?_eq]
    have : x.toNat = id.toNat - 1 + 1 ↔ x = id := by rw [← UInt32.toNat_inj]; omega
    simp only [this]

theorem modifyFunc_scopes (f : FuncId) (h : Signature → Signature) :
    (T.modifyFunc f h).scopes = T.scopes := by unfold modifyFunc; split <;> rfl

theorem modifyFunc_vars (f : FuncId) (h : Signature → Signature) :
    (T.modifyFunc f h).vars = T.vars := by unfold modifyFunc; split <;> rfl

theorem modifyFunc_names (f : FuncId) {h : Signature → Signature} (hn : ∀ g, (h g).name = g.name) :
    (T.modifyFunc f h).funcs.toList.map (·.name) = T.funcs.toList.map (·.name) := by
  unfold modifyFunc
  split
  · rfl
  · refine List.ext_getElem? fun i => ?_
    simp only [List.getElem?_map, Array.getElem?_toList, Array.getElem?_modify]
    split_ifs
    · cases T.funcs[i]? <;> simp [hn]
    · rfl

/-! ## Well-formedness -/

/-- What opening scopes and declaring variables has cost so far; it bounds all numbers and
    offsets. -/
def cost (T : Table) : Nat := T.scopes.size + 4 * T.vars.size

def Placed (T : Table) (id : ScopeId) (s : Scope) : Prop :=
  match s.kind with
  | .global => id = global ∧ s.parent = 0
  | .function => s.parent = global ∧ ∃ g, T.func? s.func = some g ∧ g.scope = id
  | .block => s.parent.toNat < id.toNat ∧ ∃ p, T.scope? s.parent = some p
  | _ => False

def Apart (v w : Variable) : Prop :=
  v.offset.toNat + w.type.size.toNat ≤ w.offset.toNat ∨
    w.offset.toNat + v.type.size.toNat ≤ v.offset.toNat

structure Wf (T : Table) : Prop where
  small : T.cost < 2 ^ 32
  few : T.funcs.size < T.scopes.size
  root : ∃ s, T.scope? global = some s ∧ s.kind = .global
  placed : ∀ id s, T.scope? id = some s → Placed T id s
  names : ∀ id s n x, T.scope? id = some s → (n, x) ∈ s.names →
    ∃ v, T.var? x = some v ∧ v.scope = id ∧ v.name = n
  room : ∀ x v, T.var? x = some v → ∃ s, T.scope? v.scope = some s ∧
    v.type.size.toNat ≤ v.offset.toNat ∧ v.offset.toNat ≤ s.footprint.toNat
  footprint : ∀ id s, T.scope? id = some s → s.footprint.toNat ≤ 4 * T.vars.size
  apart : ∀ x y v w, T.var? x = some v → T.var? y = some w → x ≠ y → v.scope = w.scope → Apart v w
  funcs : ∀ f g, T.func? f = some g → ∃ s, T.scope? g.scope = some s ∧ s.kind = .function ∧ s.func = f
  nodup : (T.funcs.toList.map (·.name)).Nodup
  spelled : ∀ n ∈ T.funcs.toList.map (·.name), IsName n

theorem Wf.isName (hw : T.Wf) {f : FuncId} {g : Signature} (hg : T.func? f = some g) : IsName g.name := by
  obtain ⟨i, -, hi⟩ := numbered_eq_some.1 hg
  refine hw.spelled _ (List.mem_map.2 ⟨g, ?_, rfl⟩)
  exact Array.mem_toList_iff.2 (Array.mem_of_getElem? hi)

def LaidFrom (T : Table) (scope : ScopeId) (base : Nat) : List VarId → Nat → Prop
  | [], top => base = top
  | p :: ps, top => ∃ v, T.var? p = some v ∧ v.scope = scope ∧
      v.offset.toNat = base + v.type.size.toNat ∧ LaidFrom T scope v.offset.toNat ps top

def Laid (T : Table) : Prop :=
  ∀ f g, T.func? f = some g → ∃ s, T.scope? g.scope = some s ∧
    LaidFrom T g.scope 0 g.params s.footprint.toNat

structure Grows (T T' : Table) : Prop where
  scopes : ∀ id s, T.scope? id = some s → ∃ s', T'.scope? id = some s' ∧ s'.kind = s.kind ∧
    s'.parent = s.parent ∧ s'.func = s.func ∧ s.footprint.toNat ≤ s'.footprint.toNat
  vars : ∀ x v, T.var? x = some v → T'.var? x = some v

/-- A table that has grown by opening blocks and declaring variables, at a cost of at most `n`. -/
structure Extends (T : Table) (n : Nat) (T' : Table) : Prop where
  grows : T.Grows T'
  funcs : T'.funcs = T.funcs
  wf : T'.Wf
  laid : T'.Laid
  cost : T'.cost ≤ T.cost + n

theorem Grows.refl (T : Table) : T.Grows T := ⟨fun _ s h => ⟨s, h, rfl, rfl, rfl, le_rfl⟩, fun _ _ h => h⟩

theorem Grows.trans (h : T.Grows T') (h' : T'.Grows T'') : T.Grows T'' := by
  refine ⟨fun id s hs => ?_, fun x v hv => h'.vars x v (h.vars x v hv)⟩
  obtain ⟨s', hs', hk, hp, hf, hle⟩ := h.scopes id s hs
  obtain ⟨s'', hs'', hk', hp', hf', hle'⟩ := h'.scopes id s' hs'
  exact ⟨s'', hs'', hk'.trans hk, hp'.trans hp, hf'.trans hf, hle.trans hle'⟩

theorem Extends.refl (hw : T.Wf) (hl : T.Laid) (n : Nat) : T.Extends n T :=
  ⟨.refl T, rfl, hw, hl, Nat.le_add_right _ _⟩

theorem Extends.trans {m n : Nat} (h : T.Extends m T') (h' : T'.Extends n T'') : T.Extends (m + n) T'' :=
  ⟨h.grows.trans h'.grows, h'.funcs.trans h.funcs, h'.wf, h'.laid, by
    have := h.cost; have := h'.cost; omega⟩

theorem Extends.weaken {m n : Nat} (h : T.Extends m T') (hmn : m ≤ n) : T.Extends n T' :=
  ⟨h.grows, h.funcs, h.wf, h.laid, h.cost.trans (by omega)⟩

theorem LaidFrom.mono {scope : ScopeId} (hv : ∀ x v, T.var? x = some v → T'.var? x = some v)
    (h : LaidFrom T scope base ps top) : LaidFrom T' scope base ps top := by
  induction ps generalizing base with
  | nil => exact h
  | cons p ps ih =>
    obtain ⟨v, hp, hs, ho, hl⟩ := h
    exact ⟨v, hv p v hp, hs, ho, ih hl⟩

theorem LaidFrom.snoc {scope : ScopeId} {p : VarId} {v : Variable} (h : LaidFrom T scope base ps top)
    (hp : T.var? p = some v) (hs : v.scope = scope) (ho : v.offset.toNat = top + v.type.size.toNat) :
    LaidFrom T scope base (ps ++ [p]) v.offset.toNat := by
  induction ps generalizing base with
  | nil => exact ⟨v, hp, hs, by rw [ho, show base = top from h], rfl⟩
  | cons q qs ih =>
    obtain ⟨w, hq, hws, hwo, hl⟩ := h
    exact ⟨w, hq, hws, hwo, ih hl⟩

/-! ## Opening scopes -/

/-- The table `T'` has the scope `new` more than `T`, with the number `id`. -/
structure Opens (T : Table) (new : Scope) (id : ScopeId) (T' : Table) : Prop where
  number : id.toNat = T.scopes.size + 1
  size : T'.scopes.size = T.scopes.size + 1
  parent : ∃ p, T.scope? new.parent = some p
  vars : T'.vars = T.vars
  scope? : ∀ y, T'.scope? y = if y = id then some new else (T.scope? y).map fun t =>
    { t with children := t.children ++ if y = new.parent then [id] else [] }

theorem size_newScope {kind : ScopeKind} {parent : ScopeId} {span : Span} {func : FuncId} :
    (T.newScope kind parent span func).2.scopes.size = T.scopes.size + 1 := by simp [newScope]

theorem newScope_funcs {kind : ScopeKind} {parent : ScopeId} {span : Span} {func : FuncId} :
    (T.newScope kind parent span func).2.funcs = T.funcs := by simp [newScope]

theorem newScope_opens {kind : ScopeKind} {parent : ScopeId} {span : Span} {func : FuncId} {p : Scope}
    (hp : T.scope? parent = some p) (hsize : T.scopes.size + 1 < 2 ^ 32) :
    Opens T { kind, parent, span, func } (T.scopes.size + 1).toUInt32
      (T.newScope kind parent span func).2 := by
  have hnum := toNat_number hsize
  have hne : parent ≠ (T.scopes.size + 1).toUInt32 := by
    rintro rfl
    have := (numbered_lt hp).2
    omega
  refine ⟨hnum, size_newScope, ⟨p, hp⟩, by simp [newScope], fun y => ?_⟩
  simp only [newScope, modifyScope_scope?]
  by_cases hy : y = (T.scopes.size + 1).toUInt32
  · rw [scope?_eq, numbered_push_new (hy ▸ hnum), Option.map_some, if_pos hy, if_neg (hy ▸ hne.symm)]
  · rw [scope?_eq, numbered_push_old fun h => hy (UInt32.toNat_inj.1 (h.trans hnum.symm)), ← scope?_eq,
      if_neg hy]
    refine congrArg (fun f => (T.scope? y).map f) (funext fun t => ?_)
    split_ifs
    · rfl
    · rw [List.append_nil]

section
variable {new : Scope} {id : ScopeId} {y : ScopeId}

theorem Opens.absent (h : Opens T new id T') : T.scope? id = none := by
  cases hid : T.scope? id with
  | none => rfl
  | some s =>
    have := (numbered_lt hid).2
    have := h.number
    omega

theorem Opens.here (h : Opens T new id T') : T'.scope? id = some new := by rw [h.scope?, if_pos rfl]

theorem Opens.old (h : Opens T new id T') {t : Scope} (hy : T.scope? y = some t) :
    T'.scope? y = some { t with children := t.children ++ if y = new.parent then [id] else [] } := by
  have hne : y ≠ id := by rintro rfl; rw [h.absent] at hy; cases hy
  rw [h.scope?, if_neg hne, hy, Option.map_some]

theorem Opens.cases (h : Opens T new id T') {t' : Scope} (hy : T'.scope? y = some t') :
    y = id ∧ t' = new ∨ ∃ t, T.scope? y = some t ∧
      t' = { t with children := t.children ++ if y = new.parent then [id] else [] } := by
  rw [h.scope?] at hy
  by_cases hid : y = id
  · rw [if_pos hid] at hy
    exact .inl ⟨hid, (Option.some.inj hy).symm⟩
  · rw [if_neg hid] at hy
    obtain ⟨t, ht, rfl⟩ := Option.map_eq_some_iff.1 hy
    exact .inr ⟨t, ht, rfl⟩

theorem Opens.var? (h : Opens T new id T') (x : VarId) : T'.var? x = T.var? x := by
  rw [var?_eq, h.vars, var?_eq]

theorem Opens.grows (h : Opens T new id T') : T.Grows T' :=
  ⟨fun _ _ hs => ⟨_, h.old hs, rfl, rfl, rfl, le_rfl⟩, fun x _ hv => (h.var? x).trans hv⟩

theorem Opens.cost (h : Opens T new id T') : T'.cost = T.cost + 1 := by
  simp only [Table.cost, h.size, h.vars]; omega

theorem Opens.laid (h : Opens T new id T') (hl : T.Laid) (hfp : new.footprint = 0)
    (hf : ∀ f g, T'.func? f = some g → T.func? f = some g ∨ g.scope = id ∧ g.params = []) : T'.Laid := by
  intro f g hg
  rcases hf f g hg with hg | ⟨hscope, hparams⟩
  · obtain ⟨s, hs, hlaid⟩ := hl f g hg
    exact ⟨_, h.old hs, hlaid.mono h.grows.vars⟩
  · exact ⟨new, hscope ▸ h.here, by rw [hparams, hfp]; rfl⟩

theorem Opens.wf (h : Opens T new id T') (hw : T.Wf) (hc : T.cost + 1 < 2 ^ 32)
    (hfew : T'.funcs.size < T'.scopes.size) (hplace : Placed T' id new) (hnames : new.names = [])
    (hfp : new.footprint = 0) (hkeep : ∀ f g, T.func? f = some g → T'.func? f = some g)
    (hback : ∀ f g, T'.func? f = some g →
      T.func? f = some g ∨ g.scope = id ∧ new.kind = .function ∧ new.func = f)
    (hnodup : (T'.funcs.toList.map (·.name)).Nodup)
    (hspelled : ∀ n ∈ T'.funcs.toList.map (·.name), IsName n) : T'.Wf := by
  obtain ⟨r, hroot, hrk⟩ := hw.root
  refine ⟨lt_of_eq_of_lt h.cost hc, hfew, ⟨_, h.old hroot, hrk⟩, fun y t' hy => ?_, fun y t' n x hy hn => ?_,
    fun x v hv => ?_, fun y t' hy => ?_, fun x y v w hx hy => ?_, fun f g hg => ?_, hnodup, hspelled⟩
  · rcases h.cases hy with ⟨rfl, rfl⟩ | ⟨t, ht, rfl⟩
    · exact hplace
    · have := hw.placed y t ht
      simp only [Placed] at this ⊢
      cases hkind : t.kind <;> simp only [hkind] at this ⊢
      · exact this
      · obtain ⟨hp, g, hg, hgs⟩ := this
        exact ⟨hp, g, hkeep _ g hg, hgs⟩
      · obtain ⟨hlt, q, hq⟩ := this
        exact ⟨hlt, _, h.old hq⟩
  · rw [h.var?]
    rcases h.cases hy with ⟨rfl, rfl⟩ | ⟨t, ht, rfl⟩
    · simp [hnames] at hn
    · exact hw.names y t n x ht hn
  · rw [h.var?] at hv
    obtain ⟨s, hs, h1, h2⟩ := hw.room x v hv
    exact ⟨_, h.old hs, h1, h2⟩
  · rw [h.vars]
    rcases h.cases hy with ⟨rfl, rfl⟩ | ⟨t, ht, rfl⟩
    · simp [hfp]
    · exact hw.footprint y t ht
  · rw [h.var?] at hx hy
    exact hw.apart x y v w hx hy
  · rcases hback f g hg with hg | ⟨rfl, hk, hf⟩
    · obtain ⟨s, hs, hk, hf⟩ := hw.funcs f g hg
      exact ⟨_, h.old hs, hk, hf⟩
    · exact ⟨new, h.here, hk, hf⟩

end

def IsBlock (T : Table) (sc i : ScopeId) : Prop :=
  ∃ s, T.scope? i = some s ∧ s.kind = .block ∧ s.parent = sc

theorem IsBlock.mono (h : T.Grows T') {sc i : ScopeId} (hb : T.IsBlock sc i) : T'.IsBlock sc i := by
  obtain ⟨s, hs, hk, hp⟩ := hb
  obtain ⟨s', hs', hk', hp', -, -⟩ := h.scopes i s hs
  exact ⟨s', hs', hk'.trans hk, hp'.trans hp⟩

theorem newBlock_extends {parent : ScopeId} {p : Scope} (span : Span) (hw : T.Wf) (hl : T.Laid)
    (hc : T.cost + 1 < 2 ^ 32) (hp : T.scope? parent = some p) :
    T.Extends 1 (T.newBlock parent span).2 ∧
      (T.newBlock parent span).2.IsBlock parent (T.newBlock parent span).1 := by
  have h : Opens T { kind := .block, parent, span } (T.newBlock parent span).1 (T.newBlock parent span).2 :=
    newScope_opens hp (by simp only [cost] at hc; omega)
  have hfuncs : (T.newBlock parent span).2.funcs = T.funcs := newScope_funcs
  have hf : ∀ f, (T.newBlock parent span).2.func? f = T.func? f := fun f => by
    rw [func?_eq, hfuncs, func?_eq]
  refine ⟨⟨h.grows, hfuncs, ?_, h.laid hl rfl fun f g hg => .inl ((hf f).symm.trans hg), h.cost.le⟩,
    _, h.here, rfl, rfl⟩
  refine h.wf hw hc (by rw [h.size, hfuncs]; have := hw.few; omega) ⟨?_, _, h.old hp⟩ rfl rfl
    (fun f g hg => (hf f).trans hg) (fun f g hg => .inl ((hf f).symm.trans hg)) (by rw [hfuncs]; exact hw.nodup)
    (by rw [hfuncs]; exact hw.spelled)
  have := (numbered_lt hp).2
  rw [h.number]
  exact Nat.lt_succ_of_le this

/-! ## Declaring variables -/

/-- The table `T'` has the variable `v` more than `T`, with the number `x`; `s` is the scope of `v`
    before. -/
structure Adds (T : Table) (s : Scope) (x : VarId) (v : Variable) (T' : Table) : Prop where
  number : x.toNat = T.vars.size + 1
  size : T'.vars.size = T.vars.size + 1
  scopes : T'.scopes.size = T.scopes.size
  before : T.scope? v.scope = some s
  unknown : s.names.lookup v.name = none
  offset : v.offset = s.footprint + v.type.size
  var? : ∀ y, T'.var? y = if y = x then some v else T.var? y
  scope? : ∀ y, T'.scope? y = (T.scope? y).map fun t => if y = v.scope then t.add x v else t

theorem size_pos (t : Ty) : 1 ≤ t.size.toNat ∧ t.size.toNat ≤ 4 := by
  cases t <;> simp [Ty.size]

section
variable {id : ScopeId} {s : Scope} {name : Text} {type : Ty} {span : Span} {param : Bool}

theorem declareIn_known {old : VarId} (hn : s.names.lookup name = some old) :
    T.declareIn id s name type span param = (⟨old, false⟩, T) := by simp only [declareIn, hn]

def declared (id : ScopeId) (s : Scope) (name : Text) (type : Ty) (span : Span) (param : Bool) : Variable :=
  { name, type, scope := id, offset := s.footprint + type.size, span, param }

theorem declareIn_unknown (hn : s.names.lookup name = none) :
    T.declareIn id s name type span param = (⟨(T.vars.size + 1).toUInt32, true⟩,
      { T with vars := T.vars.push (declared id s name type span param) }.modifyScope id
        (·.add (T.vars.size + 1).toUInt32 (declared id s name type span param))) := by
  simp only [declareIn, hn]
  rfl

theorem adds_modifyScope (hs : T.scope? id = some s) (hn : s.names.lookup name = none)
    (hsize : T.vars.size + 1 < 2 ^ 32) :
    Adds T s (T.vars.size + 1).toUInt32 (declared id s name type span param)
      ({ T with vars := T.vars.push (declared id s name type span param) }.modifyScope id
        (·.add (T.vars.size + 1).toUInt32 (declared id s name type span param))) := by
  have hnum := toNat_number hsize
  refine ⟨hnum, by simp, by simp, hs, hn, rfl, fun y => ?_, fun y => ?_⟩
  · simp only [var?_eq, modifyScope_vars]
    by_cases hy : y = (T.vars.size + 1).toUInt32
    · rw [if_pos hy, numbered_push_new (hy ▸ hnum)]
    · rw [if_neg hy, numbered_push_old fun h => hy (UInt32.toNat_inj.1 (h.trans hnum.symm))]
  · rw [modifyScope_scope?]
    rfl

end

theorem Adds.congr {s : Scope} {x : VarId} {v : Variable} (h : Adds T s x v T') (hs : T''.scopes = T'.scopes)
    (hv : T''.vars = T'.vars) : Adds T s x v T'' := by
  obtain ⟨h1, h2, h3, h4, h5, h6, h7, h8⟩ := h
  refine ⟨h1, by rw [hv, h2], by rw [hs, h3], h4, h5, h6, fun y => ?_, fun y => ?_⟩
  · rw [← h7, var?_eq, hv, var?_eq]
  · rw [← h8, scope?_eq, hs, scope?_eq]

section
variable {s : Scope} {x : VarId} {v : Variable} {y : ScopeId}

theorem Adds.absent (h : Adds T s x v T') : T.var? x = none := by
  cases hx : T.var? x with
  | none => rfl
  | some s =>
    have := (numbered_lt hx).2
    have := h.number
    omega

theorem Adds.here (h : Adds T s x v T') : T'.var? x = some v := by rw [h.var?, if_pos rfl]

theorem Adds.old (h : Adds T s x v T') (y : VarId) (w : Variable) (hy : T.var? y = some w) :
    T'.var? y = some w := by
  have hne : y ≠ x := by rintro rfl; rw [h.absent] at hy; cases hy
  rw [h.var?, if_neg hne, hy]

theorem Adds.keeps (h : Adds T s x v T') {t : Scope} (hy : T.scope? y = some t) :
    T'.scope? y = some (if y = v.scope then t.add x v else t) := by
  rw [h.scope?, hy, Option.map_some]

theorem Adds.there (h : Adds T s x v T') : T'.scope? v.scope = some (s.add x v) := by
  rw [h.keeps h.before, if_pos rfl]

theorem Adds.other (h : Adds T s x v T') {t : Scope} (hne : y ≠ v.scope) (hy : T.scope? y = some t) :
    T'.scope? y = some t := by
  rw [h.keeps hy, if_neg hne]

theorem Adds.cases (h : Adds T s x v T') {t' : Scope} (hy : T'.scope? y = some t') :
    y = v.scope ∧ t' = s.add x v ∨ y ≠ v.scope ∧ T.scope? y = some t' := by
  rw [h.scope?] at hy
  obtain ⟨t, ht, rfl⟩ := Option.map_eq_some_iff.1 hy
  by_cases hid : y = v.scope
  · cases h.before.symm.trans (hid ▸ ht)
    exact .inl ⟨hid, if_pos hid⟩
  · exact .inr ⟨hid, by rw [if_neg hid]; exact ht⟩

theorem Adds.var_cases (h : Adds T s x v T') {y : VarId} {w : Variable} (hy : T'.var? y = some w) :
    y = x ∧ w = v ∨ y ≠ x ∧ T.var? y = some w := by
  rw [h.var?] at hy
  split_ifs at hy with hyx
  · exact .inl ⟨hyx, (Option.some.inj hy).symm⟩
  · exact .inr ⟨hyx, hy⟩

theorem Adds.toNat_offset {x : VarId} {v : Variable} (ha : Adds T s x v T')
    (hroom : s.footprint.toNat + v.type.size.toNat < 2 ^ 32) :
    v.offset.toNat = s.footprint.toNat + v.type.size.toNat := by
  rw [ha.offset, UInt32.toNat_add, Nat.mod_eq_of_lt hroom]

theorem Adds.room (h : Adds T s x v T') (hw : T.Wf) (hc : T'.cost < 2 ^ 32) :
    s.footprint.toNat + v.type.size.toNat < 2 ^ 32 := by
  have hle := hw.footprint _ s h.before
  have hsize := size_pos v.type
  simp only [Table.cost, h.size, h.scopes] at hc
  omega

theorem Adds.cost (h : Adds T s x v T') : T'.cost = T.cost + 4 := by
  simp only [Table.cost, h.size, h.scopes]; omega

theorem Adds.grows (h : Adds T s x v T') (hle : s.footprint.toNat ≤ v.offset.toNat) : T.Grows T' := by
  refine ⟨fun y t ht => ⟨_, h.keeps ht, ?_⟩, h.old⟩
  split_ifs with hy
  · cases h.before.symm.trans (hy ▸ ht)
    exact ⟨rfl, rfl, rfl, hle⟩
  · exact ⟨rfl, rfl, rfl, le_rfl⟩

/-- The functions have the same names and scopes. -/
structure SameFuncs (T T' : Table) : Prop where
  names : T'.funcs.toList.map (·.name) = T.funcs.toList.map (·.name)
  scopes : ∀ f, (T'.func? f).map (·.scope) = (T.func? f).map (·.scope)

theorem SameFuncs.of_eq (h : T'.funcs = T.funcs) : SameFuncs T T' :=
  ⟨by rw [h], fun f => by rw [func?_eq, h, func?_eq]⟩

theorem SameFuncs.modifyFunc (f : FuncId) (y : VarId) :
    SameFuncs T (T.modifyFunc f fun g => { g with params := g.params ++ [y] }) := by
  refine ⟨modifyFunc_names f fun _ => rfl, fun k => ?_⟩
  rw [modifyFunc_func?]
  cases T.func? k with
  | none => rfl
  | some g => simp only [Option.map_some]; split_ifs <;> rfl

theorem SameFuncs.symm (h : SameFuncs T T') : SameFuncs T' T := ⟨h.names.symm, fun f => (h.scopes f).symm⟩

theorem SameFuncs.trans {T'' : Table} (h : SameFuncs T T') (h' : SameFuncs T' T'') : SameFuncs T T'' :=
  ⟨h'.names.trans h.names, fun f => (h'.scopes f).trans (h.scopes f)⟩

theorem SameFuncs.back (h : SameFuncs T T') {f : FuncId} {g' : Signature} (hg : T'.func? f = some g') :
    ∃ g, T.func? f = some g ∧ g.scope = g'.scope := by
  have hscope := h.scopes f
  rw [hg, Option.map_some] at hscope
  exact Option.map_eq_some_iff.1 hscope.symm

theorem SameFuncs.size (h : SameFuncs T T') : T'.funcs.size = T.funcs.size := by
  simpa using congrArg List.length h.names

theorem Adds.wf (h : Adds T s x v T') (hf : SameFuncs T T') (hw : T.Wf) (hc : T'.cost < 2 ^ 32) : T'.Wf := by
  have hsz := size_pos v.type
  have hoff := h.toNat_offset (h.room hw hc)
  have hgrows := h.grows (by omega)
  have hplaced : ∀ y t, T.scope? y = some t → Placed T' y t := by
    intro y t ht
    have := hw.placed y t ht
    simp only [Placed] at this ⊢
    cases hkind : t.kind <;> simp only [hkind] at this ⊢
    · exact this
    · obtain ⟨hp, g, hg, hgs⟩ := this
      obtain ⟨g', hg', hgs'⟩ := hf.symm.back hg
      exact ⟨hp, g', hg', hgs'.trans hgs⟩
    · obtain ⟨hlt, q, hq⟩ := this
      obtain ⟨q', hq', -⟩ := hgrows.scopes _ q hq
      exact ⟨hlt, q', hq'⟩
  have hnamed : ∀ y t n z, T.scope? y = some t → (n, z) ∈ t.names →
      ∃ w, T'.var? z = some w ∧ w.scope = y ∧ w.name = n := by
    intro y t n z ht hn
    obtain ⟨w, hz, hws, hwn⟩ := hw.names y t n z ht hn
    exact ⟨w, h.old z w hz, hws, hwn⟩
  refine ⟨hc, by rw [h.scopes, hf.size]; exact hw.few, ?_, fun y t' hy => ?_, fun y t' n z hy hn => ?_,
    fun y w hy => ?_, fun y t' hy => ?_, fun y z w w' hy hz hyz hww => ?_, fun f g' hg => ?_,
    hf.names ▸ hw.nodup, hf.names ▸ hw.spelled⟩
  · obtain ⟨r, hr, hk⟩ := hw.root
    obtain ⟨r', hr', hk', -⟩ := hgrows.scopes _ r hr
    exact ⟨r', hr', hk'.trans hk⟩
  · rcases h.cases hy with ⟨rfl, rfl⟩ | ⟨-, ht⟩
    · exact hplaced _ s h.before
    · exact hplaced y t' ht
  · rcases h.cases hy with ⟨rfl, rfl⟩ | ⟨-, ht⟩
    · rcases List.mem_append.1 hn with hn | hn
      · exact hnamed _ s n z h.before hn
      · cases List.mem_singleton.1 hn
        exact ⟨v, h.here, rfl, rfl⟩
    · exact hnamed y t' n z ht hn
  · rcases h.var_cases hy with ⟨rfl, rfl⟩ | ⟨-, hy⟩
    · exact ⟨_, h.there, by omega, le_rfl⟩
    · obtain ⟨t, ht, h1, h2⟩ := hw.room y w hy
      obtain ⟨t', ht', -, -, -, hle⟩ := hgrows.scopes _ t ht
      exact ⟨t', ht', h1, h2.trans hle⟩
  · rw [h.size]
    rcases h.cases hy with ⟨rfl, rfl⟩ | ⟨-, ht⟩
    · have := hw.footprint _ _ h.before
      show v.offset.toNat ≤ _
      omega
    · have := hw.footprint _ _ ht
      omega
  · -- the new variable starts where the footprint of its scope ended
    have hnew : ∀ y w, T.var? y = some w → w.scope = v.scope → Apart w v := by
      intro y w hy hws
      obtain ⟨t, ht, -, h2⟩ := hw.room y w hy
      cases h.before.symm.trans (hws ▸ ht)
      left; omega
    rcases h.var_cases hy with ⟨rfl, rfl⟩ | ⟨-, hy⟩ <;> rcases h.var_cases hz with ⟨rfl, rfl⟩ | ⟨-, hz⟩
    · exact absurd rfl hyz
    · exact (hnew z w' hz hww.symm).symm
    · exact hnew y w hy hww
    · exact hw.apart y z w w' hy hz hyz hww
  · obtain ⟨g, hg, hgs⟩ := hf.back hg
    obtain ⟨t, ht, hk, hfunc⟩ := hw.funcs f g hg
    obtain ⟨t', ht', hk', -, hf', -⟩ := hgrows.scopes _ t ht
    exact ⟨t', hgs ▸ ht', hk'.trans hk, hf'.trans hfunc⟩

end

theorem declare_extends {sc : ScopeId} {s : Scope} (name : Text) (type : Ty) (span : Span)
    (hw : T.Wf) (hl : T.Laid) (hs : T.scope? sc = some s) (hk : s.kind ≠ .function)
    (hc : T.cost + 4 < 2 ^ 32) :
    ∃ d T', T.declare sc name type span = .ok (d, T') ∧ T.Extends 4 T' ∧
      (d.fresh = true → ∃ v, T'.var? d.id = some v ∧ v.scope = sc ∧ v.type = type) := by
  refine ⟨(T.declareIn sc s name type span false).1, (T.declareIn sc s name type span false).2,
    by simp only [declare, hs], ?_⟩
  cases hn : s.names.lookup name with
  | some old =>
    rw [declareIn_known hn]
    exact ⟨.refl hw hl 4, fun h => absurd h Bool.false_ne_true⟩
  | none =>
    have h := @adds_modifyScope T sc s name type span false hs hn
      (by simp only [cost] at hc; omega)
    rw [declareIn_unknown hn]
    have hcost := h.cost
    have hgrows := h.grows (by rw [h.toNat_offset (h.room hw (by omega))]; omega)
    refine ⟨⟨hgrows, modifyScope_funcs _ _, h.wf (.of_eq (modifyScope_funcs _ _)) hw (by omega), ?_, hcost.le⟩,
      fun _ => ⟨_, h.here, rfl, rfl⟩⟩
    -- the parameters lie in scopes of functions, and this is none
    intro f g hg
    have hg : T.func? f = some g := by rw [← hg, func?_eq, func?_eq, modifyScope_funcs]
    obtain ⟨t, ht, hlaid⟩ := hl f g hg
    obtain ⟨t0, ht0, hk0, -⟩ := hw.funcs f g hg
    have hne : g.scope ≠ sc := by
      rintro hid
      cases hs.symm.trans (hid ▸ ht0)
      exact hk hk0
    exact ⟨t, h.other hne ht, hlaid.mono hgrows.vars⟩

/-! ## Declaring functions -/

theorem empty_scope? {id : ScopeId} {s : Scope} (h : Table.empty.scope? id = some s) :
    id = global ∧ s = { kind := .global, parent := 0, span := {} } := by
  obtain ⟨i, hi, hx⟩ := numbered_eq_some.1 h
  obtain ⟨hlt, hx⟩ := Array.getElem?_eq_some_iff.1 hx
  simp only [Table.empty, List.size_toArray, List.length_cons, List.length_nil] at hlt
  obtain rfl : i = 0 := by omega
  exact ⟨UInt32.toNat_inj.1 hi, hx.symm⟩

theorem empty_func? (f : FuncId) : Table.empty.func? f = none := by
  cases h : Table.empty.func? f with
  | none => rfl
  | some g => have := numbered_lt h; simp [Table.empty] at this; omega

theorem empty_var? (x : VarId) : Table.empty.var? x = none := by
  cases h : Table.empty.var? x with
  | none => rfl
  | some v => have := numbered_lt h; simp [Table.empty] at this; omega

theorem empty_wf : Table.empty.Wf := by
  refine ⟨by decide, by decide, ⟨_, rfl, rfl⟩, fun id s h => ?_, fun id s n x h hn => ?_, fun x v h => ?_,
    fun id s h => ?_, fun x y v w h => ?_, fun f g h => ?_, by simp [Table.empty], by simp [Table.empty]⟩
  · obtain ⟨rfl, rfl⟩ := empty_scope? h
    exact ⟨rfl, rfl⟩
  · rw [(empty_scope? h).2] at hn
    cases hn
  · rw [empty_var?] at h; cases h
  · rw [(empty_scope? h).2]
    decide
  · rw [empty_var?] at h; cases h
  · rw [empty_func?] at h; cases h

theorem empty_laid : Table.empty.Laid := fun f g hg => by rw [empty_func?] at hg; cases hg

theorem lookupFunc_eq_none {name : Text} (h : T.lookupFunc name = none) :
    name ∉ T.funcs.toList.map (·.name) := by
  simp only [lookupFunc, Option.map_eq_none_iff, List.findIdx?_eq_none_iff] at h
  intro hmem
  obtain ⟨g, hg, rfl⟩ := List.mem_map.1 hmem
  simpa using h g hg

theorem declareFunc_fresh {name : Text} {result : Ty} {span : Span} (hw : T.Wf) (hl : T.Laid)
    (hname : IsName name) (hc : T.cost + 1 < 2 ^ 32) (hd : (T.declareFunc name result span).1.fresh = true) :
    (T.declareFunc name result span).2.Wf ∧ (T.declareFunc name result span).2.Laid ∧
      (T.declareFunc name result span).2.cost = T.cost + 1 ∧
      (T.declareFunc name result span).1.id.toNat = T.funcs.size + 1 ∧
      (T.declareFunc name result span).2.funcs.size = T.funcs.size + 1 := by
  cases hn : T.lookupFunc name with
  | some old => simp [declareFunc, hn] at hd
  | none =>
    obtain ⟨p, hp, -⟩ := hw.root
    have hfew := hw.few
    have hsize : T.scopes.size + 1 < 2 ^ 32 := by simp only [cost] at hc; omega
    have hnum : (T.funcs.size + 1).toUInt32.toNat = T.funcs.size + 1 := toNat_number (by omega)
    set id := (T.funcs.size + 1).toUInt32 with hid
    set U := T.newScope .function global span id with hU
    set g0 : Signature := { name, result, scope := U.1, span } with hg0
    set T' : Table := { U.2 with funcs := T.funcs.push g0 } with hT'
    have hT : T.declareFunc name result span = (⟨id, true⟩, T') := by
      have hfuncs : U.2.funcs = T.funcs := newScope_funcs
      simp only [declareFunc, hn, hT', ← hfuncs]
      rfl
    have h : Opens T { kind := .function, parent := global, span, func := id } U.1 T' :=
      have hopens := @newScope_opens T .function global span id p hp hsize
      ⟨hopens.number, hopens.size, hopens.parent, hopens.vars, hopens.scope?⟩
    have hnew : T'.func? id = some g0 := numbered_push_new hnum
    have hcase : ∀ f g, T'.func? f = some g → f = id ∧ g = g0 ∨ T.func? f = some g := by
      intro f g hg
      by_cases hf : f = id
      · subst hf; exact .inl ⟨rfl, Option.some.inj (hg.symm.trans hnew)⟩
      · refine .inr (Eq.trans (numbered_push_old fun e => hf ?_).symm hg)
        exact UInt32.toNat_inj.1 (e.trans hnum.symm)
    have hkeep : ∀ f g, T.func? f = some g → T'.func? f = some g := fun f g hg =>
      (numbered_push_old fun e => by have := (numbered_lt hg).2; omega).trans hg
    rw [hT]
    refine ⟨h.wf hw hc ?_ ⟨rfl, _, hnew, rfl⟩ rfl rfl hkeep ?_ ?_ ?_, h.laid hl rfl fun f g hg => ?_, h.cost, hnum,
      Array.size_push _⟩
    · rw [h.size]
      simp only [hT', Array.size_push]
      omega
    · intro f g hg
      rcases hcase f g hg with ⟨rfl, rfl⟩ | hg
      · exact .inr ⟨rfl, rfl, rfl⟩
      · exact .inl hg
    · simp only [hT', Array.toList_push, List.map_append, List.map_cons, List.map_nil]
      refine List.nodup_append.2 ⟨hw.nodup, List.nodup_singleton _, ?_⟩
      rintro a ha b hb rfl
      obtain rfl := List.mem_singleton.1 hb
      exact lookupFunc_eq_none hn ha
    · simp only [hT', Array.toList_push, List.map_append, List.map_cons, List.map_nil]
      intro a ha
      rcases List.mem_append.1 ha with ha | ha
      · exact hw.spelled a ha
      · rw [List.mem_singleton.1 ha]; exact hname
    · rcases hcase f g hg with ⟨rfl, rfl⟩ | hg
      · exact .inr ⟨rfl, rfl⟩
      · exact .inl hg

theorem bindParam_keeps {f : FuncId} {g : Signature} (name : Text) (type : Ty) (span : Span)
    (hw : T.Wf) (hl : T.Laid) (hg : T.func? f = some g) (hc : T.cost + 4 < 2 ^ 32) :
    ∃ d T', T.bindParam f name type span = .ok (d, T') ∧ T'.Wf ∧ T'.Laid ∧ T'.cost ≤ T.cost + 4 ∧
      T'.funcs.size = T.funcs.size := by
  obtain ⟨s, hs, hk, hsf⟩ := hw.funcs f g hg
  cases hn : s.names.lookup name with
  | some old =>
    refine ⟨⟨old, false⟩, T, ?_, hw, hl, by omega, rfl⟩
    simp [bindParam, hg, hs, declareIn, hn]
  | none =>
    have hadds := @adds_modifyScope T g.scope s name type span true hs hn
      (by simp only [cost] at hc; omega)
    set x := (T.vars.size + 1).toUInt32
    set v := declared g.scope s name type span true
    set U := ({ T with vars := T.vars.push v } : Table).modifyScope g.scope (·.add x v) with hU
    have hfuncs : U.funcs = T.funcs := modifyScope_funcs _ _
    set T' := U.modifyFunc f fun g => { g with params := g.params ++ [x] } with hT'
    have hsame : SameFuncs T T' := .trans (.of_eq hfuncs) (.modifyFunc f x)
    have h : Adds T s x v T' := hadds.congr (modifyFunc_scopes _ _) (modifyFunc_vars _ _)
    have hcost := h.cost
    have hoff := h.toNat_offset (h.room hw (by omega))
    refine ⟨⟨x, true⟩, T', ?_, h.wf hsame hw (by omega), fun k g' hg' => ?_, hcost.le, hsame.size⟩
    · simp only [bindParam, hg, hs, declareIn_unknown hn, if_true]
      rfl
    · rw [hT', modifyFunc_func?] at hg'
      obtain ⟨g0, hg0, rfl⟩ := Option.map_eq_some_iff.1 hg'
      rw [func?_eq, hfuncs, ← func?_eq] at hg0
      obtain ⟨t, ht, hlaid⟩ := hl k g0 hg0
      by_cases hkf : k = f
      · -- the scope grows by the new parameter, which ends it
        subst hkf
        cases hg.symm.trans hg0
        cases hs.symm.trans ht
        rw [if_pos rfl]
        exact ⟨_, h.there, (hlaid.mono h.old).snoc h.here rfl hoff⟩
      · obtain ⟨t0, ht0, -, hf0⟩ := hw.funcs k g0 hg0
        have hne : g0.scope ≠ g.scope := by
          intro he
          cases hs.symm.trans (he ▸ ht0)
          exact hkf (hf0.symm.trans hsf)
        rw [if_neg hkf]
        exact ⟨t, h.other hne ht, hlaid.mono h.old⟩

end Table

end Wacc
