/-
  Tables that can be reached.

  A table is built by opening blocks, declaring variables and functions, and binding parameters.
  The history of a table lists these operations with what they returned.
-/
import Wacc.Table.Validate
import Wacc.Proofs.Table.WellFormed

namespace Wacc

namespace Table

variable {T T' : Table}

/-! ## Operations -/

/-- An operation that builds a table. -/
inductive Op where
  | block (parent : ScopeId) (span : Span)
  | var (scope : ScopeId) (name : Text) (type : Ty) (span : Span)
  | func (name : Text) (result : Ty) (span : Span)
  | param (f : FuncId) (name : Text) (type : Ty) (span : Span)

/-- What an operation returns, and the table after it.  Blocks are opened in scopes that exist. -/
def Op.apply (T : Table) : Op → Except Fault (Declared × Table)
  | .block parent span =>
    match T.scope? parent with
    | none => .error (.noScope parent)
    | some _ => .ok (⟨(T.newBlock parent span).1, true⟩, (T.newBlock parent span).2)
  | .var scope name type span => T.declare scope name type span
  | .func name result span => .ok (T.declareFunc name result span)
  | .param f name type span => T.bindParam f name type span

inductive Key where
  | var (scope : ScopeId) (name : Text)
  | func (name : Text)
  deriving DecidableEq

def find? (T : Table) : Key → Option UInt32
  | .var scope name => T.lookupLocal scope name
  | .func name => T.lookupFunc name

/-- What an operation registers; a parameter is a variable of the scope of its function. -/
def Op.key? (T : Table) : Op → Option Key
  | .block _ _ => none
  | .var scope name _ _ => some (.var scope name)
  | .func name _ _ => some (.func name)
  | .param f name _ _ => (T.func? f).map fun g => .var g.scope name

/-- An operation that was performed, what it registered or found registered, and what it
    returned. -/
structure Entry where
  op : Op
  key : Option Key
  out : Declared

def Entry.bound? (f : FuncId) (e : Entry) : Option VarId :=
  match e.op with
  | .param g _ _ _ => if g = f ∧ e.out.fresh then some e.out.id else none
  | _ => none

def bytes (T : Table) (xs : List VarId) : Nat :=
  (xs.map fun x => ((T.var? x).map (·.type.size.toNat)).getD 0).sum

/-- The table has numbers for its scopes and variables, and its footprints are words. -/
structure Small (T : Table) : Prop where
  scopes : T.scopes.size < 2 ^ 32
  vars : T.vars.size < 2 ^ 32
  footprints : ∀ id s, T.scope? id = some s → T.bytes s.vars < 2 ^ 32

inductive Reached : List Entry → Table → Prop where
  | empty : Reached [] .empty
  | step {log : List Entry} {T T' : Table} (op : Op) {d : Declared} (before : Reached log T)
      (done : op.apply T = .ok (d, T')) (small : T'.Small) :
      Reached (log ++ [⟨op, op.key? T, d⟩]) T'

/-! ## Effects -/

def Effect (T : Table) (id : UInt32) (T' : Table) : Op → Prop
  | .block parent span => Opens T { kind := .block, parent, span } id T' ∧ T'.funcs = T.funcs
  | .var scope name type span => ∃ s v, Adds T s id v T' ∧ v.scope = scope ∧ v.name = name ∧
      v.type = type ∧ v.span = span ∧ v.param = false ∧ T'.funcs = T.funcs
  | .func name result span => ∃ scope, id.toNat = T.funcs.size + 1 ∧ T.lookupFunc name = none ∧
      Opens T { kind := .function, parent := global, span, func := id } scope T' ∧
      T'.funcs = T.funcs.push { name, result, scope, span }
  | .param f name type span => ∃ g s v, T.func? f = some g ∧ Adds T s id v T' ∧ v.scope = g.scope ∧
      v.name = name ∧ v.type = type ∧ v.span = span ∧ v.param = true ∧
      T'.funcs = (T.modifyFunc f fun g => { g with params := g.params ++ [id] }).funcs

variable {log : List Entry} {op : Op} {g : Signature} {d : Declared}

theorem find?_var {id : ScopeId} {s : Scope} (hs : T.scope? id = some s) (name : Text) :
    T.find? (.var id name) = s.names.lookup name := by
  simp only [find?, lookupLocal, hs]
  rfl

/-- All that an operation can do: it registers a new number under a name that means nothing yet, or
    it finds the name registered and changes nothing. -/
theorem apply_cases (hroot : ∃ s, T.scope? global = some s) (hf : T.funcs.size < T.scopes.size)
    (h : op.apply T = .ok (d, T')) :
    (d.fresh = true ∧ (∀ k, op.key? T = some k → T.find? k = none) ∧
        (T'.scopes.size < 2 ^ 32 → T'.vars.size < 2 ^ 32 → Effect T d.id T' op)) ∨
      (d.fresh = false ∧ T' = T ∧ ∃ k, op.key? T = some k ∧ T.find? k = some d.id) := by
  cases op with
  | block parent span =>
    simp only [Op.apply] at h
    split at h
    · cases h
    rename_i p hp
    cases h
    refine .inl ⟨rfl, fun k (hk : none = some k) => (by cases hk), fun hs _ =>
      ⟨newScope_opens hp ?_, newScope_funcs⟩⟩
    simpa only [newBlock, size_newScope] using hs
  | var scope name type span =>
    simp only [Op.apply, declare] at h
    split at h
    · cases h
    rename_i s hscope
    cases hn : s.names.lookup name with
    | some old =>
      rw [declareIn_known hn] at h
      cases h
      exact .inr ⟨rfl, rfl, _, rfl, (find?_var hscope name).trans hn⟩
    | none =>
      rw [declareIn_unknown hn] at h
      cases h
      refine .inl ⟨rfl, fun k hk => ?_, fun _ hv => ?_⟩
      · cases hk
        exact (find?_var hscope name).trans hn
      · have hsize : T.vars.size + 1 < 2 ^ 32 := by simpa using hv
        exact ⟨s, _, adds_modifyScope hscope hn hsize, rfl, rfl, rfl, rfl, rfl, by simp⟩
  | func name result span =>
    simp only [Op.apply, declareFunc] at h
    cases hn : T.lookupFunc name with
    | some old =>
      simp only [hn] at h
      cases h
      exact .inr ⟨rfl, rfl, _, rfl, hn⟩
    | none =>
      simp only [hn] at h
      cases h
      refine .inl ⟨rfl, fun k hk => ?_, fun hs _ => ?_⟩
      · cases hk
        exact hn
      · obtain ⟨p, hp⟩ := hroot
        have hsize : T.scopes.size + 1 < 2 ^ 32 := by simpa only [size_newScope] using hs
        have hopens : Opens T
            { kind := .function, parent := global, span, func := (T.funcs.size + 1).toUInt32 }
            (T.scopes.size + 1).toUInt32
            (T.newScope .function global span (T.funcs.size + 1).toUInt32).2 := newScope_opens hp hsize
        exact ⟨(T.scopes.size + 1).toUInt32, toNat_number (by omega), hn,
          ⟨hopens.number, hopens.size, hopens.parent, hopens.vars, hopens.scope?⟩,
          by simp only [newScope_funcs]; rfl⟩
  | param f name type span =>
    simp only [Op.apply, bindParam] at h
    split at h
    · cases h
    rename_i g hg
    split at h
    · cases h
    rename_i s hscope
    have hkey : Op.key? T (.param f name type span) = some (.var g.scope name) := by
      simp only [Op.key?, hg, Option.map_some]
    cases hn : s.names.lookup name with
    | some old =>
      simp only [declareIn_known hn, Bool.false_eq_true, if_false] at h
      cases h
      exact .inr ⟨rfl, rfl, _, hkey, (find?_var hscope name).trans hn⟩
    | none =>
      simp only [declareIn_unknown hn, if_true] at h
      cases h
      refine .inl ⟨rfl, fun k hk => ?_, fun _ hv => ?_⟩
      · cases hkey.symm.trans hk
        exact (find?_var hscope name).trans hn
      · have hsize : T.vars.size + 1 < 2 ^ 32 := by simpa [modifyFunc_vars] using hv
        refine ⟨g, s, _, hg, (adds_modifyScope hscope hn hsize).congr (modifyFunc_scopes _ _)
          (modifyFunc_vars _ _), rfl, rfl, rfl, rfl, rfl, ?_⟩
        unfold modifyFunc
        split <;> simp

/-! ## The tree of scopes -/

/-- The global scope is the root of a tree, in which every other scope comes after its parent and
    is listed there once. -/
structure Rooted (T : Table) : Prop where
  root : ∃ s, T.scope? global = some s ∧ s.kind = .global ∧ s.parent = 0
  parent : ∀ id s, T.scope? id = some s → id ≠ global → (s.kind = .block ∨ s.kind = .function) ∧
    s.parent.toNat < id.toNat ∧ ∃ p, T.scope? s.parent = some p ∧ p.children.count id = 1
  children : ∀ id s c, T.scope? id = some s → c ∈ s.children →
    ∃ t, T.scope? c = some t ∧ c ≠ global ∧ t.parent = id

section
variable {new : Scope} {id : ScopeId}

theorem Rooted.opens (hr : Rooted T) (h : Opens T new id T') (hk : new.kind = .block ∨ new.kind = .function)
    (hc : new.children = []) : Rooted T' := by
  obtain ⟨r, hroot, hrk, hrp⟩ := hr.root
  have hne : global ≠ id := by rintro rfl; rw [h.absent] at hroot; cases hroot
  obtain ⟨p, hp⟩ := h.parent
  refine ⟨?_, ?_, ?_⟩
  · exact ⟨_, h.old hroot, hrk, hrp⟩
  · intro y t' hy hyg
    rcases h.cases hy with ⟨rfl, rfl⟩ | ⟨t, ht, rfl⟩
    · refine ⟨hk, ?_, _, h.old hp, ?_⟩
      · have := (numbered_lt hp).2
        have := h.number
        omega
      · -- the parent lists scopes of the old table only, and the new one is none of them
        have hnot : y ∉ p.children := fun hmem => by
          obtain ⟨t, ht, -⟩ := hr.children _ p y hp hmem
          rw [h.absent] at ht
          cases ht
        rw [if_pos rfl, List.count_append, List.count_eq_zero_of_not_mem hnot, List.count_singleton_self]
    · obtain ⟨hkind, hlt, q, hq, hcount⟩ := hr.parent y t ht hyg
      have hyid : id ≠ y := by rintro rfl; rw [h.absent] at ht; cases ht
      refine ⟨hkind, hlt, _, h.old hq, ?_⟩
      rw [List.count_append, hcount, List.count_eq_zero_of_not_mem]
      split_ifs <;> simp [hyid.symm]
  · intro y t' c hy hmem
    have hold : ∀ t, T.scope? y = some t → c ∈ t.children →
        ∃ u, T'.scope? c = some u ∧ c ≠ global ∧ u.parent = y := by
      intro t ht hct
      obtain ⟨u, hu, hcg, hup⟩ := hr.children y t c ht hct
      exact ⟨_, h.old hu, hcg, hup⟩
    rcases h.cases hy with ⟨rfl, rfl⟩ | ⟨t, ht, rfl⟩
    · rw [hc] at hmem; cases hmem
    · rcases List.mem_append.1 hmem with hmem | hmem
      · exact hold t ht hmem
      · split_ifs at hmem with hpar
        · obtain rfl := List.mem_singleton.1 hmem
          exact ⟨new, h.here, hne.symm, hpar.symm⟩
        · cases hmem

end

section
variable {s : Scope} {x : VarId} {v : Variable}

theorem Rooted.adds (hr : Rooted T) (h : Adds T s x v T') : Rooted T' := by
  -- every scope keeps its place in the tree
  have hback : ∀ y t', T'.scope? y = some t' → ∃ t, T.scope? y = some t ∧ t'.kind = t.kind ∧
      t'.parent = t.parent ∧ t'.children = t.children := by
    intro y t' hy
    rcases h.cases hy with ⟨rfl, rfl⟩ | ⟨-, ht⟩
    · exact ⟨s, h.before, rfl, rfl, rfl⟩
    · exact ⟨t', ht, rfl, rfl, rfl⟩
  obtain ⟨r, hroot, hrk, hrp⟩ := hr.root
  refine ⟨⟨_, h.keeps hroot, by split_ifs <;> exact hrk, by split_ifs <;> exact hrp⟩, ?_, ?_⟩
  · intro y t' hy hyg
    obtain ⟨t, ht, hk, hp, -⟩ := hback y t' hy
    obtain ⟨hkind, hlt, q, hq, hcount⟩ := hr.parent y t ht hyg
    exact ⟨hk ▸ hkind, hp ▸ hlt, _, hp ▸ h.keeps hq, by split_ifs <;> exact hcount⟩
  · intro y t' c hy hmem
    obtain ⟨t, ht, -, -, hch⟩ := hback y t' hy
    obtain ⟨u, hu, hcg, hup⟩ := hr.children y t c ht (hch ▸ hmem)
    exact ⟨_, h.keeps hu, hcg, by split_ifs <;> exact hup⟩

end

/-! ## The variables of a scope -/

def nameOf (T : Table) (x : VarId) : Text := ((T.var? x).map (·.name)).getD []

def offsetOf (T : Table) (x : VarId) : UInt32 := ((T.var? x).map (·.offset)).getD 0

def isParam (T : Table) (x : VarId) : Bool := (T.var? x).any (·.param)

/-- The variables of a scope have distinct names, under which they are registered, and lie one
    after the other, up to the footprint. -/
structure Packed (T : Table) (id : ScopeId) (s : Scope) : Prop where
  names : s.names = s.vars.map fun x => (T.nameOf x, x)
  distinct : (s.vars.map T.nameOf).Nodup
  laid : T.LaidFrom id 0 s.vars s.footprint.toNat

section
variable {id : ScopeId} {xs : List VarId} {base top : Nat}

theorem LaidFrom.exists_var (h : LaidFrom T id base xs top) {x : VarId} (hx : x ∈ xs) :
    ∃ v, T.var? x = some v ∧ v.scope = id := by
  induction xs generalizing base with
  | nil => cases hx
  | cons y ys ih =>
    obtain ⟨v, hv, hs, -, hl⟩ := h
    rcases List.mem_cons.1 hx with rfl | hx
    · exact ⟨v, hv, hs⟩
    · exact ih hl hx

theorem LaidFrom.bytes (h : LaidFrom T id base xs top) : base + T.bytes xs = top := by
  induction xs generalizing base with
  | nil => exact h
  | cons y ys ih =>
    obtain ⟨v, hv, -, ho, hl⟩ := h
    have := ih hl
    simp only [Table.bytes, List.map_cons, List.sum_cons, hv, Option.map_some, Option.getD_some] at this ⊢
    omega

theorem LaidFrom.increasing (h : LaidFrom T id base xs top) :
    (∀ x ∈ xs, base < (T.offsetOf x).toNat) ∧ (xs.map T.offsetOf).Pairwise (· < ·) := by
  induction xs generalizing base with
  | nil => exact ⟨fun x hx => absurd hx List.not_mem_nil, List.Pairwise.nil⟩
  | cons y ys ih =>
    obtain ⟨v, hv, -, ho, hl⟩ := h
    obtain ⟨hlt, hpair⟩ := ih hl
    have hy : T.offsetOf y = v.offset := by simp only [offsetOf, hv, Option.map_some, Option.getD_some]
    have hsize := (size_pos v.type).1
    refine ⟨fun x hx => ?_, ?_⟩
    · rcases List.mem_cons.1 hx with rfl | hx
      · rw [hy]; omega
      · have := hlt x hx; omega
    · refine List.pairwise_cons.2 ⟨fun o ho => ?_, hpair⟩
      obtain ⟨x, hx, rfl⟩ := List.mem_map.1 ho
      rw [hy]
      exact UInt32.lt_iff_toNat_lt.2 (hlt x hx)

end

section
variable {id : ScopeId} {s : Scope}

theorem nameOf_mono (hv : ∀ x v, T.var? x = some v → T'.var? x = some v) {x : VarId} {v : Variable}
    (hx : T.var? x = some v) : T'.nameOf x = T.nameOf x ∧ T'.isParam x = T.isParam x := by
  simp only [nameOf, isParam, hx, hv x v hx, and_self]

theorem Packed.vars_mono (h : Packed T id s) (hv : ∀ x v, T.var? x = some v → T'.var? x = some v) :
    s.vars.map T'.nameOf = s.vars.map T.nameOf ∧ s.vars.filter T'.isParam = s.vars.filter T.isParam := by
  refine ⟨List.map_congr_left fun x hx => ?_, List.filter_congr fun x hx => ?_⟩ <;>
    obtain ⟨v, hxv, -⟩ := h.laid.exists_var hx
  · exact (nameOf_mono hv hxv).1
  · exact (nameOf_mono hv hxv).2

theorem Packed.mono (h : Packed T id s) (hv : ∀ x v, T.var? x = some v → T'.var? x = some v) :
    Packed T' id s := by
  refine ⟨h.names.trans (List.map_congr_left fun x hx => ?_), ?_, h.laid.mono hv⟩
  · obtain ⟨v, hxv, -⟩ := h.laid.exists_var hx
    rw [(nameOf_mono hv hxv).1]
  · rw [(h.vars_mono hv).1]
    exact h.distinct

theorem Packed.not_mem (h : Packed T id s) {name : Text} (hn : s.names.lookup name = none) :
    name ∉ s.vars.map T.nameOf := by
  intro hmem
  obtain ⟨x, hx, rfl⟩ := List.mem_map.1 hmem
  have := List.lookup_eq_none_iff.1 hn (T.nameOf x, x) (h.names ▸ List.mem_map.2 ⟨x, hx, rfl⟩)
  simp at this

theorem Packed.room {x : VarId} {v : Variable} (h : Packed T v.scope s) (ha : Adds T s x v T')
    (hs : T'.Small) : s.footprint.toNat + v.type.size.toNat < 2 ^ 32 := by
  have hsmall := hs.footprints _ _ ha.there
  have hbytes := (h.mono ha.old).laid.bytes
  simp only [Scope.add, bytes, List.map_append, List.sum_append, List.map_singleton, List.sum_singleton,
    ha.here, Option.map_some, Option.getD_some] at hsmall hbytes
  omega

theorem Packed.add {x : VarId} {v : Variable} (h : Packed T v.scope s) (ha : Adds T s x v T')
    (hroom : s.footprint.toNat + v.type.size.toNat < 2 ^ 32) : Packed T' v.scope (s.add x v) := by
  have h' := h.mono ha.old
  have hname : T'.nameOf x = v.name := by simp only [nameOf, ha.here, Option.map_some, Option.getD_some]
  refine ⟨?_, ?_, h'.laid.snoc ha.here rfl (ha.toNat_offset hroom)⟩
  · simp only [Scope.add, List.map_append, List.map_singleton, hname, ← h'.names]
  · have hnot := h'.not_mem ha.unknown
    simp only [Scope.add, List.map_append, List.map_singleton, hname]
    exact List.Nodup.append h'.distinct (List.nodup_singleton _) (List.disjoint_singleton.2 hnot)

end

/-! ## The parameters of a function -/

/-- Every function has a scope of its own, and its parameters are the variables there that are
    marked as parameters. -/
def Params (T : Table) : Prop :=
  ∀ f g, T.func? f = some g → ∃ s, T.scope? g.scope = some s ∧ s.kind = .function ∧ s.func = f ∧
    g.params = s.vars.filter T.isParam

theorem func?_congr (h : T'.funcs = T.funcs) (f : FuncId) : T'.func? f = T.func? f := by
  rw [func?_eq, h, func?_eq]

theorem Params.adds {s : Scope} {x : VarId} {v : Variable} (hp : Params T)
    (hpack : ∀ id s, T.scope? id = some s → T.Packed id s) (ha : Adds T s x v T')
    (hf : ∀ f g', T'.func? f = some g' → ∃ g, T.func? f = some g ∧ g'.scope = g.scope ∧
      g'.params = g.params ++ if v.param ∧ g.scope = v.scope then [x] else []) : Params T' := by
  intro f g' hg'
  obtain ⟨g, hg, hscope, hparams⟩ := hf f g' hg'
  obtain ⟨t, ht, hk, hfunc, hfilter⟩ := hp f g hg
  have hmono := ((hpack _ t ht).vars_mono ha.old).2
  have hmark : T'.isParam x = v.param := by simp only [isParam, ha.here, Option.any_some]
  rw [hscope, hparams, hfilter, ← hmono]
  refine ⟨_, ha.keeps ht, by split_ifs <;> exact hk, by split_ifs <;> exact hfunc, ?_⟩
  by_cases hin : g.scope = v.scope
  · simp only [Scope.add, hin, if_true, and_true]
    cases hv : v.param <;> simp [hmark, hv]
  · simp only [hin, and_false, if_false, List.append_nil]

theorem Params.opens {new : Scope} {id : ScopeId} (hp : Params T) (ho : Opens T new id T') {f : FuncId}
    (hg : T.func? f = some g) : ∃ s, T'.scope? g.scope = some s ∧ s.kind = .function ∧
      s.func = f ∧ g.params = s.vars.filter T'.isParam := by
  obtain ⟨t, ht, hk, hfunc, hfilter⟩ := hp f g hg
  have hmark : T'.isParam = T.isParam := funext fun x => by simp only [isParam, ho.var?]
  exact ⟨_, ho.old ht, hk, hfunc, hmark ▸ hfilter⟩

/-! ## Consistency -/

structure Consistent (T : Table) : Prop where
  few : T.funcs.size < T.scopes.size
  rooted : T.Rooted
  packed : ∀ id s, T.scope? id = some s → T.Packed id s
  params : T.Params

theorem empty_consistent : Consistent .empty := by
  refine ⟨by decide, ⟨⟨_, rfl, rfl, rfl⟩, fun id s h hne => ?_, fun id s c h hc => ?_⟩, fun id s h => ?_,
    fun f g h => ?_⟩
  · exact absurd (empty_scope? h).1 hne
  · rw [(empty_scope? h).2] at hc
    cases hc
  · rw [(empty_scope? h).2]
    exact ⟨rfl, List.nodup_nil, rfl⟩
  · rw [empty_func?] at h
    cases h

theorem Consistent.packed_opens {new : Scope} {id : ScopeId} (h : Consistent T) (ho : Opens T new id T')
    (hv : new.vars = []) (hn : new.names = []) (hf : new.footprint = 0) (y : ScopeId) (t' : Scope)
    (hy : T'.scope? y = some t') : T'.Packed y t' := by
  rcases ho.cases hy with ⟨rfl, rfl⟩ | ⟨t, ht, rfl⟩
  · exact ⟨by rw [hn, hv]; rfl, by rw [hv]; exact List.nodup_nil, by rw [hv, hf]; rfl⟩
  · have hpack := (h.packed y t ht).mono fun x v hx => (ho.var? x).trans hx
    exact ⟨hpack.names, hpack.distinct, hpack.laid⟩

theorem Consistent.packed_adds {s : Scope} {x : VarId} {v : Variable} (h : Consistent T)
    (ha : Adds T s x v T') (hroom : s.footprint.toNat + v.type.size.toNat < 2 ^ 32) (y : ScopeId)
    (t' : Scope) (hy : T'.scope? y = some t') : T'.Packed y t' := by
  rcases ha.cases hy with ⟨rfl, rfl⟩ | ⟨-, ht⟩
  · exact (h.packed _ s ha.before).add ha hroom
  · exact (h.packed y t' ht).mono ha.old

theorem Consistent.step {id : UInt32} (h : Consistent T) (he : Effect T id T' op) (hroom : ∀ s v, Adds T s id v T' →
      s.footprint.toNat + v.type.size.toNat < 2 ^ 32) : Consistent T' := by
  have hfew := h.few
  cases op with
  | block parent span =>
    obtain ⟨ho, hf⟩ := he
    refine ⟨by rw [hf, ho.size]; omega, h.rooted.opens ho (.inl rfl) rfl, h.packed_opens ho rfl rfl rfl, ?_⟩
    intro f g hg
    rw [func?_congr hf] at hg
    exact h.params.opens ho hg
  | var scope name type span =>
    obtain ⟨s, v, ha, -, -, -, -, hparam, hf⟩ := he
    refine ⟨by rw [hf, ha.scopes]; exact hfew, h.rooted.adds ha, h.packed_adds ha (hroom s v ha), ?_⟩
    refine h.params.adds h.packed ha fun f g' hg' => ⟨g', (func?_congr hf f).symm.trans hg', rfl, ?_⟩
    simp [hparam]
  | func name result span =>
    obtain ⟨scope, hid, -, ho, hf⟩ := he
    refine ⟨by rw [hf, ho.size, Array.size_push]; omega, h.rooted.opens ho (.inr rfl) rfl,
      h.packed_opens ho rfl rfl rfl, ?_⟩
    intro f g hg
    rw [func?_eq, hf] at hg
    by_cases hnew : f.toNat = T.funcs.size + 1
    · rw [numbered_push_new hnew] at hg
      cases hg
      exact ⟨_, ho.here, rfl, UInt32.toNat_inj.1 (hid.trans hnew.symm), rfl⟩
    · rw [numbered_push_old hnew] at hg
      exact h.params.opens ho hg
  | param f name type span =>
    obtain ⟨gf, s, v, hgf, ha, hscope, -, -, -, hparam, hf⟩ := he
    have hsize : T'.funcs.size = T.funcs.size := by
      rw [hf]; unfold modifyFunc; split <;> simp
    refine ⟨by rw [hsize, ha.scopes]; exact hfew, h.rooted.adds ha, h.packed_adds ha (hroom s v ha), ?_⟩
    refine h.params.adds h.packed ha fun k g' hg' => ?_
    rw [func?_eq, hf, ← func?_eq, modifyFunc_func?] at hg'
    obtain ⟨g, hg, rfl⟩ := Option.map_eq_some_iff.1 hg'
    refine ⟨g, hg, by split_ifs <;> rfl, ?_⟩
    -- functions with the same scope are the same function
    have hsame : g.scope = v.scope ↔ k = f := by
      rw [hscope]
      constructor
      · intro heq
        obtain ⟨t, ht, -, hk, -⟩ := h.params k g hg
        obtain ⟨t', ht', -, hk', -⟩ := h.params f gf hgf
        cases ht.symm.trans (heq ▸ ht')
        exact hk.symm.trans hk'
      · rintro rfl
        rw [Option.some.inj (hg.symm.trans hgf)]
    simp only [hparam, hsame, true_and]
    split_ifs <;> simp

/-! ## Names and the history -/

def paramsOf (T : Table) (f : FuncId) : List VarId := ((T.func? f).map (·.params)).getD []

/-- A name means what the history first registered under it, and the parameters of a function are
    those that were bound to it. -/
structure Recorded (log : List Entry) (T : Table) : Prop where
  first : ∀ k, (log.find? fun e => decide (e.key = some k)).map (·.out) =
    (T.find? k).map fun id => ⟨id, true⟩
  params : ∀ f, T.paramsOf f = log.filterMap (Entry.bound? f)

theorem Opens.lookupLocal {new : Scope} {id : ScopeId} (h : Opens T new id T') (hn : new.names = [])
    (y : ScopeId) (n : Text) : T'.lookupLocal y n = T.lookupLocal y n := by
  simp only [Table.lookupLocal, h.scope?]
  by_cases hy : y = id
  · rw [if_pos hy, hy, h.absent]
    simp [hn]
  · rw [if_neg hy]
    cases T.scope? y <;> rfl

theorem Adds.lookupLocal {s : Scope} {x : VarId} {v : Variable} (h : Adds T s x v T') (y : ScopeId)
    (n : Text) :
    T'.lookupLocal y n = if v.scope = y ∧ v.name = n then some x else T.lookupLocal y n := by
  have hunknown := h.unknown
  simp only [Table.lookupLocal, h.scope?]
  by_cases hy : v.scope = y
  · subst hy
    simp only [h.before, Option.map_some, if_true, Scope.add, true_and]
    show List.lookup n (s.names ++ [(v.name, x)]) = if v.name = n then some x else s.names.lookup n
    rw [List.lookup_append]
    by_cases hn : v.name = n
    · subst hn
      simp [hunknown]
    · have : (n == v.name) = false := beq_eq_false_iff_ne.2 (Ne.symm hn)
      simp [hn, List.lookup_cons, this]
  · simp only [hy, false_and, if_false]
    cases T.scope? y with
    | none => rfl
    | some t => simp [Ne.symm hy]

theorem lookupFunc_congr (h : T'.funcs.toList.map (·.name) = T.funcs.toList.map (·.name)) (n : Text) :
    T'.lookupFunc n = T.lookupFunc n := by
  have hmap : ∀ gs : List Signature, gs.findIdx? (·.name == n) = (gs.map (·.name)).findIdx? (· == n) :=
    fun gs => by rw [List.findIdx?_map]; rfl
  simp only [lookupFunc, hmap, h]

theorem lookupFunc_push {id : FuncId} (hid : id.toNat = T.funcs.size + 1) (hg : T.lookupFunc g.name = none)
    (h : T'.funcs = T.funcs.push g) (n : Text) :
    T'.lookupFunc n = if g.name = n then some id else T.lookupFunc n := by
  have hnum : (T.funcs.size + 1).toUInt32 = id := by
    apply UInt32.toNat_inj.1
    rw [hid, toNat_number (hid ▸ id.toNat_lt)]
  simp only [lookupFunc, h, Array.toList_push, List.findIdx?_append] at hg ⊢
  by_cases hn : g.name = n
  · subst hn
    rw [Option.map_eq_none_iff] at hg
    simp [hg, List.findIdx?_cons, ← hnum]
  · have : (g.name == n) = false := beq_eq_false_iff_ne.2 hn
    simp [hn, List.findIdx?_cons, this]

/-- An operation that succeeds registers its number under a name that meant nothing, and changes
    the meaning of no other name. -/
theorem Effect.find? {id : UInt32} (he : Effect T id T' op) (k : Key) :
    T'.find? k = if op.key? T = some k then some id else T.find? k := by
  cases op with
  | block parent span =>
    obtain ⟨ho, hf⟩ := he
    cases k with
    | var y n => exact ho.lookupLocal rfl y n
    | func n => exact lookupFunc_congr (by rw [hf]) n
  | var scope name type span =>
    obtain ⟨s, v, ha, rfl, rfl, -, -, -, hf⟩ := he
    cases k with
    | var y n => simpa [Table.find?, Op.key?] using ha.lookupLocal y n
    | func n => simpa [Table.find?, Op.key?] using lookupFunc_congr (by rw [hf]) n
  | func name result span =>
    obtain ⟨scope, hid, hn, ho, hf⟩ := he
    cases k with
    | var y n => simpa [Table.find?, Op.key?] using ho.lookupLocal rfl y n
    | func n => simpa [Table.find?, Op.key?] using lookupFunc_push hid hn hf n
  | param f name type span =>
    obtain ⟨g, s, v, hg, ha, hscope, rfl, -, -, -, hf⟩ := he
    have hnames : T'.funcs.toList.map (·.name) = T.funcs.toList.map (·.name) := by
      rw [hf]
      exact modifyFunc_names f fun _ => rfl
    cases k with
    | var y n => simpa [Table.find?, Op.key?, hg, hscope] using ha.lookupLocal y n
    | func n => simpa [Table.find?, Op.key?, hg] using lookupFunc_congr hnames n

theorem Effect.paramsOf {id : UInt32} (he : Effect T id T' op) (key : Option Key) (f : FuncId) :
    T'.paramsOf f = T.paramsOf f ++ (Entry.bound? f ⟨op, key, ⟨id, true⟩⟩).toList := by
  cases op with
  | block parent span => simp [Table.paramsOf, func?_congr he.2, Entry.bound?]
  | var scope name type span =>
    obtain ⟨s, v, -, -, -, -, -, -, hf⟩ := he
    simp [Table.paramsOf, func?_congr hf, Entry.bound?]
  | func name result span =>
    obtain ⟨scope, -, -, -, hf⟩ := he
    simp only [Table.paramsOf, func?_eq, hf, Entry.bound?, Option.toList_none, List.append_nil]
    by_cases hnew : f.toNat = T.funcs.size + 1
    · -- the function is new, and it has no parameters yet
      have hold : numbered T.funcs f = none := by
        cases hx : numbered T.funcs f with
        | none => rfl
        | some g => have := (numbered_lt hx).2; omega
      rw [numbered_push_new hnew, hold]
      rfl
    · rw [numbered_push_old hnew]
  | param g name type span =>
    obtain ⟨gf, s, v, hgf, -, -, -, -, -, -, hf⟩ := he
    have hfunc : T'.func? f = (T.modifyFunc g fun g => { g with params := g.params ++ [id] }).func? f := by
      rw [func?_eq, hf, ← func?_eq]
    simp only [Table.paramsOf, hfunc, modifyFunc_func?, Entry.bound?, and_true]
    by_cases hfg : f = g
    · subst hfg
      simp [hgf]
    · cases T.func? f <;> simp [hfg, Ne.symm hfg]

theorem empty_recorded : Recorded [] .empty := by
  refine ⟨fun k => ?_, fun f => ?_⟩
  · cases k with
    | func n => rfl
    | var y n =>
      simp only [find?, lookupLocal]
      cases hy : Table.empty.scope? y with
      | none => rfl
      | some s => rw [(empty_scope? hy).2]; rfl
  · simp only [paramsOf, empty_func?, Option.map_none, Option.getD_none, List.filterMap_nil]

theorem Recorded.step {id : UInt32} (h : Recorded log T) (hnew : ∀ k, op.key? T = some k → T.find? k = none)
    (he : Effect T id T' op) : Recorded (log ++ [⟨op, op.key? T, ⟨id, true⟩⟩]) T' := by
  refine ⟨fun k => ?_, fun f => ?_⟩
  · rw [he.find? k, List.find?_append]
    by_cases hk : op.key? T = some k
    · have hnone := h.first k
      rw [hnew k hk, Option.map_none, Option.map_eq_none_iff] at hnone
      simp [hk, hnone]
    · simp [hk, h.first k]
  · rw [he.paramsOf (op.key? T) f, h.params, List.filterMap_append]
    cases hb : Entry.bound? f ⟨op, op.key? T, ⟨id, true⟩⟩ <;> simp [hb]

theorem Recorded.again (h : Recorded log T) (hd : d.fresh = false) {k : Key} (hk : op.key? T = some k)
    (hid : T.find? k = some d.id) : Recorded (log ++ [⟨op, op.key? T, d⟩]) T := by
  refine ⟨fun l => ?_, fun f => ?_⟩
  · rw [List.find?_append, ← h.first l]
    cases hl : log.find? fun e => decide (e.key = some l) with
    | some e => rfl
    | none =>
      have hne : k ≠ l := by
        rintro rfl
        have := h.first k
        rw [hl, hid] at this
        cases this
      simp [hk, hne]
  · rw [h.params, List.filterMap_append]
    cases op <;> simp [Entry.bound?, hd]

theorem Reached.sound (h : Reached log T) : Consistent T ∧ Recorded log T := by
  induction h with
  | empty => exact ⟨empty_consistent, empty_recorded⟩
  | @step log T T' op d before done small ih =>
    obtain ⟨hc, hr⟩ := ih
    obtain ⟨s, hroot, -⟩ := hc.rooted.root
    rcases apply_cases ⟨s, hroot⟩ hc.few done with ⟨hd, hnew, he⟩ | ⟨hd, rfl, k, hk, hid⟩
    · obtain ⟨id, fresh⟩ := d
      obtain rfl : fresh = true := hd
      have heff := he small.scopes small.vars
      refine ⟨hc.step heff fun s v ha => ?_, hr.step hnew heff⟩
      exact (hc.packed _ s ha.before).room ha small
    · exact ⟨hc, hr.again hd hk hid⟩

/-! ## The check finds nothing -/

theorem varDefects_eq_nil {id : ScopeId} {footprint sum : UInt32} {seen : List Text} {xs : List VarId}
    (hl : LaidFrom T id sum.toNat xs footprint.toNat) (hd : (xs.map T.nameOf).Nodup)
    (hseen : ∀ x ∈ xs, T.nameOf x ∉ seen) : T.varDefects id footprint seen sum xs = [] := by
  induction xs generalizing seen sum with
  | nil =>
    have : sum = footprint := UInt32.toNat_inj.1 hl
    simp [varDefects, this]
  | cons x xs ih =>
    obtain ⟨v, hv, hscope, hoff, hrest⟩ := hl
    have hname : T.nameOf x = v.name := by simp only [nameOf, hv, Option.map_some, Option.getD_some]
    rw [List.map_cons, List.nodup_cons, hname] at hd
    have hsum : v.offset = sum + v.type.size := by
      have := v.offset.toNat_lt
      rw [← UInt32.toNat_inj, UInt32.toNat_add, Nat.mod_eq_of_lt (by omega), hoff]
    have hx : v.name ∉ seen := hname ▸ hseen x List.mem_cons_self
    simp only [varDefects, hv, ← hsum, hscope, ne_eq, not_true_eq_false, if_false, List.append_nil,
      List.contains_eq_mem, decide_eq_true_eq, if_neg hx, List.nil_append]
    refine ih hrest hd.2 fun y hy hmem => ?_
    rcases List.mem_cons.1 hmem with heq | hmem
    · exact hd.1 (heq ▸ List.mem_map_of_mem hy)
    · exact hseen y (List.mem_cons_of_mem x hy) hmem

theorem Consistent.linkDefects_eq_nil (h : Consistent T) {id : ScopeId} {s : Scope}
    (hs : T.scope? id = some s) : T.linkDefects id s = [] := by
  by_cases hid : id = global
  · obtain ⟨r, hr, hk, hp⟩ := h.rooted.root
    cases hr.symm.trans (hid ▸ hs)
    simp [linkDefects, hk, hp]
  · obtain ⟨hk, hlt, p, hp, -⟩ := h.rooted.parent id s hs hid
    have hkind : s.kind ≠ .invalid := by rcases hk with hk | hk <;> simp [hk]
    have hsize := numbered_lt hp
    have h0 : s.parent ≠ 0 := fun h0 => by rw [h0] at hsize; exact absurd hsize.1 (by decide)
    have hself : s.parent ≠ id := fun heq => by rw [heq] at hlt; omega
    simp [linkDefects, hkind, h0, hself, hsize.2]

theorem Consistent.funcDefects_eq_nil (h : Consistent T) {f : FuncId} (hg : T.func? f = some g) :
    T.funcDefects f g = [] := by
  obtain ⟨s, hs, hk, hf, -⟩ := h.params f g hg
  simp [funcDefects, hs, hk, hf]

theorem numbered_of_mem_zipIdx {α : Type} {a : Array α} {x : α} {i : Nat} (ha : a.size < 2 ^ 32)
    (h : (x, i) ∈ a.toList.zipIdx 1) : numbered a i.toUInt32 = some x := by
  obtain ⟨hle, hx⟩ := List.mk_mem_zipIdx_iff_le_and_getElem?_sub.1 h
  rw [Array.getElem?_toList] at hx
  have hlt := (Array.getElem?_eq_some_iff.1 hx).1
  obtain ⟨j, rfl⟩ : ∃ j, i = j + 1 := ⟨i - 1, by omega⟩
  exact numbered_eq_some.2 ⟨j, toNat_number (by omega), hx⟩

theorem Consistent.defects_eq_nil (h : Consistent T) (hs : T.scopes.size < 2 ^ 32) : T.defects = [] := by
  have hf : T.funcs.size < 2 ^ 32 := h.few.trans hs
  simp only [defects, List.append_eq_nil_iff, List.flatMap_eq_nil_iff]
  refine ⟨fun ⟨s, i⟩ hmem => ?_, fun ⟨g, i⟩ hmem => ?_⟩
  · have hscope : T.scope? i.toUInt32 = some s := numbered_of_mem_zipIdx hs hmem
    have hpack := h.packed _ s hscope
    exact ⟨h.linkDefects_eq_nil hscope, varDefects_eq_nil hpack.laid hpack.distinct fun _ _ => List.not_mem_nil⟩
  · exact h.funcDefects_eq_nil (numbered_of_mem_zipIdx hf hmem)

theorem Reached.small (h : Reached log T) : T.Small := by
  cases h with
  | empty =>
    refine ⟨by decide, by decide, fun id s hs => ?_⟩
    rw [(empty_scope? hs).2]
    decide
  | step _ _ _ small => exact small

/-- Every table that can be reached is consistent.  The check finds no defect; a scope other than
    the global one comes after its parent, which lists it once; the variables of a scope have
    distinct names, which are the registered ones, and fill it one after the other; the parameters of
    a function are the variables of its scope that were bound as parameters, in order.  An operation
    is refused if and only if its name was registered before; then it returns the number that was
    registered first and leaves the table as it is. -/
theorem Reached.consistent {log : List Entry} (h : Reached log T) :
    T.defects = [] ∧
    (∀ id s, T.scope? id = some s → id ≠ global → s.parent.toNat < id.toNat ∧
      ∃ p, T.scope? s.parent = some p ∧ p.children.count id = 1) ∧
    (∀ id s, T.scope? id = some s → (s.vars.map T.nameOf).Nodup ∧
      s.names = s.vars.map (fun x => (T.nameOf x, x)) ∧ (s.vars.map T.offsetOf).Pairwise (· < ·) ∧
      T.LaidFrom id 0 s.vars s.footprint.toNat) ∧
    (∀ f g, T.func? f = some g → ∃ s, T.scope? g.scope = some s ∧
      g.params = s.vars.filter T.isParam ∧ g.params = log.filterMap (Entry.bound? f)) ∧
    ∀ (op : Op) (d : Declared) (T' : Table), op.apply T = .ok (d, T') →
      (d.fresh = false ↔ ∃ k, op.key? T = some k ∧ ∃ e ∈ log, e.key = some k) ∧
      (d.fresh = false → T' = T ∧
        (log.find? fun e => decide (e.key = op.key? T)).map (·.out) = some ⟨d.id, true⟩) := by
  obtain ⟨hc, hr⟩ := h.sound
  refine ⟨hc.defects_eq_nil h.small.scopes, fun id s hs hid => (hc.rooted.parent id s hs hid).2,
    fun id s hs => ?_, fun f g hg => ?_, fun op d T' hop => ?_⟩
  · have hp := hc.packed id s hs
    exact ⟨hp.distinct, hp.names, hp.laid.increasing.2, hp.laid⟩
  · obtain ⟨s, hs, -, -, hparams⟩ := hc.params f g hg
    refine ⟨s, hs, hparams, ?_⟩
    rw [← hr.params f]
    simp only [paramsOf, hg, Option.map_some, Option.getD_some]
  · obtain ⟨r, hroot, -⟩ := hc.rooted.root
    rcases apply_cases ⟨r, hroot⟩ hc.few hop with ⟨hd, hnew, -⟩ | ⟨hd, rfl, k, hk, hid⟩
    · refine ⟨⟨fun h => absurd (hd.symm.trans h) (by decide), ?_⟩,
        fun h => absurd (hd.symm.trans h) (by decide)⟩
      rintro ⟨k, hk, e, he, hek⟩
      -- the name would be registered in the history, and so in the table
      have hfirst := hr.first k
      rw [hnew k hk, Option.map_none, Option.map_eq_none_iff, List.find?_eq_none] at hfirst
      exact absurd (decide_eq_true hek) (hfirst e he)
    · have hfirst := hr.first k
      rw [hid, Option.map_some] at hfirst
      obtain ⟨e, he, -⟩ := Option.map_eq_some_iff.1 hfirst
      refine ⟨⟨fun _ => ⟨k, hk, e, List.mem_of_find?_eq_some he, ?_⟩, fun _ => hd⟩, fun _ => ⟨rfl, ?_⟩⟩
      · simpa using List.find?_some he
      · rw [hk]
        exact hfirst

theorem Small.of_all (hs : T.scopes.size < 2 ^ 32) (hv : T.vars.size < 2 ^ 32)
    (hb : ∀ s ∈ T.scopes.toList, T.bytes s.vars < 2 ^ 32) : T.Small := by
  refine ⟨hs, hv, fun id s hid => hb s ?_⟩
  obtain ⟨i, -, hi⟩ := numbered_eq_some.1 hid
  exact Array.mem_toList_iff.2 (Array.mem_of_getElem? hi)

/-- A function with a parameter, whose name cannot be declared once more in its scope. -/
def redeclaration : List Entry :=
  [⟨.func (lit "f") .int {}, some (.func (lit "f")), ⟨1, true⟩⟩,
   ⟨.param 1 (lit "x") .int {}, some (.var 2 (lit "x")), ⟨1, true⟩⟩,
   ⟨.var 2 (lit "x") .bool {}, some (.var 2 (lit "x")), ⟨1, false⟩⟩]

theorem Reached.consistent_redeclaration : ∃ T, Reached redeclaration T ∧ T.defects = [] ∧
    T.paramsOf 1 = [1] ∧ T.lookupLocal 2 (lit "x") = some 1 := by
  have h₁ := Reached.step (.func (lit "f") .int {}) .empty rfl
    (.of_all (by decide) (by decide) (by decide))
  have h₂ := h₁.step (.param 1 (lit "x") .int {}) rfl (.of_all (by decide) (by decide) (by decide))
  have h₃ : Reached redeclaration _ :=
    h₂.step (.var 2 (lit "x") .bool {}) rfl (.of_all (by decide) (by decide) (by decide))
  exact ⟨_, h₃, h₃.consistent.1, by decide, by decide⟩

end Table

end Wacc
