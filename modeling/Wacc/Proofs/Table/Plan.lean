/-
  Plans.

  The plan of a table is what code generation sees of it: its scopes with their kinds and parents, and
  for each scope the names of its variables with their offsets, and the bytes that they take.
-/
import Wacc.Proofs.Table.Enclosing
import Wacc.Proofs.Table.Reached
import Wacc.Tree.Basic

namespace Wacc

structure Region where
  kind : ScopeKind
  parent : Nat
  /-- names and offsets, in the order of the declarations -/
  vars : List (Text × Nat) := []
  footprint : Nat := 0
  deriving DecidableEq, Repr

def Region.declare (r : Region) (name : Text) (size : Nat) : Region :=
  if name ∈ r.vars.map (·.1) then r
  else { r with vars := r.vars ++ [(name, r.footprint + size)], footprint := r.footprint + size }

abbrev Plan := List Region

namespace Plan

def enter (P : Plan) (kind : ScopeKind) (parent : Nat) : Plan := P ++ [{ kind, parent : Region }]

def declare (P : Plan) (scope : Nat) (name : Text) (size : Nat) : Plan :=
  P.modify (scope - 1) (·.declare name size)

/-- The functions with a name that is new where they stand. -/
def firsts : List Text → List Tree → List Tree
  | _, [] => []
  | seen, f :: fs =>
    if (f.child 1).text ∈ seen then firsts seen fs else f :: firsts ((f.child 1).text :: seen) fs

theorem declare_getElem? (P : Plan) (scope : Nat) (name : Text) (size i : Nat) :
    (P.declare scope name size)[i]? =
      P[i]?.map fun r => if scope - 1 = i then r.declare name size else r := by
  rw [declare, List.getElem?_modify]
  rfl

end Plan

namespace Table

variable {T T' : Table} {s : Scope} {id : ScopeId} {name : Text} {log : List Entry} {i sc : ScopeId}

def region (T : Table) (s : Scope) : Region where
  kind := s.kind
  parent := s.parent.toNat
  vars := s.vars.map fun x => (T.nameOf x, (T.offsetOf x).toNat)
  footprint := s.footprint.toNat

def plan (T : Table) : Plan := T.scopes.toList.map T.region

theorem length_plan : T.plan.length = T.scopes.size := by simp [plan]

theorem plan_getElem? (h : T.scope? id = some s) : T.plan[id.toNat - 1]? = some (T.region s) := by
  obtain ⟨i, hi, hx⟩ := numbered_eq_some.1 h
  rw [show id.toNat - 1 = i by omega, plan, List.getElem?_map, Array.getElem?_toList, hx, Option.map_some]

theorem plan_eq {P : Plan} (hsize : T.scopes.size < 2 ^ 32) (hlen : P.length = T.scopes.size)
    (h : ∀ id s, T.scope? id = some s → P[id.toNat - 1]? = some (T.region s)) : T.plan = P := by
  refine List.ext_getElem? fun i => ?_
  by_cases hi : i < T.scopes.size
  · have hnum : (i + 1).toUInt32.toNat = i + 1 := toNat_number (by omega)
    have hs : T.scope? (i + 1).toUInt32 = some T.scopes[i] :=
      numbered_eq_some.2 ⟨i, hnum, Array.getElem?_eq_getElem hi⟩
    have := (plan_getElem? hs).trans (h _ _ hs).symm
    rwa [hnum, Nat.add_sub_cancel] at this
  · rw [List.getElem?_eq_none (by rw [length_plan]; omega), List.getElem?_eq_none (by omega)]

theorem Packed.region_mono (h : Packed T id s) (hv : ∀ x v, T.var? x = some v → T'.var? x = some v) :
    T'.region s = T.region s := by
  simp only [region, Region.mk.injEq, true_and, and_true]
  refine List.map_congr_left fun x hx => ?_
  obtain ⟨v, hxv, -⟩ := h.laid.exists_var hx
  simp only [nameOf, offsetOf, hxv, hv x v hxv]

theorem plan_opens {new : Scope} (h : Consistent T) (ho : Opens T new id T') (hv : new.vars = [])
    (hf : new.footprint = 0) (hsize : T'.scopes.size < 2 ^ 32) :
    T'.plan = T.plan.enter new.kind new.parent.toNat := by
  have hid := ho.number
  refine plan_eq hsize (by simp [Plan.enter, length_plan, ho.size]) fun y t' hy => ?_
  rcases ho.cases hy with ⟨rfl, rfl⟩ | ⟨t, ht, rfl⟩
  · rw [Plan.enter, List.getElem?_append_right (by rw [length_plan]; omega), length_plan,
      show y.toNat - 1 - T.scopes.size = 0 by omega]
    simp [region, hv, hf]
  · have hlt := numbered_lt ht
    rw [Plan.enter, List.getElem?_append_left (by rw [length_plan]; omega), plan_getElem? ht]
    have hregion : T'.region t = T.region t :=
      (h.packed y t ht).region_mono fun x v hx => (ho.var? x).trans hx
    exact congrArg some hregion.symm

theorem Packed.mem_region (h : Packed T id s) (name : Text) :
    name ∈ (T.region s).vars.map (·.1) ↔ s.names.lookup name ≠ none := by
  have hvars : (T.region s).vars.map (·.1) = s.vars.map T.nameOf := by
    simp [region, Function.comp_def]
  rw [hvars]
  constructor
  · exact fun hmem hn => h.not_mem hn hmem
  · intro hn
    obtain ⟨x, hx⟩ := Option.ne_none_iff_exists'.1 hn
    obtain ⟨l, r, heq, -⟩ := List.lookup_eq_some_iff.1 hx
    have hmem : (name, x) ∈ s.names := by rw [heq]; simp
    rw [h.names] at hmem
    obtain ⟨y, hy, he⟩ := List.mem_map.1 hmem
    exact List.mem_map.2 ⟨y, hy, congrArg Prod.fst he⟩

theorem plan_adds {x : VarId} {v : Variable} (h : Consistent T) (ha : Adds T s x v T')
    (hroom : s.footprint.toNat + v.type.size.toNat < 2 ^ 32) (hsize : T'.scopes.size < 2 ^ 32) :
    T'.plan = T.plan.declare v.scope.toNat v.name v.type.size.toNat := by
  refine plan_eq hsize (by simp [Plan.declare, length_plan, ha.scopes]) fun y t' hy => ?_
  rw [Plan.declare_getElem?]
  rcases ha.cases hy with ⟨rfl, rfl⟩ | ⟨hne, ht⟩
  · have hpack := h.packed _ s ha.before
    have hunknown : v.name ∉ (T.region s).vars.map (·.1) := fun hmem =>
      (hpack.mem_region v.name).1 hmem ha.unknown
    have hregion := hpack.region_mono ha.old
    rw [plan_getElem? ha.before, Option.map_some, if_pos rfl, Region.declare, if_neg hunknown, ← hregion]
    simp only [region, Scope.add, List.map_append, List.map_singleton, nameOf, offsetOf, ha.here,
      Option.map_some, Option.getD_some, ha.toNat_offset hroom]
  · have hyne : v.scope.toNat - 1 ≠ y.toNat - 1 := fun heq => hne <| UInt32.toNat_inj.1 <| by
      have := numbered_lt ht
      have := numbered_lt ha.before
      omega
    rw [plan_getElem? ht, Option.map_some, if_neg hyne, (h.packed y t' ht).region_mono ha.old]

theorem plan_known (h : Consistent T) (hs : T.scope? id = some s) (hn : s.names.lookup name ≠ none) (size : Nat) :
    T.plan.declare id.toNat name size = T.plan := by
  have hmem := ((h.packed id s hs).mem_region name).2 hn
  refine List.ext_getElem? fun i => ?_
  rw [Plan.declare_getElem?]
  by_cases hi : id.toNat - 1 = i
  · rw [← hi, plan_getElem? hs, Option.map_some, if_pos rfl, Region.declare, if_pos hmem]
  · simp only [if_neg hi]
    exact Option.map_id'

theorem Consistent.small (h : Consistent T) (hs : T.scopes.size < 2 ^ 32) (hv : T.vars.size < 2 ^ 32) :
    T.Small := by
  refine ⟨hs, hv, fun id s hid => ?_⟩
  have hbytes := (h.packed id s hid).laid.bytes
  rw [Nat.zero_add] at hbytes
  exact hbytes ▸ s.footprint.toNat_lt

theorem lookupFunc_of_not_mem (h : name ∉ T.funcs.toList.map (·.name)) : T.lookupFunc name = none := by
  rw [lookupFunc, Option.map_eq_none_iff, List.findIdx?_eq_none_iff]
  intro g hg
  exact beq_eq_false_iff_ne.2 fun heq => h (heq ▸ List.mem_map_of_mem hg)

/-! ## Later tables -/

inductive Leads (T : Table) : Table → Prop where
  | refl : Leads T T
  | step {T' T'' : Table} (op : Op) {d : Declared} (before : Leads T T')
      (done : op.apply T' = .ok (d, T'')) (small : T''.Small) : Leads T T''

theorem Leads.trans {T'' : Table} (h : T.Leads T') (h' : T'.Leads T'') : T.Leads T'' := by
  induction h' with
  | refl => exact h
  | step op _ done small ih => exact ih.step op done small

theorem Leads.reached (h : T.Leads T') (hr : Reached log T) : ∃ log', Reached log' T' := by
  induction h with
  | refl => exact ⟨log, hr⟩
  | step op _ done small ih =>
    obtain ⟨log', hr'⟩ := ih
    exact ⟨_, hr'.step op done small⟩

theorem Leads.find? (h : T.Leads T') (hr : Reached log T) {k : Key} (hk : T.find? k ≠ none) : T'.find? k ≠ none := by
  induction h with
  | refl => exact hk
  | step op before done small ih =>
    obtain ⟨log', hr'⟩ := before.reached hr
    have hc := hr'.sound.1
    obtain ⟨r, hroot, -⟩ := hc.rooted.root
    rcases apply_cases ⟨r, hroot⟩ hc.few done with ⟨-, -, he⟩ | ⟨-, rfl, -⟩
    · rw [(he small.scopes small.vars).find? k]
      split_ifs
      · exact Option.some_ne_none _
      · exact ih
    · exact ih

theorem Encloses.mem_outwards {n : Nat} (hr : Rooted T) (h : T.Encloses i sc) (hs : T.scope? sc = some s)
    (hn : i.toNat ≤ n) : (sc, s) ∈ T.outwards (·.kind == .function) n i := by
  induction h generalizing n with
  | here ht =>
    have := (numbered_lt ht).1
    obtain ⟨m, rfl⟩ : ∃ m, n = m + 1 := ⟨n - 1, by omega⟩
    rw [outwards, hs]
    exact List.mem_cons_self
  | @out i sc t ht hk _ ih =>
    have hi : i ≠ global := by
      rintro rfl
      obtain ⟨r, hroot, hrk, -⟩ := hr.root
      rw [Option.some.inj (ht.symm.trans hroot), hrk] at hk
      cases hk
    have := (hr.parent i t ht hi).2.1
    obtain ⟨m, rfl⟩ : ∃ m, n = m + 1 := ⟨n - 1, by omega⟩
    have hlast : (t.kind == ScopeKind.function) = false := by rw [hk]; decide
    rw [outwards, ht]
    simp only [hlast, Bool.false_eq_true, if_false]
    exact List.mem_cons_of_mem _ (ih hs (by omega))

theorem Encloses.lookup (hr : Rooted T) (h : T.Encloses i sc) (hn : T.find? (.var sc name) ≠ none) :
    (T.lookup i name).isSome = true := by
  obtain ⟨s, hs⟩ := h.scope
  have hi : i.toNat ≤ T.scopes.size := by
    cases h with
    | here ht => exact (numbered_lt ht).2
    | out ht => exact (numbered_lt ht).2
  rw [find?_var hs] at hn
  rw [Table.lookup, List.findSome?_isSome_iff]
  exact ⟨(sc, s), h.mem_outwards hr hs hi, Option.isSome_iff_ne_none.2 hn⟩

theorem scope?_of_mem_outwards {last : Scope → Bool} {n : Nat} {i o : ScopeId} (h : (o, s) ∈ T.outwards last n i) :
    T.scope? o = some s := by
  induction n generalizing i with
  | zero => cases h
  | succ n ih =>
    rw [outwards] at h
    split at h
    · cases h
    · rename_i t ht
      rcases List.mem_cons.1 h with he | h
      · cases he
        exact ht
      · split_ifs at h
        · cases h
        · exact ih h

theorem Consistent.var?_of_lookup {i : ScopeId} {x : VarId} (h : Consistent T) (hx : T.lookup i name = some x) :
    ∃ v, T.var? x = some v := by
  obtain ⟨⟨o, s⟩, hmem, hlookup⟩ := List.exists_of_findSome?_eq_some hx
  have hpack := h.packed o s (scope?_of_mem_outwards hmem)
  obtain ⟨l, r, heq, -⟩ := List.lookup_eq_some_iff.1 hlookup
  have hname : (name, x) ∈ s.names := by rw [heq]; simp
  rw [hpack.names] at hname
  obtain ⟨y, hy, he⟩ := List.mem_map.1 hname
  obtain rfl : y = x := congrArg Prod.snd he
  obtain ⟨v, hv, -⟩ := hpack.laid.exists_var hy
  exact ⟨v, hv⟩

end Table

end Wacc
