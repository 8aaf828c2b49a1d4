/-
  The scopes of one frame, from the inside out.
-/
import Wacc.Proofs.Table.Enclosing

namespace Wacc.Table

variable {T T' : Table} {sc : ScopeId} {s : Scope}

/-! ## Chains -/

def isFrame (s : Scope) : Bool := s.kind == .function || s.kind == .global

def Nested (T : Table) : Prop :=
  ∀ id s, T.scope? id = some s → (s.kind = .global ∧ s.parent = 0) ∨ s.kind = .function ∨
    (s.kind = .block ∧ s.parent.toNat < id.toNat ∧ ∃ p, T.scope? s.parent = some p)

theorem Wf.nested (hw : T.Wf) : T.Nested := by
  intro id s hs
  have hp := hw.placed id s hs
  cases hk : s.kind with
  | global => simp only [Placed, hk] at hp; exact .inl ⟨rfl, hp.2⟩
  | function => exact .inr (.inl rfl)
  | block => simp only [Placed, hk] at hp; exact .inr (.inr ⟨rfl, hp⟩)
  | invalid => simp [Placed, hk] at hp
  | other => simp [Placed, hk] at hp

theorem isFrame_eq_false (hn : T.Nested) (hs : T.scope? sc = some s) (h : isFrame s = false) :
    s.kind = .block ∧ s.parent.toNat < sc.toNat ∧ ∃ p, T.scope? s.parent = some p := by
  rcases hn sc s hs with ⟨hk, -⟩ | hk | hblock
  · simp [isFrame, hk] at h
  · simp [isFrame, hk] at h
  · exact hblock

theorem outwards_fuel (hn : T.Nested) {last : Scope → Bool} (hlast : ∀ s : Scope, s.kind = .function → last s = true)
    {m n : Nat} (hm : sc.toNat ≤ m) (hmn : m ≤ n) : T.outwards last n sc = T.outwards last m sc := by
  induction m generalizing sc n with
  | zero =>
    obtain rfl : sc = 0 := UInt32.toNat_inj.1 (Nat.le_zero.1 hm)
    cases n with
    | zero => rfl
    | succ n => rw [outwards, outwards, scope?_zero]
  | succ m ih =>
    obtain ⟨n, rfl⟩ : ∃ k, n = k + 1 := ⟨n - 1, by omega⟩
    rw [outwards, outwards]
    cases hs : T.scope? sc with
    | none => rfl
    | some s =>
      have hnext : last s = false → T.outwards last n s.parent = T.outwards last m s.parent := fun hl => by
        rcases hn sc s hs with ⟨-, hp⟩ | hk | ⟨-, hlt, -⟩
        · exact ih (by rw [hp]; exact Nat.zero_le _) (by omega)
        · rw [hlast s hk] at hl
          cases hl
        · exact ih (by omega) (by omega)
      cases hl : last s with
      | true => simp [hl]
      | false => simp [hl, hnext hl]

theorem visible_eq (hw : T.Nested) (sc : ScopeId) :
    T.visible sc = T.outwards isFrame T.scopes.size sc := by
  unfold visible
  generalize T.scopes.size = n
  induction n generalizing sc with
  | zero => rfl
  | succ n ih =>
    rw [outwards, outwards]
    cases hs : T.scope? sc with
    | none => rfl
    | some s =>
      rcases hw sc s hs with ⟨hk, hp⟩ | hk | ⟨hk, -⟩
      · -- the global scope has no parent
        have hstop : T.outwards (·.kind == .function) n s.parent = [] := by
          cases n with
          | zero => rfl
          | succ n => rw [outwards, hp, scope?_zero]
        simp [isFrame, hk, hstop]
      · simp [isFrame, hk]
      · simp [isFrame, hk, ih]

theorem frameChain_eq (sc : ScopeId) :
    T.frameChain sc = (T.outwards isFrame T.scopes.size sc).map (·.1) := rfl

theorem frameChain_cons (hw : T.Nested) (hs : T.scope? sc = some s) :
    T.frameChain sc = sc :: if isFrame s then [] else T.frameChain s.parent := by
  have hle := (numbered_lt hs).2
  rw [frameChain_eq]
  obtain ⟨n, hn⟩ : ∃ n, T.scopes.size = n + 1 := ⟨T.scopes.size - 1, by have := (numbered_lt hs).1; omega⟩
  rw [hn, outwards, hs]
  cases hf : isFrame s with
  | true => simp [hf]
  | false =>
    have hlt := (isFrame_eq_false hw hs hf).2.1
    simp only [hf, Bool.false_eq_true, if_false, List.map_cons]
    rw [frameChain_eq, hn, outwards_fuel hw (fun t ht => by simp [isFrame, ht]) (by omega) (Nat.le_succ n)]

theorem frameChain_none (h : T.scope? sc = none) : T.frameChain sc = [] := by
  rw [frameChain_eq]
  cases T.scopes.size with
  | zero => rfl
  | succ n => rw [outwards, h]; rfl

theorem Grows.shape (h : T.Grows T') (id : ScopeId) (s : Scope) (hs : T.scope? id = some s) :
    ∃ s', T'.scope? id = some s' ∧ s'.kind = s.kind ∧ s'.parent = s.parent := by
  obtain ⟨s', hs', hk, hp, -⟩ := h.scopes id s hs
  exact ⟨s', hs', hk, hp⟩

theorem frameChain_grows (hn : T.Nested) (hn' : T'.Nested) (h : ∀ id s, T.scope? id = some s → ∃ s', T'.scope? id =
      some s' ∧ s'.kind = s.kind ∧ s'.parent = s.parent) (hs : T.scope? sc = some s) :
    T'.frameChain sc = T.frameChain sc := by
  obtain ⟨n, hsc⟩ : ∃ n, sc.toNat = n := ⟨_, rfl⟩
  induction n using Nat.strong_induction_on generalizing sc s with
  | _ n ih =>
    obtain ⟨s', hs', hk, hp⟩ := h sc s hs
    have hframe : isFrame s' = isFrame s := by rw [isFrame, isFrame, hk]
    rw [frameChain_cons hn hs, frameChain_cons hn' hs', hframe, hp]
    cases hf : isFrame s with
    | true => rfl
    | false =>
      obtain ⟨-, hlt, r, hr⟩ := isFrame_eq_false hn hs hf
      rw [ih s.parent.toNat (hsc ▸ hlt) hr rfl]

/-! ## Names -/

def Listed (T : Table) : Prop :=
  ∀ x v, T.var? x = some v → ∃ s, T.scope? v.scope = some s ∧ (v.name, x) ∈ s.names

theorem empty_listed : Table.empty.Listed := fun x v h => by
  have := numbered_lt h; simp [Table.empty] at this; omega

theorem Opens.listed {new : Scope} {id : ScopeId} (h : Opens T new id T') (hl : T.Listed) : T'.Listed := by
  intro x v hx
  obtain ⟨s, hs, hn⟩ := hl x v ((h.var? x).symm.trans hx)
  exact ⟨_, h.old hs, hn⟩

theorem Adds.listed {x : VarId} {v : Variable} (h : Adds T s x v T') (hl : T.Listed) : T'.Listed := by
  intro y w hy
  rcases h.var_cases hy with ⟨rfl, rfl⟩ | ⟨-, hy⟩
  · exact ⟨_, h.there, List.mem_append_right _ (List.mem_singleton_self _)⟩
  · obtain ⟨t, ht, hn⟩ := hl y w hy
    refine ⟨_, h.keeps ht, ?_⟩
    split_ifs
    · exact List.mem_append_left _ hn
    · exact hn

theorem lookup_nearest (hw : T.Wf) (hl : T.Listed) {name : Text} {x : VarId}
    (h : T.lookup sc name = some x) :
    ∃ v near far, T.var? x = some v ∧ v.name = name ∧ T.frameChain sc = near ++ v.scope :: far ∧
      ∀ o ∈ near, ∀ y w, T.var? y = some w → w.scope = o → w.name ≠ name := by
  rw [lookup, visible_eq hw.nested] at h
  obtain ⟨l1, ⟨o, s⟩, l2, hl1, hs, hnone⟩ := List.findSome?_eq_some_iff.1 h
  have hmem : ∀ q ∈ T.outwards isFrame T.scopes.size sc, T.scope? q.1 = some q.2 := by
    intro q hq
    rw [← visible_eq hw.nested] at hq
    exact (outwards_encloses hw hq).2
  have ho : T.scope? o = some s := hmem (o, s) (by simp [hl1])
  obtain ⟨k1, k2, hk, -⟩ := List.lookup_eq_some_iff.1 hs
  obtain ⟨v, hv, rfl, hname⟩ := hw.names o s name x ho (by simp [hk])
  refine ⟨v, l1.map (·.1), l2.map (·.1), hv, hname, by rw [frameChain_eq, hl1]; simp, ?_⟩
  intro o' ho' y w hy hws hwn
  obtain ⟨⟨_, s'⟩, hq, rfl⟩ := List.mem_map.1 ho'
  obtain ⟨t, ht, hmem'⟩ := hl y w hy
  cases (hmem _ (by simp [hl1, hq])).symm.trans (hws ▸ ht)
  have hno : s'.names.lookup name = none := hnone _ hq
  rw [List.lookup_eq_none_iff] at hno
  simpa [hwn] using hno _ hmem'

end Wacc.Table
