/-
  Scopes around a scope.
-/
import Wacc.Proofs.Table.WellFormed

namespace Wacc.Table

variable {T T' : Table} {sc o : ScopeId}

inductive Encloses (T : Table) : ScopeId → ScopeId → Prop
  | here {sc : ScopeId} {s : Scope} : T.scope? sc = some s → Encloses T sc sc
  | out {sc o : ScopeId} {s : Scope} :
    T.scope? sc = some s → s.kind = .block → Encloses T s.parent o → Encloses T sc o

theorem Encloses.mono (h : T.Grows T') (he : T.Encloses sc o) : T'.Encloses sc o := by
  induction he with
  | here hs =>
    obtain ⟨s', hs', -⟩ := h.scopes _ _ hs
    exact .here hs'
  | out hs hk _ ih =>
    obtain ⟨s', hs', hk', hp', -⟩ := h.scopes _ _ hs
    exact .out hs' (hk'.trans hk) (hp'.symm ▸ ih)

theorem Encloses.scope (h : T.Encloses sc o) : ∃ s, T.scope? o = some s := by
  induction h with
  | here hs => exact ⟨_, hs⟩
  | out _ _ _ ih => exact ih

theorem outwards_encloses (hw : T.Wf) {n : Nat} {s : Scope}
    (h : (o, s) ∈ T.outwards (·.kind == .function) n sc) : T.Encloses sc o ∧ T.scope? o = some s := by
  induction n generalizing sc with
  | zero => simp [outwards] at h
  | succ n ih =>
    rw [outwards] at h
    split at h
    · simp at h
    · rename_i t ht
      rcases List.mem_cons.1 h with he | h
      · cases he
        exact ⟨.here ht, ht⟩
      · split_ifs at h with hf
        · simp at h
        · obtain ⟨hen, hs⟩ := ih h
          have hpl := hw.placed sc t ht
          refine ⟨.out ht ?_ hen, hs⟩
          -- what is neither a function nor a block is the global scope, which has no parent
          cases hk : t.kind with
          | block => rfl
          | global =>
            simp only [Placed, hk] at hpl
            obtain ⟨r, hr⟩ : ∃ r, T.scope? t.parent = some r := by cases hen <;> exact ⟨_, ‹_›⟩
            rw [hpl.2, scope?_zero] at hr
            cases hr
          | function => simp [hk] at hf
          | invalid => simp [Placed, hk] at hpl
          | other => simp [Placed, hk] at hpl

theorem lookup_encloses (hw : T.Wf) {name : Text} {x : VarId} (h : T.lookup sc name = some x) :
    ∃ v, T.var? x = some v ∧ T.Encloses sc v.scope := by
  obtain ⟨⟨o, s⟩, hmem, hlook⟩ := List.exists_of_findSome?_eq_some h
  obtain ⟨hen, hs⟩ := outwards_encloses hw hmem
  obtain ⟨l1, l2, hnames, -⟩ := List.lookup_eq_some_iff.1 hlook
  obtain ⟨v, hv, rfl, -⟩ := hw.names o s name x hs (by simp [hnames])
  exact ⟨v, hv, hen⟩

theorem enclosingFunc_encloses (hw : T.Wf) (h : T.enclosingFunc sc ≠ 0) :
    ∃ o s, T.Encloses sc o ∧ T.scope? o = some s ∧ s.kind = .function := by
  unfold enclosingFunc at h
  split at h
  · rename_i o s hf
    obtain ⟨hen, hs⟩ := outwards_encloses hw (List.mem_of_find?_eq_some hf)
    exact ⟨o, s, hen, hs, by simpa using List.find?_some hf⟩
  · exact absurd rfl h

end Wacc.Table
