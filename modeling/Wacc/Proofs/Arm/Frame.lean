/-
  Stack frames of a program.

  The scopes that are open at a point of the generation form a chain: the scope of the main program
  or of a function, then blocks inside each other.  `Frames T es sc d` says that `es` are the depths
  at which they were entered, that the innermost is `sc` and that `d` is the depth inside it.
-/
import Wacc.Proofs.Arm.Value

namespace Wacc.Arm

variable {T : Table} {sc o : ScopeId} {es : List (ScopeId × Int)} {d : Int}

/-- The scopes that are open, the depths at which they were entered, and the depth now. -/
inductive Frames (T : Table) : List (ScopeId × Int) → ScopeId → Int → Prop
  | main {s} : T.scope? Table.global = some s →
    Frames T [(Table.global, 4)] Table.global (4 + s.footprint.toNat)
  | func {f s} : T.scope? f = some s → s.kind = .function →
    Frames T [(f, -s.footprint.toNat)] f 4
  | block {es sc i d s} : Frames T es sc d →
    T.scope? i = some s → s.kind = .block → s.parent = sc →
    Frames T ((i, d) :: es) i (d + s.footprint.toNat)

def endsFrame (s : Scope) : Bool := s.kind == .function || s.kind == .global

def blockBytes (T : Table) (ids : List ScopeId) : Nat :=
  (ids.filterMap fun id => (T.scope? id).filter (·.kind == .block)).foldr
    (fun s n => s.footprint.toNat + n) 0

namespace Frames

theorem four_le (h : Frames T es sc d) : 4 ≤ d := by
  induction h with
  | main => omega
  | func => exact le_rfl
  | block _ _ _ _ ih => omega

theorem scope (h : Frames T es sc d) : ∃ s, T.scope? sc = some s := by cases h <;> exact ⟨_, ‹_›⟩

theorem lookup (hw : T.Wf) (h : Frames T es sc d) (he : T.Encloses sc o) :
    ∃ s base, T.scope? o = some s ∧ es.lookup o = some base ∧ base + s.footprint.toNat ≤ d := by
  induction h with
  | @main s hs =>
    have ho : o = Table.global := by
      cases he with
      | here => rfl
      | out hs' hk _ =>
        obtain ⟨r, hr, hrk⟩ := hw.root
        rw [hs', Option.some.injEq] at hr
        rw [hr, hrk] at hk
        cases hk
    subst ho
    exact ⟨s, 4, hs, by simp, le_rfl⟩
  | @func f s hs hk =>
    have ho : o = f := by
      cases he with
      | here => rfl
      | out hs' hk' _ =>
        rw [hs, Option.some.injEq] at hs'
        rw [← hs', hk] at hk'
        cases hk'
    subst ho
    exact ⟨s, -s.footprint.toNat, hs, by simp, by omega⟩
  | @block es sc i d s hf hs hk hp ih =>
    by_cases ho : o = i
    · subst ho
      exact ⟨s, d, hs, by simp, le_rfl⟩
    · cases he with
      | here => exact absurd rfl ho
      | out hs' _ he' =>
        rw [hs, Option.some.injEq] at hs'
        rw [← hs', hp] at he'
        obtain ⟨r, base, hr, hl, hle⟩ := ih he'
        refine ⟨r, base, hr, ?_, by omega⟩
        rw [List.lookup_cons, beq_false_of_ne ho]
        exact hl

theorem covers {s : Stage} (hw : T.Wf) (h : Frames T s.entry sc d) (hd : d ≤ s.depth) :
    Gen.Covers T s sc := by
  intro x v hv he
  obtain ⟨r, base, hr, hl, hle⟩ := h.lookup hw he
  obtain ⟨r', hr', -, hoff⟩ := hw.room x v hv
  rw [hr, Option.some.injEq] at hr'
  subst hr'
  exact ⟨v, base, hv, hl, by omega⟩

theorem le_of_mem (hw : T.Wf) (h : Frames T es sc d) : ∀ e ∈ es, e.1.toNat ≤ sc.toNat := by
  induction h with
  | main => simp
  | func => simp
  | @block es sc i d s _ hs hk hp ih =>
    have hpl := hw.placed i s hs
    simp only [Table.Placed, hk, hp] at hpl
    intro e he
    rcases List.mem_cons.1 he with rfl | he
    · exact le_rfl
    · exact (ih e he).trans hpl.1.le

theorem filter_entry (hw : T.Wf) (h : Frames T es sc d) {i : ScopeId} (hb : T.IsBlock sc i) :
    es.filter (fun e => e.1 != i) = es := by
  obtain ⟨s, hs, hk, hp⟩ := hb
  have hpl := hw.placed i s hs
  simp only [Table.Placed, hk, hp] at hpl
  refine List.filter_eq_self.2 fun e he => ?_
  have := h.le_of_mem hw e he
  simp only [bne_iff_ne, ne_eq]
  rintro rfl
  omega

theorem bound (hw : T.Wf) (h : Frames T es sc d) : d ≤ 4 + sc.toNat * (4 * T.vars.size) := by
  induction h with
  | @main s hs =>
    have := hw.footprint _ s hs
    simp only [Table.global, UInt32.toNat_one, Nat.cast_one, one_mul]
    omega
  | @func f s =>
    have : (0 : Int) ≤ f.toNat * (4 * T.vars.size) := by positivity
    omega
  | @block es sc i d s _ hs hk hp ih =>
    have hpl := hw.placed i s hs
    simp only [Table.Placed, hk, hp] at hpl
    have := hw.footprint i s hs
    have hle : ((sc.toNat : Int) + 1) * (4 * T.vars.size) ≤ i.toNat * (4 * T.vars.size) := by
      gcongr
      exact_mod_cast hpl.1
    rw [add_mul, one_mul] at hle
    omega

theorem inFunction (hw : T.Wf) (h : Frames T es sc d) (hin : T.InFunction sc) :
    ∃ f s, T.scope? f = some s ∧ s.kind = .function ∧ ∃ b, es.getLast? = some (f, b) := by
  obtain ⟨o, r, he, hr, hk⟩ := hin
  induction h with
  | @main s hs =>
    obtain ⟨g, hg, hgk⟩ := hw.root
    cases he with
    | here => rw [hg, Option.some.injEq] at hr; rw [← hr, hgk] at hk; cases hk
    | out hs' hk' _ => rw [hg, Option.some.injEq] at hs'; rw [← hs', hgk] at hk'; cases hk'
  | @func f s hs hk => exact ⟨f, s, hs, hk, _, rfl⟩
  | @block es sc i d s hf hs hkb hp ih =>
    have he' : T.Encloses sc o := by
      cases he with
      | here => rw [hs, Option.some.injEq] at hr; rw [← hr, hkb] at hk; cases hk
      | out hs' _ he' => rw [hs, Option.some.injEq] at hs'; rwa [← hs', hp] at he'
    obtain ⟨f, s', hs', hk', b, hb⟩ := ih he'
    refine ⟨f, s', hs', hk', b, ?_⟩
    cases es with
    | nil => cases hf
    | cons e es => simpa using hb

theorem blockBytes_outwards (hw : T.Wf) (h : Frames T es sc d) {f : ScopeId} {b : Int} {g : Scope}
    (hlast : es.getLast? = some (f, b)) (hg : T.scope? f = some g) (hgk : g.kind = .function) {n : Nat}
    (hn : sc.toNat ≤ n) : (blockBytes T ((T.outwards endsFrame n sc).map (·.1)) : Int) = d - 4 := by
  induction h generalizing n with
  | @main s hs =>
    obtain ⟨r, hr, hrk⟩ := hw.root
    obtain ⟨rfl, -⟩ : Table.global = f ∧ 4 = b := by simpa using hlast
    rw [hg, Option.some.injEq] at hr
    rw [← hr, hgk] at hrk
    cases hrk
  | @func f' s hs hk =>
    obtain ⟨m, rfl⟩ : ∃ m, n = m + 1 := Nat.exists_eq_succ_of_ne_zero (by
      have := (Table.numbered_lt hs).1; omega)
    simp [Table.outwards, hs, endsFrame, hk, blockBytes]
  | @block es sc i d s hf hs hk hp ih =>
    have hpl := hw.placed i s hs
    simp only [Table.Placed, hk, hp] at hpl
    obtain ⟨m, rfl⟩ : ∃ m, n = m + 1 := Nat.exists_eq_succ_of_ne_zero (by omega)
    have hes : es.getLast? = some (f, b) := by
      cases es with
      | nil => cases hf
      | cons e es => simpa using hlast
    have hrec := ih hes (n := m) (by omega)
    have hend : endsFrame s = false := by simp [endsFrame, hk]
    rw [Table.outwards, hs]
    simp only [hend, Bool.false_eq_true, if_false, List.map_cons, hp]
    simp only [blockBytes, List.filterMap_cons, hs, Option.filter, hk, beq_self_eq_true, if_true,
      List.foldr_cons] at hrec ⊢
    omega

theorem blockBytes_frameChain (hw : T.Wf) (h : Frames T es sc d) (hin : T.InFunction sc) :
    (blockBytes T (T.frameChain sc) : Int) = d - 4 := by
  obtain ⟨f, g, hg, hgk, b, hlast⟩ := h.inFunction hw hin
  obtain ⟨s, hs⟩ := h.scope
  exact h.blockBytes_outwards hw hlast hg hgk (Table.numbered_lt hs).2

end Frames

end Wacc.Arm
