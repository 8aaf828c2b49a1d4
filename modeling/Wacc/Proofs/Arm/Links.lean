/-
  Labels of generated code, and what refers to them.

  A piece of code has places of its own, which no other piece has; it may branch to places that are given to
  it, and it defines some of the places that are given to it.  What it uses of the constants and routines of
  the program is there when it is generated.
-/
import Wacc.Proofs.Arm.Flow
import Wacc.Proofs.Arm.Straight
import Mathlib.Logic.Relation

namespace Wacc.Arm

/-! ## References -/

def refsOf (out : List Line) : List Callee :=
  out.flatMap fun
    | .instr i => i.refs
    | _ => []

@[simp] theorem refsOf_append (o o' : List Line) : refsOf (o ++ o') = refsOf o ++ refsOf o' :=
  List.flatMap_append

@[simp] theorem refsOf_nil : refsOf [] = [] := rfl

@[simp] theorem refsOf_label (l : Label) (o : List Line) : refsOf (.label l :: o) = refsOf o := rfl

@[simp] theorem refsOf_instr (i : Instr) (o : List Line) : refsOf (.instr i :: o) = i.refs ++ refsOf o := rfl

@[simp] theorem refsOf_pool (o : List Line) : refsOf (.pool :: o) = refsOf o := rfl

@[simp] theorem labelsOf_pool (o : List Line) : labelsOf (.pool :: o) = labelsOf o := rfl

/-! ## Routines -/

namespace Routine

def Refers (r r' : Routine) : Prop := ∃ n, Callee.label (.routine r') ∈ refsOf ((r.body n).map .instr)

variable {used work : List Routine} {fuel : Nat} {r r' : Routine}

theorem refers_iff : r.Refers r' ↔ r' ∈ r.needs := by
  cases r <;> simp [Refers, needs, body, throwIf, printWith, readWith, chars, flush, enter, leave, lib, Instr.refs]

def Reaches : Routine → Routine → Prop := Relation.ReflTransGen Refers

def cost : Routine → Nat
  | .throwRuntime => 2
  | .throwOverflow | .checkDivideByZero | .checkArrayBounds | .checkNullPointer | .freePair => 3
  | _ => 1

theorem cost_eq (r : Routine) : r.cost = 1 + (r.needs.map cost).sum := by cases r <;> rfl

def Complete (rs : List Routine) : Prop := ∀ r ∈ rs, ∀ r' ∈ r.needs, r' ∈ rs

theorem Complete.reaches {rs : List Routine} (h : Complete rs) (hr : r ∈ rs) (hreach : r.Reaches r') : r' ∈ rs := by
  induction hreach with
  | refl => exact hr
  | tail _ hstep ih => exact h _ ih _ (refers_iff.1 hstep)

theorem nodup_use (h : used.Nodup) : (use fuel used work).Nodup := by
  induction fuel generalizing used work with
  | zero => exact h
  | succ fuel ih =>
    cases work with
    | nil => exact h
    | cons r work =>
      rw [use]
      split_ifs with hr
      · exact ih h
      · refine ih (List.nodup_append.2 ⟨h, List.nodup_singleton r, ?_⟩)
        rintro a ha _ hb rfl
        obtain rfl := List.mem_singleton.1 hb
        exact hr (by simpa using ha)

theorem mem_of_mem_use {x : Routine} (h : x ∈ use fuel used work) : x ∈ used ∨ ∃ r ∈ work, r.Reaches x := by
  induction fuel generalizing used work with
  | zero => exact .inl h
  | succ fuel ih =>
    cases work with
    | nil => exact .inl h
    | cons r work =>
      rw [use] at h
      split_ifs at h
      · exact (ih h).imp_right fun ⟨q, hq, hx⟩ => ⟨q, List.mem_cons_of_mem _ hq, hx⟩
      · rcases ih h with h | ⟨q, hq, hx⟩
        · rcases List.mem_append.1 h with h | h
          · exact .inl h
          · obtain rfl := List.mem_singleton.1 h
            exact .inr ⟨x, List.mem_cons_self, .refl⟩
        · rcases List.mem_append.1 hq with hq | hq
          · exact .inr ⟨q, List.mem_cons_of_mem _ hq, hx⟩
          · exact .inr ⟨r, List.mem_cons_self, .head (refers_iff.2 hq) hx⟩

/-- All that is needed is put to use: what is used already needs nothing but itself and the work to do, and
    there is fuel for the work. -/
theorem complete_use (hfuel : (work.map cost).sum ≤ fuel) (h : ∀ r ∈ used, ∀ r' ∈ r.needs, r' ∈ used ∨ r' ∈ work) :
    Complete (use fuel used work) ∧ used ⊆ use fuel used work ∧ work ⊆ use fuel used work := by
  induction fuel generalizing used work with
  | zero =>
    cases work with
    | nil => exact ⟨fun r hr r' hr' => (h r hr r' hr').resolve_right (by simp), fun _ h => h, by simp⟩
    | cons r work =>
      have hpos := r.cost_eq
      simp only [List.map_cons, List.sum_cons] at hfuel
      omega
  | succ fuel ih =>
    cases work with
    | nil => exact ⟨fun r hr r' hr' => (h r hr r' hr').resolve_right (by simp), fun _ h => h, by simp⟩
    | cons r work =>
      have hcost := r.cost_eq
      simp only [List.map_cons, List.sum_cons] at hfuel
      rw [use]
      split_ifs with hr
      · have hused : r ∈ used := by simpa using hr
        have hrest : ∀ q ∈ used, ∀ q' ∈ q.needs, q' ∈ used ∨ q' ∈ work := by
          intro q hq q' hq'
          rcases h q hq q' hq' with h | h
          · exact .inl h
          · rcases List.mem_cons.1 h with rfl | h
            · exact .inl hused
            · exact .inr h
        obtain ⟨hc, hu, hw⟩ := ih (by omega) hrest
        exact ⟨hc, hu, List.cons_subset.2 ⟨hu hused, hw⟩⟩
      · have hrest : ∀ q ∈ used ++ [r], ∀ q' ∈ q.needs, q' ∈ used ++ [r] ∨ q' ∈ work ++ r.needs := by
          intro q hq q' hq'
          rcases List.mem_append.1 hq with hq | hq
          · rcases h q hq q' hq' with h | h
            · exact .inl (List.mem_append_left _ h)
            · rcases List.mem_cons.1 h with rfl | h
              · exact .inl (List.mem_append_right _ (List.mem_singleton_self _))
              · exact .inr (List.mem_append_left _ h)
          · obtain rfl := List.mem_singleton.1 hq
            exact .inr (List.mem_append_right _ hq')
        obtain ⟨hc, hu, hw⟩ := ih (by rw [List.map_append, List.sum_append]; omega) hrest
        obtain ⟨hu, hr⟩ := List.append_subset.1 hu
        exact ⟨hc, hu, List.cons_subset.2 ⟨hr (List.mem_singleton_self _), (List.append_subset.1 hw).1⟩⟩

theorem mem_use_iff {used : List Routine} (h : Complete used) {r x : Routine} :
    x ∈ use 4 used [r] ↔ x ∈ used ∨ r.Reaches x := by
  have hcost : ([r].map cost).sum ≤ 4 := by cases r <;> decide
  obtain ⟨hc, hu, hw⟩ := complete_use hcost fun q hq q' hq' => .inl (h q hq q' hq')
  constructor
  · intro hx
    simpa using mem_of_mem_use hx
  · rintro (hx | hx)
    · exact hu hx
    · exact hc.reaches (hw (List.mem_singleton_self _)) hx

theorem complete_use_four {used : List Routine} (h : Complete used) (r : Routine) :
    Complete (use 4 used [r]) := by
  have hcost : ([r].map cost).sum ≤ 4 := by cases r <;> decide
  exact (complete_use hcost fun q hq q' hq' => .inl (h q hq q' hq')).1

end Routine

/-! ## Pieces of code -/

/-- A shared constant has its text under its number, and what the routines in use need is in use. -/
structure Stage.Sane (s : Stage) : Prop where
  shared : ∀ t n, (t, n) ∈ s.shared → s.consts[n]? = some t
  nodup : s.used.Nodup
  complete : Routine.Complete s.used

def Stage.Has (s : Stage) : Callee → Prop
  | .extern_ _ => True
  | .label (.const n) => n < s.consts.length
  | .label (.routine r) => r ∈ s.used
  | .label _ => False

/-- Lines whose labels are `D` and new places.  They refer to themselves, to what the stage after them has,
    and to what is given by `A`; the routines that come into use are those that they refer to, with what
    these need. -/
structure Piece (A : Set Callee) (D : List Label) (s : Stage) (out : List Line) (s' : Stage) : Prop where
  sane : s'.Sane
  places : s.places ≤ s'.places
  consts : s.consts.length ≤ s'.consts.length
  labels : (labelsOf out).Perm (D ++ (List.range' s.places (s'.places - s.places)).map .place)
  refs : ∀ c ∈ refsOf out, c ∈ A ∨ s'.Has c ∨ ∃ l ∈ labelsOf out, c = .label l
  used : ∀ r, r ∈ s'.used ↔ r ∈ s.used ∨ ∃ q, .label (.routine q) ∈ refsOf out ∧ q.Reaches r

namespace Piece

variable {A : Set Callee} {D D' : List Label} {s s' s'' : Stage} {o o' : List Line}

theorem used_subset (h : Piece A D s o s') : s.used ⊆ s'.used := fun r hr => (h.used r).2 (.inl hr)

theorem has (h : Piece A D s o s') {c : Callee} (hc : s.Has c) : s'.Has c := by
  match c, hc with
  | .extern_ _, _ => trivial
  | .label (.const _), hc => exact Nat.lt_of_lt_of_le hc h.consts
  | .label (.routine _), hc => exact h.used_subset hc

theorem append (h : Piece A D s o s') (h' : Piece A D' s' o' s'') : Piece A (D ++ D') s (o ++ o') s'' where
  sane := h'.sane
  places := h.places.trans h'.places
  consts := h.consts.trans h'.consts
  labels := by
    have hrange : List.range' s.places (s''.places - s.places) =
        List.range' s.places (s'.places - s.places) ++ List.range' s'.places (s''.places - s'.places) := by
      obtain ⟨k, hk⟩ := Nat.exists_eq_add_of_le h.places
      obtain ⟨m, hm⟩ := Nat.exists_eq_add_of_le h'.places
      rw [hm, hk, Nat.add_sub_cancel_left, Nat.add_sub_cancel_left, Nat.add_assoc, Nat.add_sub_cancel_left,
        List.range'_append_1]
    rw [labelsOf_append, hrange, List.map_append]
    refine (h.labels.append h'.labels).trans ?_
    rw [List.append_assoc, List.append_assoc]
    refine List.Perm.append_left D ?_
    rw [← List.append_assoc, ← List.append_assoc]
    exact List.perm_append_comm.append_right _
  refs := by
    intro c hc
    rw [refsOf_append, List.mem_append] at hc
    rw [labelsOf_append]
    rcases hc with hc | hc
    · rcases h.refs c hc with hA | hs | ⟨l, hl, rfl⟩
      · exact .inl hA
      · exact .inr (.inl (h'.has hs))
      · exact .inr (.inr ⟨l, List.mem_append_left _ hl, rfl⟩)
    · rcases h'.refs c hc with hA | hs | ⟨l, hl, rfl⟩
      · exact .inl hA
      · exact .inr (.inl hs)
      · exact .inr (.inr ⟨l, List.mem_append_right _ hl, rfl⟩)
  used := by
    intro r
    rw [h'.used, h.used, refsOf_append]
    simp only [List.mem_append, or_and_right, exists_or, or_assoc]

theorem label (h : Piece A D s o s') (l : Label) : Piece A (l :: D) s (.label l :: o) s' where
  sane := h.sane
  places := h.places
  consts := h.consts
  labels := h.labels.cons l
  refs := by
    intro c hc
    exact (h.refs c hc).imp_right (Or.imp_right fun ⟨l', hl', e⟩ => ⟨l', List.mem_cons_of_mem _ hl', e⟩)
  used := h.used

theorem perm (h : Piece A D s o s') (hD : D.Perm D') : Piece A D' s o s' :=
  { h with labels := h.labels.trans (hD.append_right _) }

theorem still (h : s.Sane) (hl : labelsOf o = []) (hr : refsOf o = []) (hc : s'.consts = s.consts)
    (hs : s'.shared = s.shared) (hp : s'.places = s.places) (hu : s'.used = s.used) : Piece A [] s o s' where
  sane := ⟨by rw [hc, hs]; exact h.shared, hu ▸ h.nodup, hu ▸ h.complete⟩
  places := hp.ge
  consts := by rw [hc]
  labels := by simp [hl, hp]
  refs := by simp [hr]
  used := by simp [hr, hu]

theorem of_stack (h : Piece A D s' o s'') (hc : s'.consts = s.consts) (hp : s'.places = s.places)
    (hu : s'.used = s.used) : Piece A D s o s'' where
  sane := h.sane
  places := hp ▸ h.places
  consts := hc ▸ h.consts
  labels := hp ▸ h.labels
  refs := h.refs
  used := hu ▸ h.used

theorem place (h : Piece (insert (.label (.place s.places)) A) (.place s.places :: D)
    { s with places := s.places + 1 } o s') : Piece A D s o s' where
  sane := h.sane
  places := (Nat.le_succ _).trans h.places
  consts := h.consts
  labels := by
    have hle : s.places + 1 ≤ s'.places := h.places
    have hrange : List.range' s.places (s'.places - s.places) =
        s.places :: List.range' (s.places + 1) (s'.places - (s.places + 1)) := by
      rw [show s'.places - s.places = s'.places - (s.places + 1) + 1 by omega, List.range'_succ]
    rw [hrange, List.map_cons]
    exact h.labels.trans List.perm_middle.symm
  refs := by
    intro c hc
    rcases h.refs c hc with (rfl | hA) | hs
    · exact .inr (.inr ⟨_, h.labels.symm.subset (by simp), rfl⟩)
    · exact .inl hA
    · exact .inr hs
  used := h.used

end Piece

/-! ## Generation steps -/

namespace Gen

def Makes {α : Type} (A : Set Callee) (D : List Label) (x : Gen α) : Prop :=
  ∀ T s a out s', x T s = .ok (a, out, s') → s.Sane → Piece A D s out s'

variable {α β : Type} {A : Set Callee} {D : List Label}

namespace Makes

theorem andThen {x : Gen β} {f : β → Gen α} (hx : Makes A [] x) (hf : ∀ b, Makes A D (f b)) :
    Makes A D (x >>= f) := by
  intro T s a out s' h hs
  obtain ⟨b, o, s1, o', hx', hf', rfl⟩ := bind_eq_ok h
  have h1 := hx T s b o s1 hx' hs
  exact h1.append (hf b T s1 a o' s' hf' h1.sane)

theorem perm {D' : List Label} {x : Gen α} (h : Makes A D x) (hD : D.Perm D') : Makes A D' x :=
  fun T s a out s' hrun hs => (h T s a out s' hrun hs).perm hD

theorem fail (f : Fault) : Makes A D (Gen.fail f : Gen α) := fun _ _ _ _ _ h => nomatch h

theorem pure (a : α) : Makes A [] (Pure.pure a) := by
  rintro T s b out s' ⟨⟩ hs
  exact .still hs rfl rfl rfl rfl rfl rfl

theorem table : Makes A [] Gen.table := by
  rintro T s b out s' ⟨⟩ hs
  exact .still hs rfl rfl rfl rfl rfl rfl

theorem stage : Makes A [] Gen.stage := by
  rintro T s b out s' ⟨⟩ hs
  exact .still hs rfl rfl rfl rfl rfl rfl

theorem lift (x : Except Fault α) : Makes A [] (Gen.lift x) := by
  intro T s b out s' h hs
  cases x with
  | error => cases h
  | ok a =>
    cases h
    exact .still hs rfl rfl rfl rfl rfl rfl

theorem update {g : Stage → Stage} (hg : ∀ s, (g s).consts = s.consts ∧ (g s).shared = s.shared ∧
    (g s).places = s.places ∧ (g s).used = s.used) : Makes A [] (Gen.update g) := by
  rintro T s b out s' ⟨⟩ hs
  obtain ⟨hc, hsh, hp, hu⟩ := hg s
  exact .still hs rfl rfl hc hsh hp hu

theorem lines {ls : List Line} (hl : labelsOf ls = []) (hr : ∀ c ∈ refsOf ls, c ∈ A)
    (hu : ∀ r, .label (.routine r) ∉ refsOf ls) : Makes A [] (Gen.lines ls) := by
  rintro T s b out s' ⟨⟩ hs
  exact ⟨hs, le_rfl, le_rfl, by simp [hl], fun c hc => .inl (hr c hc), by simp [hu]⟩

theorem emit {i : Instr} (h : i.refs = []) : Makes A [] (Gen.emit i) :=
  lines rfl (by simp [h]) (by simp [h])

theorem branch {c : Cond} {n : Nat} (h : .label (.place n) ∈ A) : Makes A [] (Gen.emit (.branch c (.place n))) :=
  lines rfl (by simpa [Instr.refs] using h) (by simp [Instr.refs])

theorem call {c : Cond} {name : Text} (h : .label (.func name) ∈ A) :
    Makes A [] (Gen.emit (.call c (.label (.func name)))) :=
  lines rfl (by simpa [Instr.refs] using h) (by simp [Instr.refs])

theorem label (l : Label) : Makes A [l] (Gen.label l) := by
  rintro T s b out s' ⟨⟩ hs
  exact (Piece.still hs rfl rfl rfl rfl rfl rfl).label l

theorem labelThen {l : Label} {f : Unit → Gen α} (hf : Makes A D (f ())) :
    Makes A (l :: D) (Gen.label l >>= f) := by
  intro T s a out s' h hs
  obtain ⟨_, o, s1, o', ⟨⟩, hf', rfl⟩ := bind_eq_ok h
  exact (hf T s a o' s' hf' hs).label l

theorem newPlace {f : Label → Gen α} (hf : ∀ n, Makes (insert (.label (.place n)) A) (.place n :: D) (f (.place n))) :
    Makes A D (Gen.newPlace >>= f) := by
  intro T s a out s' h hs
  unfold Gen.newPlace at h
  simp only [bind_assoc] at h
  rw [run_bind rfl, run_bind rfl, run_bind rfl] at h
  exact (hf s.places T _ a out s' h ⟨hs.shared, hs.nodup, hs.complete⟩).place

end Makes

/-! ## The stack, variables and memory -/

theorem refsOf_steps (op : Alu) (n : Nat) :
    labelsOf ((stepsOf op n).map .instr) = [] ∧ refsOf ((stepsOf op n).map .instr) = [] := by
  induction n using Nat.strong_induction_on with
  | _ n ih =>
    rw [stepsOf]
    split_ifs with hn
    · exact ⟨rfl, rfl⟩
    · have hpos : 0 < min n maxStep := by simp only [maxStep]; omega
      exact ih (n - min n maxStep) (by omega)

theorem moveStack_makes (op : Alu) (n : Int) : Makes A [] (moveStack op n) := by
  obtain ⟨hl, hr⟩ := refsOf_steps op n.toNat
  exact .lines hl (by simp [hr]) (by simp [hr])

theorem deepen_makes (n : Int) : Makes A [] (deepen n) := .update fun _ => ⟨rfl, rfl, rfl, rfl⟩

theorem grow_makes (n : Int) : Makes A [] (grow n) := (moveStack_makes _ n).andThen fun _ => deepen_makes n

theorem shrink_makes (n : Int) : Makes A [] (shrink n) := (moveStack_makes _ n).andThen fun _ => deepen_makes _

theorem footprint_makes (sc : ScopeId) : Makes A [] (footprint sc) := Makes.table.andThen fun _ => .pure _

theorem enter_makes (sc : ScopeId) : Makes A [] (enter sc) :=
  (Makes.update (g := fun s => { s with entry := (sc, s.depth) :: s.entry }) fun _ => ⟨rfl, rfl, rfl, rfl⟩).andThen
    fun _ => (footprint_makes sc).andThen fun n => grow_makes n

theorem leave_makes (sc : ScopeId) : Makes A [] (leave sc) := by
  have hlast : Makes A [] (update fun s => { s with entry := s.entry.filter (·.1 != sc) }) :=
    .update fun _ => ⟨rfl, rfl, rfl, rfl⟩
  refine (footprint_makes sc).andThen fun n => (shrink_makes n).andThen fun _ => Makes.stage.andThen fun s => ?_
  dsimp only
  split_ifs
  · exact (Makes.fail _).andThen fun _ => hlast
  · exact hlast

theorem popReturn_makes : Makes A [] popReturn := by
  refine Makes.stage.andThen fun s => ?_
  split_ifs
  · exact (Makes.fail _).andThen fun _ => .emit rfl
  · exact .emit rfl

/-! ## Calls and constants -/

theorem callOut_lines {c : Cond} {f : Callee} {T : Table} {s s' : Stage} {a : Unit} {out : List Line}
    (h : callOut c f T s = .ok (a, out, s')) :
    labelsOf out = [] ∧ refsOf out = [f] ∧ s'.consts = s.consts ∧ s'.shared = s.shared ∧
      s'.places = s.places ∧ s'.used = s.used := by
  unfold callOut at h
  obtain ⟨_, o1, s1, o', h1, hrest, rfl⟩ := bind_eq_ok h
  obtain ⟨_, o2, s2, o3, h2, h3, rfl⟩ := bind_eq_ok hrest
  cases h1
  cases h2
  cases h3
  simp [refsOf_steps, Instr.refs]

theorem callExtern_makes (e : Extern) : Makes A [] (callExtern e) := by
  intro T s a out s' h hs
  obtain ⟨hl, hr, hc, hsh, hp, hu⟩ := callOut_lines h
  refine ⟨⟨by rw [hc, hsh]; exact hs.shared, hu ▸ hs.nodup, hu ▸ hs.complete⟩, hp.ge, hc ▸ le_rfl, by simp [hl, hp],
    ?_, by simp [hr, hu]⟩
  rw [hr]
  exact List.forall_mem_singleton.2 (.inr (.inl trivial))

theorem callRoutine_makes (c : Cond) (r : Routine) : Makes A [] (callRoutine c r) := by
  intro T s a out s' h hs
  unfold callRoutine useRoutine at h
  rw [run_bind rfl] at h
  obtain ⟨hl, hr, hc, hsh, hp, hu⟩ := callOut_lines h
  have hmem : ∀ q, q ∈ s'.used ↔ q ∈ s.used ∨ r.Reaches q := by
    intro q
    rw [hu]
    exact Routine.mem_use_iff hs.complete
  refine ⟨⟨by rw [hc, hsh]; exact hs.shared, ?_, ?_⟩, hp.ge, hc ▸ le_rfl, by simp [hl, hp], ?_, ?_⟩
  · rw [hu]
    exact Routine.nodup_use hs.nodup
  · rw [hu]
    exact Routine.complete_use_four hs.complete r
  · rw [hr]
    exact List.forall_mem_singleton.2 (.inr (.inl ((hmem r).2 (.inr .refl))))
  · intro q
    rw [hmem, hr]
    simp

theorem stringConst_makes (d : Reg) (t : Text) :
    Makes A [] (do emit (.address .always d (← stringConst t))) := by
  intro T s a out s' h hs
  unfold stringConst at h
  simp only [bind_assoc] at h
  rw [run_bind rfl] at h
  split at h
  case _ n hn =>
    cases h
    have hlt : n < s.consts.length := by
      obtain ⟨before, after, hshared, -⟩ := List.lookup_eq_some_iff.1 hn
      exact (List.getElem?_eq_some_iff.1 (hs.shared t n (by simp [hshared]))).1
    exact ⟨hs, le_rfl, le_rfl, by simp, by simp [Instr.refs, Stage.Has, hlt], by simp [Instr.refs]⟩
  case _ =>
    cases h
    refine ⟨⟨?_, hs.nodup, hs.complete⟩, le_rfl, by simp, by simp, by simp [Instr.refs, Stage.Has],
      by simp [Instr.refs]⟩
    intro u n hn
    simp only [List.mem_append, List.mem_singleton] at hn
    rcases hn with hn | ⟨rfl, rfl⟩
    · have hu := hs.shared u n hn
      rw [List.getElem?_append_left (List.getElem?_eq_some_iff.1 hu).1, hu]
    · simp

theorem makes_law : Law fun _ x => Makes A [] x where
  bind := .andThen
  fail := .fail
  pure := .pure
  table := .table
  stage := .stage
  lift := .lift
  deepen := deepen_makes
  quiet _ h := .emit h
  routine := callRoutine_makes
  library := callExtern_makes
  constant := stringConst_makes

/-! ## Values -/

theorem callFunc_makes {name : Text} (h : .label (.func name) ∈ A) (es : List Expr) (d : Reg) (rest : List Reg) :
    Makes A [] (callFunc name es d rest) :=
  Makes.stage.andThen fun _ => (grow_makes _).andThen fun _ => (Law.args makes_law d rest es).andThen fun _ =>
    (Makes.call h).andThen fun _ => (shrink_makes _).andThen fun _ => Calm.copy (Law.calm makes_law) _ _

def Calls (T : Table) (A : Set Callee) : Prop := ∀ f g, T.func? f = some g → .label (.func g.name) ∈ A

theorem Calls.insert {T : Table} (h : Calls T A) (c : Callee) : Calls T (insert c A) :=
  fun f g hg => Set.mem_insert_of_mem c (h f g hg)

variable {T : Table} {sc : ScopeId}

theorem value_makes (hA : Calls T A) {v : Value} (hv : v.Typed T sc) : Makes A [] (value v pool) := by
  cases hv with
  | item hv => exact Law.item makes_law hv pool
  | newPair ha hb =>
    exact (Law.malloc makes_law _ _).andThen fun _ => (Law.expr makes_law _ _).andThen fun _ =>
      (Calm.store (Law.calm makes_law) _ _ _ _).andThen fun _ => (Law.expr makes_law _ _).andThen fun _ =>
      Calm.store (Law.calm makes_law) _ _ _ _
  | slot hp ht =>
    exact (Law.address makes_law (by decide) _ _).andThen fun _ => Calm.load (Law.calm makes_law) _ _ _ _
  | call hg has harg =>
    exact callFunc_makes (hA _ _ hg) _ _ _

/-! ## Statements -/

theorem jumpUnless_makes (e : Expr) {n : Nat} (h : .label (.place n) ∈ A) : Makes A [] (jumpUnless e (.place n)) :=
  (Law.expr makes_law e _).andThen fun _ => (Makes.emit rfl).andThen fun _ => .branch h

theorem ret_makes (scope : ScopeId) (e : Expr) : Makes A [] (ret scope e) := by
  have hlast : ∀ n : Int, Makes A [] (do moveStack .add n; emit (.pop [.pc])) := fun n =>
    (moveStack_makes _ n).andThen fun _ => .emit rfl
  refine (Law.argument makes_law e).andThen fun _ => (Makes.table.andThen fun _ => .pure _).andThen fun n =>
    Makes.stage.andThen fun s => ?_
  dsimp only
  split_ifs
  · exact (Makes.fail _).andThen fun _ => hlast n
  · exact hlast n

theorem block_makes {b : Stat} (hb : ∀ A, Calls T A → Makes A [] (stat b)) (hA : Calls T A) (site : Site)
    (i : ScopeId) : Makes A [] (block (.mk site i b)) := by
  exact (enter_makes i).andThen fun _ => (hb A hA).andThen fun _ => leave_makes i

theorem loop_makes (cond : Expr) {body last : Gen Unit} (hbody : ∀ A, Calls T A → Makes A [] body)
    (hlast : ∀ A : Set Callee, Makes A [] last) (hA : Calls T A) :
    Makes A [] (do
      let top ← newPlace
      let stop ← newPlace
      label top
      jumpUnless cond stop
      body
      emit (.branch .always top)
      label stop
      last) := by
  refine .newPlace fun top => .newPlace fun stop => ?_
  refine (Makes.labelThen ?_).perm (List.Perm.swap _ _ _)
  refine (jumpUnless_makes _ (Set.mem_insert _ _)).andThen fun _ => ?_
  refine (hbody _ ((hA.insert _).insert _)).andThen fun _ => ?_
  refine (Makes.branch (Set.mem_insert_of_mem _ (Set.mem_insert _ _))).andThen fun _ => ?_
  exact .labelThen (hlast _)

theorem stats_makes {ss : List Stat} (h : ∀ b ∈ ss, Makes A [] (stat b)) : Makes A [] (stats ss) := by
  induction ss with
  | nil => rw [stats]; exact .pure _
  | cons b ss ih =>
    obtain ⟨hb, hss⟩ := List.forall_mem_cons.1 h
    exact hb.andThen fun _ => ih hss

theorem stat_makes {b : Stat} (hb : b.Typed T sc) : ∀ A, Calls T A → Makes A [] (stat b) := by
  induction hb with
  | skip => intro A _; rw [stat]; exact .pure _
  | declare _ _ _ hv =>
    intro A hA
    exact (value_makes hA hv).andThen fun _ => Calm.storeVar (Law.calm makes_law) _ _
  | assign _ hv =>
    intro A hA
    exact (value_makes hA hv).andThen fun _ => Law.assign makes_law _ (by decide) _ _
  | @read _ _ l =>
    intro A _
    rw [stat]
    split
    · exact .fail _
    · exact (Law.address makes_law (by decide) l _).andThen fun _ => (Calm.copy (Law.calm makes_law) _ _).andThen fun _ =>
        callRoutine_makes _ _
  | free =>
    intro A _
    refine (Law.argument makes_law _).andThen fun _ => ?_
    split_ifs
    · exact callRoutine_makes _ _
    · exact callExtern_makes _
  | ret => intro A _; rw [stat]; exact ret_makes _ _
  | exit => intro A _; rw [stat]; exact (Law.argument makes_law _).andThen fun _ => callExtern_makes _
  | print =>
    intro A _
    refine (Law.argument makes_law _).andThen fun _ => (callRoutine_makes _ _).andThen fun _ => ?_
    split_ifs
    · exact callRoutine_makes _ _
    · exact .pure _
  | block _ _ ih => intro A hA; rw [stat]; exact block_makes ih hA _ _
  | ifThen _ _ _ _ ih =>
    intro A hA
    refine .newPlace fun stop => (jumpUnless_makes _ (Set.mem_insert _ _)).andThen fun _ => ?_
    exact (block_makes ih (hA.insert _) _ _).andThen fun _ => .label _
  | ifElse _ _ _ _ _ _ ih ih' =>
    intro A hA
    refine .newPlace fun stop => .newPlace fun other => (jumpUnless_makes _ (Set.mem_insert _ _)).andThen fun _ => ?_
    have hA' := (hA.insert (.label (.place stop))).insert (.label (.place other))
    refine (block_makes ih hA' _ _).andThen fun _ => ?_
    refine (Makes.branch (Set.mem_insert_of_mem _ (Set.mem_insert _ _))).andThen fun _ => .labelThen ?_
    exact (block_makes ih' hA' _ _).andThen fun _ => .label _
  | «while» _ _ _ _ ih =>
    intro A hA
    exact loop_makes _ (fun A hA => block_makes ih hA _ _) (fun _ => .pure ()) hA
  | @«for» _ h i _ site' _ step b c _ _ _ _ _ _ _ ihi ihs ihb =>
    intro A hA
    refine (enter_makes h).andThen fun _ => (ihi A hA).andThen fun _ => ?_
    have hbody : ∀ A, Calls T A → Makes A [] (do block (.mk site' i b); stat step) := fun A hA =>
      (block_makes ihb hA _ _).andThen fun _ => ihs A hA
    have hloop := loop_makes c hbody (fun _ => leave_makes h) hA
    simpa only [bind_assoc] using hloop
  | seq _ ih => intro A hA; rw [stat]; exact stats_makes fun b hb => ih b hb A hA

end Gen

end Wacc.Arm
