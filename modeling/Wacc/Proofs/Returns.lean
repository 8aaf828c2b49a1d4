/-
  Functions that pass the return check do not run off their end.

  The check looks at every choice of a function once and remembers its ends by the number of the
  choice.  Numbers are given out once, so what is remembered of a number are the ends of its choice.
-/
import Wacc.Returns
import Wacc.Proofs.Arm.Stat

namespace Wacc.Returns

def Path.falls : Path → Bool
  | .finish => true
  | .choice _ p q => p.falls || q.falls
  | _ => false

mutual

theorem paths_falls (next : Path) (n : Nat) (s : Stat) :
    (paths next n s).1.falls = (s.falls && next.falls) := by
  cases s with
  | ifThen site c a => simp [paths, Path.falls, Stat.falls, blockPaths_falls next n a]
  | ifElse site c a b =>
    simp [paths, Path.falls, Stat.falls, blockPaths_falls next _ a, blockPaths_falls next n b,
      Bool.and_or_distrib_right]
  | «while» site c b => simp [paths, Path.falls, Stat.falls, blockPaths_falls .again n b]
  | «for» site h i c st b =>
    simp [paths, Path.falls, Stat.falls, paths_falls _ _ i, paths_falls .again n st, blockPaths_falls _ _ b]
  | block b => simpa [paths, Stat.falls] using blockPaths_falls next n b
  | seq site ss => simpa [paths, Stat.falls] using seqPaths_falls next n ss
  | _ => simp [paths, Path.falls, Stat.falls]

theorem blockPaths_falls (next : Path) (n : Nat) (b : Block) :
    (blockPaths next n b).1.falls = (b.falls && next.falls) := by
  cases b with
  | mk site i s => simpa [blockPaths, Block.falls] using paths_falls next n s

theorem seqPaths_falls (next : Path) (n : Nat) (ss : List Stat) :
    (seqPaths next n ss).1.falls = (Stat.fallsAll ss && next.falls) := by
  cases ss with
  | nil => simp [seqPaths, Stat.fallsAll]
  | cons s ss =>
    simp [seqPaths, Stat.fallsAll, paths_falls _ _ s, seqPaths_falls next n ss, Bool.and_assoc]

end

/-! ## Numbers of choices -/

/-- Every number on a path stands for the choice that `ν` says, and is smaller than `n`. -/
def Path.Numbered (ν : Nat → Path) (n : Nat) : Path → Prop
  | .choice m p q => m < n ∧ ν m = .choice m p q ∧ p.Numbered ν n ∧ q.Numbered ν n
  | _ => True

variable {ν ν' : Nat → Path}

theorem Path.Numbered.mono {n n' : Nat} {p : Path} (h : p.Numbered ν n) (hn : n ≤ n') (hν : ∀ m < n, ν' m = ν m) :
    p.Numbered ν' n' := by
  induction p with
  | choice m p q ihp ihq =>
    obtain ⟨hm, he, hp, hq⟩ := h
    exact ⟨hm.trans_le hn, (hν m hm).trans he, ihp hp, ihq hq⟩
  | _ => trivial

/-- A path and the next number can follow what has the numbers of `ν` below `n`. -/
def Follows (ν : Nat → Path) (n : Nat) (r : Path × Nat) : Prop :=
  n ≤ r.2 ∧ ∃ ν' : Nat → Path, (∀ m < n, ν' m = ν m) ∧ r.1.Numbered ν' r.2

theorem Follows.choice {ν : Nat → Path} {n : Nat} {p q : Path} (hp : p.Numbered ν n) (hq : q.Numbered ν n) :
    Follows ν n (.choice n p q, n + 1) := by
  have hν : ∀ m < n, Function.update ν n (.choice n p q) m = ν m := fun m hm =>
    Function.update_of_ne (by omega) ..
  refine ⟨Nat.le_succ n, Function.update ν n (.choice n p q), hν, Nat.lt_succ_self n, ?_, ?_, ?_⟩
  · exact Function.update_self ..
  · exact hp.mono (Nat.le_succ n) hν
  · exact hq.mono (Nat.le_succ n) hν

theorem Follows.trans {n n' : Nat} {r : Path × Nat} (hn : n ≤ n') (hν : ∀ m < n, ν' m = ν m) (h : Follows ν' n' r) :
    Follows ν n r := by
  obtain ⟨hle, ν'', hν'', hr⟩ := h
  exact ⟨hn.trans hle, ν'', fun m hm => (hν'' m (hm.trans_le hn)).trans (hν m hm), hr⟩

mutual

theorem paths_numbered {ν : Nat → Path} {next : Path} {n : Nat} (s : Stat) (h : next.Numbered ν n) :
    Follows ν n (paths next n s) := by
  have hself : Follows ν n (next, n) := ⟨le_rfl, ν, fun _ _ => rfl, h⟩
  cases s with
  | ifThen site c a =>
    obtain ⟨hn, ν', hν, ha⟩ := blockPaths_numbered a h
    exact (Follows.choice ha (h.mono hn hν)).trans hn hν
  | ifElse site c a b =>
    obtain ⟨hn, ν', hν, hb⟩ := blockPaths_numbered b h
    obtain ⟨hn', ν'', hν', ha⟩ := blockPaths_numbered a (h.mono hn hν)
    exact ((Follows.choice ha (hb.mono hn' hν')).trans hn' hν').trans hn hν
  | «while» site c b =>
    obtain ⟨hn, ν', hν, hb⟩ : Follows ν n (blockPaths .again n b) := blockPaths_numbered b trivial
    exact (Follows.choice hb (h.mono hn hν)).trans hn hν
  | «for» site sc i c st b =>
    obtain ⟨hn, ν', hν, hst⟩ : Follows ν n (paths .again n st) := paths_numbered st trivial
    obtain ⟨hn', ν'', hν', hb⟩ := blockPaths_numbered b hst
    obtain ⟨hn'', ν3, hν'', hc⟩ := Follows.choice hb ((h.mono hn hν).mono hn' hν')
    exact (((paths_numbered i hc).trans hn'' hν'').trans hn' hν').trans hn hν
  | block b => exact blockPaths_numbered b h
  | seq site ss => exact seqPaths_numbered ss h
  | ret site e => exact ⟨le_rfl, ν, fun _ _ => rfl, trivial⟩
  | exit site e => exact ⟨le_rfl, ν, fun _ _ => rfl, trivial⟩
  | _ => exact hself

theorem blockPaths_numbered {ν : Nat → Path} {next : Path} {n : Nat} (b : Block) (h : next.Numbered ν n) :
    Follows ν n (blockPaths next n b) := by
  cases b with
  | mk site i s => exact paths_numbered s h

theorem seqPaths_numbered {ν : Nat → Path} {next : Path} {n : Nat} (ss : List Stat)
    (h : next.Numbered ν n) : Follows ν n (seqPaths next n ss) := by
  cases ss with
  | nil => exact ⟨le_rfl, ν, fun _ _ => rfl, h⟩
  | cons s ss =>
    obtain ⟨hn, ν', hν, hss⟩ := seqPaths_numbered ss h
    exact (paths_numbered s hss).trans hn hν

end

/-! ## What the check remembers -/

/-- What is remembered of a number are the ends of its choice; conflicts were reported. -/
structure Seen.Knows (ν : Nat → Path) (s : Seen) : Prop where
  falls : ∀ m e, s.choices.lookup m = some e → e.falls = (ν m).falls
  conflict : ∀ m e, s.choices.lookup m = some e → e.conflict = true → s.problems ≠ []

structure Resolved (ν : Nat → Path) (p : Path) (s : Seen) (r : Ends × Seen) : Prop where
  falls : r.1.falls = p.falls
  conflict : r.1.conflict = true → r.2.problems ≠ []
  knows : r.2.Knows ν
  more : s.problems ≠ [] → r.2.problems ≠ []

theorem union_falls (func : Text) (a b : Ends) : (union func a b).1.falls = (a.falls || b.falls) := by
  unfold union
  split
  · rfl
  · rfl
  · split_ifs <;> rfl

theorem union_conflict {func : Text} {a b : Ends} (h : (union func a b).1.conflict = true) :
    (a.conflict || b.conflict) = true ∨ (union func a b).2 ≠ [] := by
  by_cases hold : (a.conflict || b.conflict) = true
  · exact .inl hold
  · right
    unfold union at h ⊢
    dsimp only at h ⊢
    split at h
    · exact absurd h hold
    · exact absurd h hold
    · split_ifs at h ⊢ with hx hy
      · simp
      · exact absurd h hold
      · exact absurd h hold

theorem resolve_spec {ν : Nat → Path} {n : Nat} (func : Text) {p : Path} (hp : p.Numbered ν n) {s : Seen}
    (hs : s.Knows ν) : Resolved ν p s (resolve func p s) := by
  induction p generalizing s with
  | choice m p q ihp ihq =>
    obtain ⟨-, hν, hp, hq⟩ := hp
    rw [resolve]
    split
    · rename_i e he
      exact ⟨(hs.falls m e he).trans (by rw [hν]), hs.conflict m e he, hs, id⟩
    · have ha := ihp hp hs
      have hb := ihq hq ha.knows
      generalize resolve func p s = r1 at ha hb ⊢
      obtain ⟨a, s1⟩ := r1
      dsimp only at hb ⊢
      generalize resolve func q s1 = r2 at hb ⊢
      obtain ⟨b, s2⟩ := r2
      dsimp only at hb ⊢
      have hfalls : (union func a b).1.falls = (Path.choice m p q).falls := by
        rw [union_falls, ha.falls, hb.falls, Path.falls]
      have hmore {ds : List Diagnostic} (h : s2.problems ≠ []) : s2.problems ++ ds ≠ [] := by simp [h]
      have hconflict (h : (union func a b).1.conflict = true) :
          s2.problems ++ (union func a b).2 ≠ [] := by
        rcases union_conflict h with h | h
        · rcases Bool.or_eq_true_iff.1 h with h | h
          · exact hmore (hb.more (ha.conflict h))
          · exact hmore (hb.conflict h)
        · simp [h]
      refine ⟨hfalls, hconflict, ⟨fun k e he => ?_, fun k e he hc => ?_⟩, fun h => hmore (hb.more (ha.more h))⟩
      · rw [List.lookup_cons] at he
        split at he
        · rename_i hk
          obtain rfl := eq_of_beq hk
          cases he
          rw [hfalls, hν]
        · exact hb.knows.falls k e he
      · rw [List.lookup_cons] at he
        split at he
        · cases he
          exact hconflict hc
        · exact hmore (hb.knows.conflict k e he hc)
  | finish => exact ⟨rfl, nofun, hs, id⟩
  | again => exact ⟨rfl, nofun, hs, id⟩
  | ret span t => exact ⟨rfl, nofun, hs, id⟩
  | exit => exact ⟨rfl, nofun, hs, id⟩

/-- **A function that passes the return check does not run off its end.** -/
theorem falls_of_check {f : Func} (h : check f = []) : f.body.falls = false := by
  obtain ⟨-, ν, -, hp⟩ : Follows (fun _ => .finish) 0 (blockPaths .finish 0 f.body) :=
    blockPaths_numbered f.body trivial
  have hr := resolve_spec f.name hp (s := {}) ⟨nofun, nofun⟩
  have hfalls : (resolve f.name (blockPaths .finish 0 f.body).1 {}).1.falls = f.body.falls := by
    rw [hr.falls, blockPaths_falls]
    exact Bool.and_true _
  obtain ⟨hproblems, hrest⟩ := List.append_eq_nil_iff.1 h
  have hconflict := Bool.eq_false_iff.2 fun hc => hr.conflict hc hproblems
  rw [hconflict, hfalls] at hrest
  cases hb : f.body.falls with
  | false => rfl
  | true => rw [hb] at hrest; cases hrest

end Wacc.Returns
