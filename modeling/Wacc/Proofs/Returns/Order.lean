/-
  The return check and the order of branches.

  Of the returns that it has seen the check keeps one.  It compares types in both directions, which is no
  equivalence: `pair(pair, int)` goes with two types that do not go together.  Where it is one, but for the
  pairs of unknown slots, the return that is kept stands for all.
-/
import Wacc.Proofs.Returns.Exact

namespace Wacc

mutual

/-- The statement with some of its `if`s with two branches swapped; the list says which, in the order of
    the text. -/
def Stat.swap : Stat → List Bool → Stat × List Bool
  | .ifElse site c a b, ds =>
    let a := a.swap ds.tail
    let b := b.swap a.2
    (if ds.headD false then .ifElse site c b.1 a.1 else .ifElse site c a.1 b.1, b.2)
  | .ifThen site c a, ds => (.ifThen site c (a.swap ds).1, (a.swap ds).2)
  | .block b, ds => (.block (b.swap ds).1, (b.swap ds).2)
  | .while site c b, ds => (.while site c (b.swap ds).1, (b.swap ds).2)
  | .for site h i c s b, ds =>
    let i := i.swap ds
    let s := s.swap i.2
    let b := b.swap s.2
    (.for site h i.1 c s.1 b.1, b.2)
  | .seq site ss, ds => (.seq site (Stat.swapAll ss ds).1, (Stat.swapAll ss ds).2)
  | s, ds => (s, ds)

def Stat.swapAll : List Stat → List Bool → List Stat × List Bool
  | [], ds => ([], ds)
  | s :: ss, ds =>
    let s := s.swap ds
    let ss := Stat.swapAll ss s.2
    (s.1 :: ss.1, ss.2)

def Block.swap : Block → List Bool → Block × List Bool
  | .mk site i s, ds => (.mk site i (s.swap ds).1, (s.swap ds).2)

end

namespace Ty

def agrees (x y : Ty) : Bool := x.accepts y || y.accepts x

theorem agrees_comm (x y : Ty) : x.agrees y = y.agrees x := Bool.or_comm _ _

theorem isPair_of_agrees {x y : Ty} (h : x.agrees y = true) : x.isPair = y.isPair := by
  cases x <;> cases y <;> simp_all [agrees, accepts, isPair, isArray]

theorem anyPair_agrees {y : Ty} (h : y.isPair = true) : agrees .anyPair y = true := by
  cases y <;> simp_all [agrees, accepts, isPair]

/-- Among the types of the list, pairs of unknown slots apart, going together is transitive. -/
def Coherent (ts : List Ty) : Prop :=
  ∀ x ∈ ts, ∀ y ∈ ts, ∀ z ∈ ts, x ≠ .anyPair → y ≠ .anyPair → z ≠ .anyPair →
    x.agrees y = true → y.agrees z = true → x.agrees z = true

instance (ts : List Ty) : Decidable (Coherent ts) := inferInstanceAs (Decidable (∀ x ∈ ts, _))

/-- Types that go with two types that go together, which are unknown pairs only if all are. -/
theorem Coherent.chain {ts : List Ty} (h : Coherent ts) {u x y v : Ty} (hu : u ∈ ts) (hx : x ∈ ts) (hy : y ∈ ts)
    (hv : v ∈ ts) (hux : u ≠ x → u.agrees x = true) (hxy : x.agrees y = true) (hyv : y ≠ v → y.agrees v = true)
    (hxu : x = .anyPair → u = .anyPair) (hyv' : y = .anyPair → v = .anyPair) : u.agrees v = true := by
  have hux' : u.isPair = x.isPair := by
    by_cases he : u = x
    · rw [he]
    · exact isPair_of_agrees (hux he)
  have hyv'' : y.isPair = v.isPair := by
    by_cases he : y = v
    · rw [he]
    · exact isPair_of_agrees (hyv he)
  have hpair : u.isPair = v.isPair := hux'.trans ((isPair_of_agrees hxy).trans hyv'')
  by_cases hu' : u = .anyPair
  · subst hu'
    exact anyPair_agrees hpair.symm
  · by_cases hv' : v = .anyPair
    · subst hv'
      rw [agrees_comm]
      exact anyPair_agrees hpair
    · have hx' := mt hxu hu'
      have hy' := mt hyv' hv'
      have huy : u.agrees y = true := by
        by_cases he : u = x
        · rw [he]; exact hxy
        · exact h u hu x hx y hy hu' hx' hy' (hux he) hxy
      by_cases he : y = v
      · rw [← he]; exact huy
      · exact h u hu y hy v hv hu' hy' hv' huy (hyv he)

end Ty

namespace Returns

/-! ## Ends of paths -/

/-- The types that are returned on a path, and `none` if it leads to the end of the function. -/
def Path.ends : Path → List (Option Ty)
  | .finish => [none]
  | .ret _ t => [some t]
  | .choice _ p q => p.ends ++ q.ends
  | _ => []

def Path.types (p : Path) : List Ty := p.ends.filterMap id

theorem Path.types_choice (m : Nat) (p q : Path) : (Path.choice m p q).types = p.types ++ q.types :=
  List.filterMap_append

def Path.Like (p q : Path) : Prop := p.ends.Perm q.ends

theorem Path.falls_iff (p : Path) : p.falls = true ↔ none ∈ p.ends := by
  induction p with
  | choice m p q ihp ihq => simp [falls, ends, ihp, ihq]
  | _ => simp [falls, ends]

mutual

theorem paths_swap (s : Stat) (ds : List Bool) {next next' : Path} (n n' : Nat) (h : next.Like next') :
    (paths next n s).1.Like (paths next' n' (s.swap ds).1).1 := by
  cases s with
  | ifElse site c a b =>
    have ha := fun n n' => blockPaths_swap a ds.tail n n' h
    have hb := fun n n' => blockPaths_swap b (a.swap ds.tail).2 n n' h
    simp only [Stat.swap]
    split_ifs
    · exact ((ha _ _).append (hb _ _)).trans List.perm_append_comm
    · exact (ha _ _).append (hb _ _)
  | ifThen site c a => exact (blockPaths_swap a ds n n' h).append h
  | «while» site c b => exact (blockPaths_swap b ds n n' (List.Perm.refl _ : Path.Like .again .again)).append h
  | «for» site sc i c st b =>
    have hstep := paths_swap st (i.swap ds).2 n n' (List.Perm.refl _ : Path.Like .again .again)
    exact paths_swap i ds _ _ ((blockPaths_swap b (st.swap (i.swap ds).2).2 _ _ hstep).append h)
  | block b => simpa only [Stat.swap, paths] using blockPaths_swap b ds n n' h
  | seq site ss => simpa only [Stat.swap, paths] using seqPaths_swap ss ds n n' h
  | ret site e => exact List.Perm.refl _
  | exit site e => exact List.Perm.refl _
  | _ => exact h

theorem blockPaths_swap (b : Block) (ds : List Bool) {next next' : Path} (n n' : Nat) (h : next.Like next') :
    (blockPaths next n b).1.Like (blockPaths next' n' (b.swap ds).1).1 := by
  cases b with
  | mk site i s => exact paths_swap s ds n n' h

theorem seqPaths_swap (ss : List Stat) (ds : List Bool) {next next' : Path} (n n' : Nat) (h : next.Like next') :
    (seqPaths next n ss).1.Like (seqPaths next' n' (Stat.swapAll ss ds).1).1 := by
  cases ss with
  | nil => exact h
  | cons s ss => exact paths_swap s ds _ _ (seqPaths_swap ss (s.swap ds).2 n n' h)

end

mutual

theorem returns_swap (s : Stat) (ds : List Bool) (r : Span × Ty) : r ∈ returns (s.swap ds).1 ↔ r ∈ returns s := by
  cases s with
  | ifElse site c a b =>
    have ha := blockReturns_swap a ds.tail r
    have hb := blockReturns_swap b (a.swap ds.tail).2 r
    simp only [Stat.swap]
    split_ifs <;> simp only [returns, List.mem_append, ha, hb, or_comm]
  | «for» site sc i c st b =>
    have hi := returns_swap i ds r
    have hstep := returns_swap st (i.swap ds).2 r
    have hb := blockReturns_swap b (st.swap (i.swap ds).2).2 r
    simp only [Stat.swap, returns, List.mem_append, hi, hstep, hb]
  | ifThen site c a => simpa only [Stat.swap, returns] using blockReturns_swap a ds r
  | «while» site c b => simpa only [Stat.swap, returns] using blockReturns_swap b ds r
  | block b => simpa only [Stat.swap, returns] using blockReturns_swap b ds r
  | seq site ss => simpa only [Stat.swap, returns] using seqReturns_swap ss ds r
  | _ => rfl

theorem blockReturns_swap (b : Block) (ds : List Bool) (r : Span × Ty) :
    r ∈ blockReturns (b.swap ds).1 ↔ r ∈ blockReturns b := by
  cases b with
  | mk site i s => exact returns_swap s ds r

theorem seqReturns_swap (ss : List Stat) (ds : List Bool) (r : Span × Ty) :
    r ∈ seqReturns (Stat.swapAll ss ds).1 ↔ r ∈ seqReturns ss := by
  cases ss with
  | nil => rfl
  | cons s ss =>
    simp only [Stat.swapAll, seqReturns, List.mem_append, returns_swap s ds r, seqReturns_swap ss (s.swap ds).2 r]

end

/-! ## Contradictions -/

def Path.Agrees (p : Path) : Prop := p.types.Pairwise fun x y => x.agrees y = true

theorem Path.Agrees.of_ne {p : Path} (h : p.Agrees) {x y : Ty} (hx : x ∈ p.types) (hy : y ∈ p.types) (hne : x ≠ y) :
    x.agrees y = true :=
  have hsymm : Std.Symm fun x y : Ty => x.agrees y = true := ⟨fun x y h => by rw [Ty.agrees_comm]; exact h⟩
  List.Pairwise.forall h hx hy hne

/-- The return that is kept stands for the returns of a path: there is one if the path has any, and it is a
    pair of unknown slots only if all are. -/
structure Ends.Stands (e : Ends) (p : Path) : Prop where
  none : e.ret = none → p.types = []
  some : ∀ r, e.ret = some r → r.2 ∈ p.types ∧ (r.2 = .anyPair → ∀ t ∈ p.types, t = .anyPair)
  conflict : e.conflict = false

section
variable {ts : List Ty} (hts : Ty.Coherent ts) {func : Text}

include hts

theorem union_agrees {a b : Ends} {m : Nat} {p q : Path} (ha : a.Stands p) (hb : b.Stands q) (hp : p.Agrees)
    (hq : q.Agrees) (hmem : ∀ t ∈ (Path.choice m p q).types, t ∈ ts) :
    ((union func a b).2 = [] ↔ (Path.choice m p q).Agrees) ∧
      ((union func a b).2 = [] → (union func a b).1.Stands (.choice m p q)) := by
  have hconflict : (a.conflict || b.conflict) = false := by rw [ha.conflict, hb.conflict]; rfl
  rw [Path.types_choice] at hmem
  have hpts : ∀ t ∈ p.types, t ∈ ts := fun t h => hmem t (List.mem_append_left _ h)
  have hqts : ∀ t ∈ q.types, t ∈ ts := fun t h => hmem t (List.mem_append_right _ h)
  cases hx : a.ret with
  | none =>
    have htypes : (Path.choice m p q).types = q.types := by rw [Path.types_choice, ha.none hx, List.nil_append]
    simp only [union, hx]
    refine ⟨iff_of_true trivial (by rw [Path.Agrees, htypes]; exact hq), fun _ => ⟨fun h => ?_, fun r h => ?_,
      hconflict⟩⟩
    · rw [htypes]; exact hb.none h
    · rw [htypes]; exact hb.some r h
  | some x =>
    obtain ⟨hxp, hxany⟩ := ha.some x hx
    cases hy : b.ret with
    | none =>
      have htypes : (Path.choice m p q).types = p.types := by rw [Path.types_choice, hb.none hy, List.append_nil]
      simp only [union, hx, hy]
      refine ⟨iff_of_true trivial (by rw [Path.Agrees, htypes]; exact hp), fun _ => ⟨nofun, fun r h => ?_,
        hconflict⟩⟩
      rw [htypes]
      exact ha.some r (hx.trans h)
    | some y =>
      obtain ⟨hyq, hyany⟩ := hb.some y hy
      have hnot : (!x.2.accepts y.2 && !y.2.accepts x.2) = !x.2.agrees y.2 := by rw [Ty.agrees, Bool.not_or]
      simp only [union, hx, hy, hnot, hconflict, Path.Agrees, Path.types_choice, List.pairwise_append]
      cases hxy : x.2.agrees y.2 with
      | false =>
        refine ⟨iff_of_false (by simp) fun h => ?_, by simp⟩
        rw [h.2.2 _ hxp _ hyq] at hxy
        cases hxy
      | true =>
        have hcross : ∀ u ∈ p.types, ∀ v ∈ q.types, u.agrees v = true := fun u hu v hv =>
          hts.chain (hpts u hu) (hpts _ hxp) (hqts _ hyq) (hqts v hv) (hp.of_ne hu hxp) hxy (hq.of_ne hyq hv)
            (fun h => hxany h u hu) fun h => hyany h v hv
        simp only [Bool.not_true, Bool.false_eq_true, if_false]
        split_ifs with hany
        · refine ⟨iff_of_true rfl ⟨hp, hq, hcross⟩, fun _ => ⟨nofun, fun r h => ?_, rfl⟩⟩
          cases h
          rw [Path.types_choice]
          refine ⟨List.mem_append_right _ hyq, fun ht t h => ?_⟩
          exact (List.mem_append.1 h).elim (hxany hany t) (hyany ht t)
        · refine ⟨iff_of_true rfl ⟨hp, hq, hcross⟩, fun _ => ⟨nofun, fun r h => ?_, rfl⟩⟩
          cases h
          rw [Path.types_choice]
          exact ⟨List.mem_append_left _ hxp, fun ht => absurd ht hany⟩

/-- What is remembered of a number stands for the returns of its choice, which go together. -/
def Seen.Sums (ν : Nat → Path) (s : Seen) : Prop :=
  ∀ m e, s.choices.lookup m = some e → (ν m).Agrees ∧ e.Stands (ν m)

omit hts in
theorem problems_resolve (p : Path) (s : Seen) (h : (resolve func p s).2.problems = []) : s.problems = [] := by
  induction p generalizing s with
  | choice m p q ihp ihq =>
    rw [resolve] at h
    split at h
    · exact h
    · exact ihp _ (ihq _ (List.append_eq_nil_iff.1 h).1)
  | _ => exact h

theorem resolve_agrees {ν : Nat → Path} {n : Nat} {p : Path} (hp : p.Numbered ν n) (hmem : ∀ t ∈ p.types, t ∈ ts)
    {s : Seen} (h0 : s.problems = []) (hs : s.Sums ν) :
    ((resolve func p s).2.problems = [] ↔ p.Agrees) ∧
      ((resolve func p s).2.problems = [] →
        (resolve func p s).1.Stands p ∧ (resolve func p s).2.Sums ν) := by
  induction p generalizing s with
  | choice m p q ihp ihq =>
    obtain ⟨-, hν, hnp, hnq⟩ := hp
    rw [resolve]
    split
    · rename_i e he
      obtain ⟨hagrees, hstands⟩ := hs m e he
      rw [hν] at hagrees hstands
      exact ⟨iff_of_true h0 hagrees, fun _ => ⟨hstands, hs⟩⟩
    · have hpts : ∀ t ∈ p.types, t ∈ ts := fun t h => hmem t (by rw [Path.types_choice]; exact List.mem_append_left _ h)
      have hqts : ∀ t ∈ q.types, t ∈ ts := fun t h => hmem t (by rw [Path.types_choice]; exact List.mem_append_right _ h)
      obtain ⟨hip, hkeep⟩ := ihp hnp hpts h0 hs
      have hpart : (Path.choice m p q).Agrees → p.Agrees ∧ q.Agrees := fun h => by
        rw [Path.Agrees, Path.types_choice, List.pairwise_append] at h
        exact ⟨h.1, h.2.1⟩
      by_cases hpa : p.Agrees
      · have h1 := hip.2 hpa
        obtain ⟨ha, hs1⟩ := hkeep h1
        obtain ⟨hiq, hkeep'⟩ := ihq hnq hqts h1 hs1
        by_cases hqa : q.Agrees
        · have h2 := hiq.2 hqa
          obtain ⟨hb, hs2⟩ := hkeep' h2
          obtain ⟨hiff, hstands⟩ := @union_agrees _ hts func _ _ m p q ha hb hpa hqa hmem
          refine ⟨by simp only [h2, List.nil_append]; exact hiff, fun hnil => ?_⟩
          have hds := (List.append_eq_nil_iff.1 hnil).2
          refine ⟨hstands hds, fun k e he => ?_⟩
          rw [List.lookup_cons] at he
          split at he
          · rename_i hk
            obtain rfl := eq_of_beq hk
            cases he
            rw [hν]
            exact ⟨hiff.1 hds, hstands hds⟩
          · exact hs2 k e he
        · refine ⟨iff_of_false (fun h => hqa ?_) fun h => hqa (hpart h).2, fun h => absurd ?_ hqa⟩ <;>
            exact hiq.1 (List.append_eq_nil_iff.1 h).1
      · refine ⟨iff_of_false (fun h => hpa ?_) fun h => hpa (hpart h).1, fun h => absurd ?_ hpa⟩ <;>
          exact hip.1 (problems_resolve q _ (List.append_eq_nil_iff.1 h).1)
  | ret span t =>
    refine ⟨iff_of_true h0 (List.pairwise_singleton _ _), fun _ => ⟨⟨(by rintro ⟨⟩), fun r h => ?_, rfl⟩, hs⟩⟩
    cases h
    simp [Path.types, Path.ends]
  | finish | again | exit => exact ⟨iff_of_true h0 List.Pairwise.nil, fun _ => ⟨⟨fun _ => rfl, by rintro _ ⟨⟩, rfl⟩, hs⟩⟩

end

/-! ## The check -/

def path (f : Func) : Path := (blockPaths .finish 0 f.body).1

theorem check_eq_nil {f : Func} (h : Ty.Coherent (path f).types) :
    check f = [] ↔ (path f).Agrees ∧ none ∉ (path f).ends ∧ ∀ r ∈ blockReturns f.body, f.result.accepts r.2 = true := by
  obtain ⟨-, ν, -, hp⟩ : Follows (fun _ => .finish) 0 (blockPaths .finish 0 f.body) :=
    blockPaths_numbered f.body trivial
  obtain ⟨hiff, hstands⟩ := @resolve_agrees _ h f.name ν _ (path f) hp (fun _ ht => ht) {} rfl nofun
  have hnone : (resolve f.name (path f) {}).1.falls = true ↔ none ∈ (path f).ends := by
    rw [← Path.falls_iff]
    exact Bool.eq_iff_iff.1 (resolve_spec f.name hp (s := {}) ⟨nofun, nofun⟩).falls
  rw [check]
  dsimp only
  rw [show (blockPaths .finish 0 f.body).1 = path f from rfl, List.append_eq_nil_iff, hiff]
  refine and_congr_right fun hagrees => ?_
  rw [(hstands (hiff.2 hagrees)).1.conflict, if_neg Bool.false_ne_true]
  split_ifs with hf
  · exact iff_of_false (by simp) fun h => h.1 (hnone.1 hf)
  · rw [List.flatMap_eq_nil_iff, and_iff_right (mt hnone.2 hf)]
    refine forall₂_congr fun r _ => ?_
    cases f.result.accepts r.2 <;> simp

/-- The order of the branches of `if`s has no part in whether a function passes the return check, if going
    together is transitive among the types that are returned on its paths, pairs of unknown slots apart. -/
theorem check_swap (f : Func) (ds : List Bool) (h : Ty.Coherent (path f).types) :
    check { f with body := (f.body.swap ds).1 } = [] ↔ check f = [] := by
  have hlike : (path f).Like (path { f with body := (f.body.swap ds).1 }) :=
    blockPaths_swap f.body ds 0 0 (List.Perm.refl _)
  have htypes : (path f).types.Perm (path { f with body := (f.body.swap ds).1 }).types := hlike.filterMap id
  have h' : Ty.Coherent (path { f with body := (f.body.swap ds).1 }).types := fun x hx y hy z hz =>
    h x (htypes.mem_iff.2 hx) y (htypes.mem_iff.2 hy) z (htypes.mem_iff.2 hz)
  have hagrees : (path { f with body := (f.body.swap ds).1 }).Agrees ↔ (path f).Agrees :=
    (htypes.pairwise_iff fun {x y} h => by rw [Ty.agrees_comm]; exact h).symm
  rw [check_eq_nil h, check_eq_nil h', hagrees, hlike.mem_iff]
  simp only [blockReturns_swap f.body ds]

/-- A function that returns a pair of one of three types, where the first of two branches is chosen by `c`. -/
def mixed (x y z : Ty) : Func where
  id := 1
  name := lit "f"
  result := .pair (.array .anyPair 1) .int
  params := []
  scope := 2
  span := {}
  body := .mk ⟨{}, 2⟩ 3 (.ifElse ⟨{}, 3⟩ (.bool {} true)
    (.mk ⟨{}, 3⟩ 4 (.ifElse ⟨{}, 4⟩ (.bool {} true) (.mk ⟨{}, 4⟩ 5 (.ret ⟨{}, 5⟩ (.var ⟨{}, x, [], 1⟩)))
      (.mk ⟨{}, 4⟩ 6 (.ret ⟨{}, 6⟩ (.var ⟨{}, y, [], 2⟩)))))
    (.mk ⟨{}, 3⟩ 7 (.ret ⟨{}, 7⟩ (.var ⟨{}, z, [], 3⟩))))

theorem check_swap_null :
    check { mixed .anyPair (.pair (.array .anyPair 1) .int) .anyPair with
      body := ((mixed .anyPair (.pair (.array .anyPair 1) .int) .anyPair).body.swap [true, true]).1 } = [] :=
  (check_swap (mixed .anyPair (.pair (.array .anyPair 1) .int) .anyPair) [true, true] (by decide)).2 (by decide)

/-- The check passes, but not with the inner branches swapped: `pair(pair[], int)`, which goes with both of
    the other types, is then no longer the return that is kept. -/
theorem order_matters :
    check (mixed (.pair (.array .anyPair 1) .int) (.pair (.array (.pair .int .int) 1) .int)
        (.pair (.array (.pair .bool .bool) 1) .int)) = [] ∧
      check { mixed (.pair (.array .anyPair 1) .int) (.pair (.array (.pair .int .int) 1) .int)
          (.pair (.array (.pair .bool .bool) 1) .int) with
        body := ((mixed (.pair (.array .anyPair 1) .int) (.pair (.array (.pair .int .int) 1) .int)
          (.pair (.array (.pair .bool .bool) 1) .int)).body.swap [false, true]).1 } ≠ [] := by
  decide

end Returns

end Wacc
