/-
  The return check does not look at spans.
-/
import Wacc.Proofs.Ast.Respan
import Wacc.Returns

namespace Wacc.Returns

variable (φ : Span → Span)

/-! ## Paths -/

def Path.respan : Path → Path
  | .ret s t => .ret (φ s) t
  | .choice n p q => .choice n p.respan q.respan
  | .finish => .finish
  | .again => .again
  | .exit => .exit

mutual

theorem paths_respan (next : Path) (n : Nat) (s : Stat) :
    paths (next.respan φ) n (s.respan φ) = Prod.map (Path.respan φ) id (paths next n s) := by
  cases s with
  | ret site e => simp [Stat.respan, paths, Path.respan, Site.respan]
  | ifThen site c a => simp [Stat.respan, paths, Path.respan, blockPaths_respan next n a]
  | ifElse site c a b =>
    simp [Stat.respan, paths, Path.respan, blockPaths_respan next n b,
      blockPaths_respan next (blockPaths next n b).2 a]
  | block b => simp [Stat.respan, paths, blockPaths_respan next n b]
  | «while» site c b =>
    have hbody := blockPaths_respan .again n b
    rw [Path.respan] at hbody
    simp [Stat.respan, paths, Path.respan, hbody]
  | «for» site header i c t b =>
    have hstep := paths_respan .again n t
    rw [Path.respan] at hstep
    have hbody := blockPaths_respan (paths .again n t).1 (paths .again n t).2 b
    simp only [Stat.respan, paths, hstep, Prod.map_fst, Prod.map_snd, id_eq, hbody]
    exact paths_respan (.choice _ _ next) _ i
  | seq site ss => simp [Stat.respan, paths, seqPaths_respan next n ss]
  | _ => simp [Stat.respan, paths, Path.respan]

theorem blockPaths_respan (next : Path) (n : Nat) (b : Block) :
    blockPaths (next.respan φ) n (b.respan φ) = Prod.map (Path.respan φ) id (blockPaths next n b) := by
  cases b with
  | mk site i s =>
    rw [Block.respan, blockPaths, blockPaths]
    exact paths_respan next n s

theorem seqPaths_respan (next : Path) (n : Nat) (ss : List Stat) :
    seqPaths (next.respan φ) n (Stat.respanAll φ ss) = Prod.map (Path.respan φ) id (seqPaths next n ss) := by
  cases ss with
  | nil => rfl
  | cons s ss =>
    simp only [Stat.respanAll, seqPaths, seqPaths_respan next n ss, Prod.map_fst, Prod.map_snd, id_eq]
    exact paths_respan _ _ s

end

def placed (r : Span × Ty) : Span × Ty := (φ r.1, r.2)

mutual

theorem returns_respan (s : Stat) : returns (s.respan φ) = (returns s).map (placed φ) := by
  cases s with
  | ret site e => simp [Stat.respan, returns, placed, Site.respan]
  | ifThen site c a => simp [Stat.respan, returns, blockReturns_respan a]
  | ifElse site c a b => simp [Stat.respan, returns, blockReturns_respan a, blockReturns_respan b]
  | block b => simp [Stat.respan, returns, blockReturns_respan b]
  | «while» site c b => simp [Stat.respan, returns, blockReturns_respan b]
  | «for» site header i c t b =>
    simp [Stat.respan, returns, returns_respan t, blockReturns_respan b, returns_respan i]
  | seq site ss => simp [Stat.respan, returns, seqReturns_respan ss]
  | _ => simp [Stat.respan, returns]

theorem blockReturns_respan (b : Block) : blockReturns (b.respan φ) = (blockReturns b).map (placed φ) := by
  cases b with
  | mk site i s => simpa [Block.respan, blockReturns] using returns_respan s

theorem seqReturns_respan (ss : List Stat) :
    seqReturns (Stat.respanAll φ ss) = (seqReturns ss).map (placed φ) := by
  cases ss with
  | nil => rfl
  | cons s ss => simp [Stat.respanAll, seqReturns, returns_respan s, seqReturns_respan ss]

end

/-! ## Ends -/

def Ends.respan (e : Ends) : Ends := { e with ret := e.ret.map (placed φ) }

variable (ρ : Respan)

theorem union_respan (func : Text) (a b : Ends) :
    union func (a.respan ρ.span) (b.respan ρ.span) = Prod.map (Ends.respan ρ.span) (List.map ρ.problem) (union func a b) := by
  obtain ⟨af, ae, ar, ac⟩ := a
  obtain ⟨bf, be, br, bc⟩ := b
  cases ar with
  | none => rfl
  | some x =>
    cases br with
    | none => rfl
    | some y =>
      simp only [union, Ends.respan, Option.map_some, placed]
      split_ifs <;> simp_all [conflictProblem, Ends.respan, placed]

def Seen.respan (s : Seen) : Seen :=
  { choices := s.choices.map fun c => (c.1, c.2.respan ρ.span), problems := s.problems.map ρ.problem }

theorem lookup_respan (choices : List (Nat × Ends)) (n : Nat) :
    (choices.map fun c => (c.1, c.2.respan ρ.span)).lookup n = (choices.lookup n).map (Ends.respan ρ.span) := by
  induction choices with
  | nil => rfl
  | cons c choices ih =>
    rw [List.map_cons, List.lookup_cons, List.lookup_cons, ih]
    cases n == c.1 <;> rfl

theorem resolve_respan (func : Text) (p : Path) (s : Seen) :
    resolve func (p.respan ρ.span) (s.respan ρ) = Prod.map (Ends.respan ρ.span) (Seen.respan ρ) (resolve func p s) := by
  induction p generalizing s with
  | choice n p q ihp ihq =>
    rw [Path.respan, resolve, resolve]
    have hknown : (s.respan ρ).choices.lookup n = (s.choices.lookup n).map (Ends.respan ρ.span) :=
      lookup_respan ρ s.choices n
    rw [hknown]
    cases s.choices.lookup n with
    | some e => rfl
    | none =>
      simp only [Option.map_none, ihp, ihq, Prod.map_fst, Prod.map_snd, union_respan]
      simp [Seen.respan]
  | _ => rfl

/-! ## Check -/

/-- **The return check does not look at spans.** -/
theorem check_respan (f : Func) : check (f.respan ρ.span) = (check f).map ρ.problem := by
  have hpaths := blockPaths_respan ρ.span .finish 0 f.body
  have hresolve := resolve_respan ρ f.name (blockPaths .finish 0 f.body).1 {}
  have hwrong (rs : List (Span × Ty)) :
      (rs.map (placed ρ.span)).flatMap (fun r => if f.result.accepts r.2 then []
        else [(Problem.wrongReturn f.name f.result r.2).diagnostic r.1]) =
      (rs.flatMap fun r => if f.result.accepts r.2 then []
        else [(Problem.wrongReturn f.name f.result r.2).diagnostic r.1]).map ρ.problem := by
    rw [List.flatMap_map, List.map_flatMap]
    congr 1
    funext r
    by_cases h : f.result.accepts r.2 = true <;> simp [placed, h]
  have hnone : Seen.respan ρ {} = {} := rfl
  rw [Path.respan] at hpaths
  rw [hnone] at hresolve
  simp only [check, Func.respan, hpaths, hresolve, Prod.map_fst, Prod.map_snd, blockReturns_respan, List.map_append]
  generalize resolve f.name (blockPaths .finish 0 f.body).1 {} = r
  obtain ⟨⟨falls, exits, ret, conflict⟩, seen⟩ := r
  cases conflict with
  | true => rfl
  | false =>
    cases falls with
    | true => simp [Ends.respan, Seen.respan]
    | false => exact congrArg (_ ++ ·) (hwrong _)

theorem checkAll_respan (T : Table) (p : Program) : checkAll (p.respan ρ.span T) = (checkAll p).map ρ.problem := by
  simp [checkAll, Program.respan, List.flatMap_map, List.map_flatMap, check_respan]

end Wacc.Returns
