/-
  The return check is exact.

  The paths of a function are those of `Control`, where every choice is open.  Unless two returns
  contradict each other, the check complains about a missing return exactly if some path gets to the
  end of the body, and otherwise about every return whose value does not fit the declared type.
-/
import Wacc.Proofs.Control
import Wacc.Proofs.Returns

namespace Wacc

mutual

def Stat.parts : Stat → List Stat
  | .block b => .block b :: b.parts
  | .ifThen site c a => .ifThen site c a :: a.parts
  | .ifElse site c a b => .ifElse site c a b :: (a.parts ++ b.parts)
  | .while site c b => .while site c b :: b.parts
  | .for site h i c s b => .for site h i c s b :: (i.parts ++ b.parts ++ s.parts)
  | .seq site ss => .seq site ss :: Stat.partsAll ss
  | s => [s]

def Stat.partsAll : List Stat → List Stat
  | [] => []
  | s :: ss => s.parts ++ Stat.partsAll ss

def Block.parts : Block → List Stat
  | .mk _ _ s => s.parts

end

namespace Returns

def return? : Stat → Option (Span × Ty)
  | .ret site e => some (site.span, e.type)
  | _ => none

def MayFinish (f : Func) : Prop := Control.Reaches [.run (.block f.body)] []

def wrong? (f : Func) (s : Stat) : Option Diagnostic :=
  (return? s).bind fun (span, t) =>
    if f.result.accepts t then none else some ((Problem.wrongReturn f.name f.result t).diagnostic span)

/-! ## Returns -/

mutual

theorem returns_eq (s : Stat) : returns s = s.parts.reverse.filterMap return? := by
  cases s with
  | block b => simp [returns, Stat.parts, return?, blockReturns_eq b]
  | ifThen site c a => simp [returns, Stat.parts, return?, blockReturns_eq a]
  | ifElse site c a b => simp [returns, Stat.parts, return?, blockReturns_eq a, blockReturns_eq b]
  | «while» site c b => simp [returns, Stat.parts, return?, blockReturns_eq b]
  | «for» site h i c st b =>
    simp [returns, Stat.parts, return?, returns_eq i, returns_eq st, blockReturns_eq b]
  | seq site ss => simp [returns, Stat.parts, return?, seqReturns_eq ss]
  | _ => simp [returns, Stat.parts, return?]

theorem blockReturns_eq (b : Block) : blockReturns b = b.parts.reverse.filterMap return? := by
  cases b with
  | mk site i s => simpa [blockReturns, Block.parts] using returns_eq s

theorem seqReturns_eq (ss : List Stat) :
    seqReturns ss = (Stat.partsAll ss).reverse.filterMap return? := by
  cases ss with
  | nil => rfl
  | cons s ss => simp [seqReturns, Stat.partsAll, returns_eq s, seqReturns_eq ss]

end

/-! ## Problems -/

variable {f : Func} {d : Diagnostic} {ss : List Stat}

theorem union_problems {func : Text} {a b : Ends} (h : d ∈ (union func a b).2) : d.code = .inconsistentReturn := by
  unfold union at h
  dsimp only at h
  split at h
  · simp at h
  · simp at h
  · split_ifs at h
    · simp at h
    · obtain rfl := List.mem_singleton.1 h
      rfl
    · simp at h
    · simp at h

theorem resolve_problems (func : Text) (p : Path) {s : Seen}
    (hs : ∀ d ∈ s.problems, d.code = .inconsistentReturn) :
    ∀ d ∈ (resolve func p s).2.problems, d.code = .inconsistentReturn := by
  induction p generalizing s with
  | choice m p q ihp ihq =>
    rw [resolve]
    split
    · exact hs
    · intro d hd
      rcases List.mem_append.1 hd with hd | hd
      · exact ihq (ihp hs) d hd
      · exact union_problems hd
  | _ => exact hs

theorem wrong_returns (f : Func) (ss : List Stat) :
    ((ss.filterMap return?).flatMap fun (span, t) =>
      if f.result.accepts t then [] else [(Problem.wrongReturn f.name f.result t).diagnostic span]) =
    ss.filterMap (wrong? f) := by
  induction ss with
  | nil => rfl
  | cons s ss ih =>
    cases hs : return? s with
    | none => rw [List.filterMap_cons_none hs, List.filterMap_cons_none (by rw [wrong?, hs]; rfl), ih]
    | some r =>
      rw [List.filterMap_cons_some hs, List.flatMap_cons, ih, List.filterMap_cons, wrong?, hs,
        Option.bind_some]
      by_cases hr : f.result.accepts r.2 = true <;> simp [hr]

theorem check_eq (h : ∀ d ∈ check f, d.code ≠ .inconsistentReturn) :
    check f = if f.body.falls then [(Problem.missingReturn f.name).diagnostic f.span]
      else f.body.parts.reverse.filterMap (wrong? f) := by
  obtain ⟨-, ν, -, hp⟩ : Follows (fun _ => .finish) 0 (blockPaths .finish 0 f.body) :=
    blockPaths_numbered f.body trivial
  have hr := resolve_spec f.name hp (s := {}) ⟨nofun, nofun⟩
  have hfalls : (resolve f.name (blockPaths .finish 0 f.body).1 {}).1.falls = f.body.falls := by
    rw [hr.falls, blockPaths_falls]
    exact Bool.and_true _
  have hnone : (resolve f.name (blockPaths .finish 0 f.body).1 {}).2.problems = [] := by
    refine List.eq_nil_iff_forall_not_mem.2 fun d hd => ?_
    exact h d (List.mem_append_left _ hd) (resolve_problems f.name _ (by simp) d hd)
  have hconflict := Bool.eq_false_iff.2 fun hc => hr.conflict hc hnone
  rw [check]
  dsimp only
  rw [hnone, hconflict, hfalls, blockReturns_eq, wrong_returns, List.nil_append]
  rfl

theorem mem_wrong (h : d ∈ ss.filterMap (wrong? f)) : d.code = .returnTypeMismatch := by
  obtain ⟨s, -, hd⟩ := List.mem_filterMap.1 h
  obtain ⟨⟨span, t⟩, -, hd⟩ := Option.bind_eq_some_iff.1 hd
  dsimp only at hd
  split_ifs at hd
  cases hd
  rfl

theorem wrong_eq_nil_iff :
    ss.filterMap (wrong? f) = [] ↔ ∀ site e, .ret site e ∈ ss → f.result.accepts e.type = true := by
  rw [List.filterMap_eq_nil_iff]
  constructor
  · intro h site e he
    by_contra hbad
    have := h _ he
    simp [wrong?, return?, hbad] at this
  · intro h s hs
    cases s with
    | ret site e => simp [wrong?, return?, h site e hs]
    | _ => rfl

/-- **The return check is exact over all paths**: unless returns contradict each other, it reports a
    missing return, once, if and only if some path gets to the end of the body, and otherwise every
    return, reachable or not, whose value the declared type does not accept. -/
theorem check_exact (f : Func) (h : ∀ d ∈ check f, d.code ≠ .inconsistentReturn) :
    ((∃ d ∈ check f, d.code = .missingReturn) ↔ MayFinish f) ∧
    (MayFinish f → check f = [(Problem.missingReturn f.name).diagnostic f.span]) ∧
    (¬ MayFinish f → check f = f.body.parts.reverse.filterMap (wrong? f)) ∧
    (check f = [] ↔ ¬ MayFinish f ∧
      ∀ site e, .ret site e ∈ f.body.parts → f.result.accepts e.type = true) := by
  have hfinish : MayFinish f ↔ f.body.falls = true := Control.reaches_end_iff f.body
  have hcheck := check_eq h
  cases hb : f.body.falls with
  | true =>
    rw [hb, if_pos rfl] at hcheck
    have hmay := hfinish.2 hb
    refine ⟨?_, fun _ => hcheck, fun hno => absurd hmay hno, ?_⟩
    · rw [hcheck]
      exact ⟨fun _ => hmay, fun _ => ⟨_, List.mem_singleton.2 rfl, rfl⟩⟩
    · rw [hcheck]
      exact ⟨nofun, fun hno => absurd hmay hno.1⟩
  | false =>
    rw [hb, if_neg Bool.false_ne_true] at hcheck
    have hno : ¬ MayFinish f := by rw [hfinish, hb]; exact Bool.false_ne_true
    refine ⟨?_, fun hmay => absurd hmay hno, fun _ => hcheck, ?_⟩
    · rw [hcheck]
      refine ⟨?_, fun hmay => absurd hmay hno⟩
      rintro ⟨d, hd, hcode⟩
      rw [mem_wrong hd] at hcode
      cases hcode
    · rw [hcheck, wrong_eq_nil_iff]
      simp [hno]

/-- A function that is to return a truth value: the step of its loop returns a number, but the body
    of the loop exits, and a character is returned after an exit. -/
def detour : Func where
  id := 1
  name := lit "detour"
  result := .bool
  params := []
  scope := 2
  span := {}
  body := .mk ⟨{}, 2⟩ 3 (.seq ⟨{}, 3⟩
    [.for ⟨{}, 3⟩ 4 (.skip ⟨{}, 4⟩) (.bool {} true) (.ret ⟨{}, 4⟩ (.int {} 1))
      (.mk ⟨{}, 4⟩ 5 (.exit ⟨{}, 5⟩ (.int {} 2))),
     .exit ⟨{}, 3⟩ (.int {} 0), .ret ⟨{}, 3⟩ (.char {} 97)])

theorem check_exact_detour : (∀ d ∈ check detour, d.code ≠ .inconsistentReturn) ∧ ¬ MayFinish detour ∧
    check detour = detour.body.parts.reverse.filterMap (wrong? detour) ∧ (check detour).length = 2 := by
  have h : ∀ d ∈ check detour, d.code ≠ .inconsistentReturn := by decide
  obtain ⟨hmissing, -, hwrong, -⟩ := check_exact detour h
  have hno : ¬ MayFinish detour := by
    rw [← hmissing]
    decide
  exact ⟨h, hno, hwrong hno, by decide⟩

end Returns

end Wacc
