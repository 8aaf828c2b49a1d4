/-
  The problems with a program point into the file.

  Neither typing nor the return check looks at spans, and the tree of a file has spans of the file only.  So
  moving all other spans moves nothing that is found in the tree.
-/
import Wacc.Proofs.Returns.Respan
import Wacc.Proofs.Tree.PlacesProgram
import Wacc.Proofs.Typing.Respan

namespace Wacc

variable {f : File}

structure Diagnostic.Found (f : File) (d : Diagnostic) : Prop where
  isA : d.IsA .semantic
  points : d.Points f

theorem Problem.diagnostic_isA (p : Problem) (span : Span) : (p.diagnostic span).IsA .semantic := by
  refine ⟨rfl, ?_⟩
  show p.code.category = .semantic
  cases p <;> (simp only [code]; decide)

namespace Respan

open scoped Classical in
/-- Moves the spans outside the file, and changes the problems that are not semantic. -/
noncomputable def outside (f : File) : Respan where
  span s := if f.Holds s then s else { s with file := s.file + 1 }
  problem d := (if d.IsA .semantic then d else { d with message := 0 :: d.message }).respan
    fun s => if f.Holds s then s else { s with file := s.file + 1 }
  diagnostic p s := by
    rw [if_pos (p.diagnostic_isA s)]
    rfl
  withNote p s t m := by
    have hisA := p.diagnostic_isA s
    rw [if_pos ⟨hisA.error, hisA.category⟩]
    rfl

theorem outside_span {s : Span} : (outside f).span s = s ↔ f.Holds s := by
  by_cases h : f.Holds s
  · simp [outside, h]
  · simp only [outside, h, if_false, iff_false]
    intro heq
    simpa using congrArg Span.file heq

theorem outside_problem {d : Diagnostic} (h : (outside f).problem d = d) : d.Found f := by
  have hisA : d.IsA .semantic := by
    by_contra hnot
    have hmessage := congrArg Diagnostic.message h
    simp [outside, hnot, Diagnostic.respan] at hmessage
  have hd : d.respan (outside f).span = d := by simpa [outside, hisA] using h
  refine ⟨hisA, outside_span.1 (congrArg Diagnostic.span hd), fun n hn => outside_span.1 ?_⟩
  have hnotes : d.notes.map (fun n => { n with span := (outside f).span n.span }) = d.notes.map id :=
    (congrArg Diagnostic.notes hd).trans (List.map_id _).symm
  exact congrArg Note.span (List.map_inj_left.1 hnotes n hn)

theorem outside_problems {ds : List Diagnostic} (h : ds = ds.map (outside f).problem) : ∀ d ∈ ds, d.Found f :=
  fun d hd => outside_problem (List.map_inj_left.1 (h.symm.trans (List.map_id ds).symm) d hd)

end Respan

mutual

theorem Tree.Laid.respan : ∀ {t : Tree}, t.Laid f → t.respan (Respan.outside f).span = t
  | .missing, h => h.elim
  | .node _ _ _ _, h => by rw [Tree.respan, Respan.outside_span.2 h.1.holds, Row.respanAll h.2.2]

theorem Tree.Row.respanAll : ∀ {cs : List Tree} {a b : Nat}, Row f a b cs →
    Tree.respanAll (Respan.outside f).span cs = cs
  | [], _, _, _ => by rw [Tree.respanAll]
  | _ :: _, _, _, h => by rw [Tree.respanAll, h.1.respan, h.2.2.respanAll]

end

/-- **The problems with a program and with its returns point into the file.** -/
theorem Typing.check_points {n : Tree} (hn : n.IsProgram) (hl : n.Laid f) (hw : n.weight < 2 ^ 32)
    {c : Checked Program} {T : Table} (h : check n = .ok (c, T)) :
    (∀ d ∈ c.problems, d.Found f) ∧ ∀ p, c = .ok p → ∀ d ∈ Returns.checkAll p, d.Found f := by
  have hsame := hl.respan
  -- the numbers of the table have not run out
  have hclear : Clear (.outside f) T := by
    obtain ⟨c', T', hrun, hchecks⟩ := check_runs hn hw
    cases hrun.symm.trans h
    obtain ⟨-, -, hwalk⟩ := hchecks
    have hsmall := hwalk.extends.wf.small
    have hfew := hwalk.extends.wf.few
    simp only [Clear, entries, Table.cost] at hsmall ⊢
    omega
  obtain ⟨T', -, hrun⟩ := (check_respan (ρ := .outside f) hn).2 c T h hclear
  rw [hsame, h] at hrun
  obtain ⟨hc, rfl⟩ := Prod.mk.inj (Except.ok.inj hrun)
  refine ⟨Respan.outside_problems ?_, ?_⟩
  · rw [← Checked.problems_respan, ← hc]
  · rintro p rfl
    refine Respan.outside_problems ?_
    rw [← Returns.checkAll_respan, ← Checked.ok.inj hc]

/-- The return check finds the same with other spans, so with problems that are not semantic, too. -/
theorem Returns.check_semantic (g : Func) : ∀ d ∈ check g, d.IsA .semantic := by
  let f : File := ⟨0, [], [], 0⟩
  let plain : Respan :=
    { span := (Respan.outside f).span, problem := Diagnostic.respan (Respan.outside f).span,
      diagnostic := fun _ _ => rfl, withNote := fun _ _ _ _ => rfl }
  have hsame : (check g).map (Respan.outside f).problem = (check g).map plain.problem :=
    (check_respan (.outside f) g).symm.trans (check_respan plain g)
  intro d hd
  by_contra hnot
  have hmessage := congrArg Diagnostic.message (List.map_inj_left.1 hsame d hd)
  simp [plain, Respan.outside, hnot, Diagnostic.respan] at hmessage

end Wacc
