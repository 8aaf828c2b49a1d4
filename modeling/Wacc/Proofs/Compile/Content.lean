/-
  What a file compiles to is a fact about its bytes.

  The number and the path of a file stand in spans only, and neither typing nor code generation looks at
  spans.
-/
import Wacc.Proofs.Arm.Respan
import Wacc.Proofs.Compile.Verdict

namespace Wacc

/-! ## Tokens -/

namespace Scan

def Step.outline (s : Step) : Terminal × Nat := (s.token.terminal, s.diagnostics.length)

theorem next_outline (a b : UInt32) (off : Nat) (t : Text) :
    (next a off t).outline = (next b off t).outline ∧ (next a off t).used = (next b off t).used := by
  unfold next
  dsimp only
  split <;> simp [Step.outline, Token.terminal]

theorem steps_outline (a b : UInt32) (off : Nat) (t : Text) :
    (steps a off t).map Step.outline = (steps b off t).map Step.outline := by
  obtain ⟨houtline, hused⟩ := next_outline a b off t
  have hkind : (next a off t).token.kind = (next b off t).token.kind :=
    congrArg (fun o : Terminal × Nat => o.1.kind) houtline
  rw [steps.eq_def a, steps.eq_def b]
  by_cases h : (next a off t).token.kind = .eof
  · simp only [h, ← hkind, dite_true, List.map_cons, houtline, List.map_nil]
  · have hlt := length_drop_next h
    simp only [h, ← hkind, dite_false, List.map_cons, houtline, ← hused]
    exact congrArg _ (steps_outline a b _ _)
termination_by t.length
decreasing_by exact hlt

end Scan

mutual

theorem Tree.respan_away : ∀ t : Tree, t.respan (fun _ => {}) = t.bare
  | .missing => by rw [respan, bare]
  | .node _ _ _ cs => by rw [respan, bare, respanAll_away cs]

theorem Tree.respanAll_away : ∀ cs : List Tree, respanAll (fun _ => {}) cs = bareAll cs
  | [] => by rw [respanAll, bareAll]
  | c :: cs => by rw [respanAll, bareAll, respan_away c, respanAll_away cs]

end

namespace File

variable {f g : File}

theorem terminals_of_content (h : f.content = g.content) : f.terminals = g.terminals := by
  have hterminals (x : File) :
      x.terminals = (((Scan.steps x.id 0 x.content).map Scan.Step.outline).map (·.1)).dropLast := by
    rw [terminals, Scan.tokens, List.map_dropLast, List.map_map, List.map_map]
    rfl
  rw [hterminals, hterminals, h, Scan.steps_outline f.id g.id]

theorem lexical_of_content (h : f.content = g.content) (hf : (Parsed.ofFile f).lexical = []) :
    (Parsed.ofFile g).lexical = [] := by
  have hlength (x : File) : (Parsed.ofFile x).lexical.length =
      (((Scan.steps x.id 0 x.content).map Scan.Step.outline).map (·.2)).sum := by
    show ((Scan.steps x.id 0 x.content).flatMap (·.diagnostics)).length = _
    rw [List.length_flatMap, List.map_map]
    rfl
  rw [← List.length_eq_zero_iff] at hf ⊢
  rw [hlength] at hf ⊢
  rw [← h, Scan.steps_outline g.id f.id, hf]

/-! ## Trees, programs and assembly -/

theorem tree?_of_content (h : f.content = g.content) {t : Tree} (ht : f.tree? = some t) :
    ∃ t', g.tree? = some t' ∧ t'.bare = t.bare := by
  obtain ⟨hlex, hsyn, ht⟩ := Parsed.tree?_eq_some ht
  obtain ⟨u, hu, hprogram, hterms, -⟩ := Parsed.exists_tree hlex hsyn
  cases hu.symm.trans ht
  -- the other file has the terminals of this tree
  have hunparse : t.bare.unparse ++ [] = g.terminals := by
    rw [List.append_nil, Tree.unparse_bare, hterms, terminals_of_content h]
  obtain ⟨⟨t', ht', hbare⟩, hend⟩ := Rule.program_accepts hprogram g.reader 0 (g.reader_before.cast hunparse.symm)
  refine ⟨t', ?_, hbare⟩
  rw [tree?, Parsed.tree?, Parsed.count, lexical_of_content h hlex, Parsed.syntactic_eq_nil hend.problems]
  exact ht'

/-- **Files with the same bytes have the same assembly**, whatever their numbers and paths are. -/
theorem assembly_of_content (h : f.content = g.content) {p : Program} (hp : f.program? = some p) :
    ∃ q, g.program? = some q ∧ Arm.Assembly.ofProgram q = Arm.Assembly.ofProgram p := by
  obtain ⟨t, T, ht, hc, hreturns⟩ := program?_eq_some hp
  obtain ⟨t', ht', hbare⟩ := tree?_of_content h ht
  have hclear (T : Table) : Typing.Clear .away T := .inl rfl
  obtain ⟨-, hok⟩ := Typing.check_respan (ρ := .away) (Parsed.tree_shape ht).1
  obtain ⟨herror', hok'⟩ := Typing.check_respan (ρ := .away) (Parsed.tree_shape ht').1
  have haway : t.respan Respan.away.span = t'.respan Respan.away.span := by
    rw [Respan.away, Tree.respan_away, Tree.respan_away, hbare]
  -- both trees give what the tree without spans gives
  obtain ⟨U, hU, hrun⟩ := hok _ T hc (hclear T)
  rw [haway] at hrun
  cases hc' : Typing.check t' with
  | error e => cases (herror' e hc' rfl).symm.trans hrun
  | ok r =>
    obtain ⟨c, T'⟩ := r
    obtain ⟨U', hU', hrun'⟩ := hok' c T' hc' (hclear T')
    obtain ⟨hsame, rfl⟩ := Prod.mk.inj (Except.ok.inj (hrun'.symm.trans hrun))
    cases c with
    | bad => cases hsame
    | ok q =>
      have hq : q.respan Respan.away.span U' = p.respan Respan.away.span U' := Checked.ok.inj hsame
      have hreturns' : Returns.checkAll q = [] := by
        rw [← List.map_eq_nil_iff (f := Respan.away.problem), ← Returns.checkAll_respan .away U', hq,
          Returns.checkAll_respan, hreturns, List.map_nil]
      obtain rfl := Typing.check_table (Parsed.tree_shape ht).1 hc
      obtain rfl := Typing.check_table (Parsed.tree_shape ht').1 hc'
      refine ⟨q, ?_, ?_⟩
      · rw [Returns.checkAll] at hreturns'
        rw [program?_of_tree ht' hc']
        simp only [Checked.value?, Option.filter, hreturns', List.isEmpty_nil, if_true]
      · rw [← Arm.Assembly.ofProgram_respan hU', hq, Arm.Assembly.ofProgram_respan hU]

end File

end Wacc
