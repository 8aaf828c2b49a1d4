/-
  Where the problems of a compilation point.
-/
import Wacc.Proofs.Compile.Transparent

namespace Wacc

variable {f : File}

/-! ## Findings -/

theorem File.findings_points (hlen : f.content.length < 2 ^ 32) (stage : Stage) :
    ∀ d ∈ f.findings stage, d.Points f := by
  intro d hd
  cases ht : f.tree? with
  | none => exact ((File.findings_of_no_tree stage hlen ht).2 d hd).2
  | some t => exact (File.findings_found stage hlen ht d hd).points

namespace Compile

/-! ## Runs -/

theorem live_background (c : Checkpoint) (r : Except Failure Outcome) : live background c r = r := rfl

variable {ctx : Context} {stage : Stage} {o : Outcome}

theorem found_background {o o' : Outcome} (h : found ctx stage o f = .ok o') :
    found background stage o f = .ok o' := by
  unfold found at h ⊢
  simp only [live_background]
  replace h := live_eq_ok h
  cases ht : (parsed o f).tree with
  | none => simpa only [ht] using h
  | some t =>
    simp only [ht] at h ⊢
    split_ifs at h ⊢
    · exact h
    · replace h := live_eq_ok h
      cases hb : built (parsed o f) t with
      | error e => rw [hb] at h; cases h
      | ok r =>
        obtain ⟨o1, _ | p⟩ := r <;> rw [hb] at h
        · exact h
        · simp only [bind, Except.bind] at h ⊢
          split_ifs at h ⊢
          · exact h
          · exact live_eq_ok h

theorem found_stableSort {max : Int} (hlen : f.content.length < 2 ^ 32) (h : found ctx stage (fresh max) f = .ok o) :
    StableSort (Bag.keep max (f.findings stage)) o.finish.bag.items := by
  obtain ⟨o', ho', hholds⟩ := found_holds stage max hlen
  cases ho'.symm.trans (found_background h)
  exact hholds.finish.stableSort

theorem run_outcome {opts : Options} {files : FileSet} {id : UInt32} {w w' : World} (hf : files.get? id = some f)
    (h : run ctx opts files id w = (.ok o, w')) :
    (o.cached = true ∧ o.bag.items = []) ∨
      ∃ o', found ctx opts.stage.resolve (fresh opts.max) f = .ok o' ∧ o = o'.finish := by
  have hmap : ∀ r : Except Failure Outcome, .ok o = r.map Outcome.finish → ∃ o', r = .ok o' ∧ o = o'.finish := by
    rintro (e | o') hr <;> cases hr
    exact ⟨o', rfl, rfl⟩
  have hfst : (run ctx opts files id w).1 = .ok o := by rw [h]
  cases hcache : (if opts.stage.resolve = .codegen then opts.cache else none) with
  | none =>
    obtain ⟨root, t, hr, -⟩ := run_wraps ctx opts w hf
    obtain ⟨t', hplain⟩ := throughCache_plain ctx root f hcache { w with trace := t }
    rw [hfst, hplain] at hr
    exact .inr (hmap _ hr)
  | some c =>
    rw [Option.ite_none_right_eq_some] at hcache
    obtain ⟨hs, hc⟩ := hcache
    obtain ⟨e, -, hhit⟩ | hmiss := run_cached ctx opts w hf hs hc
    · rw [hfst] at hhit
      cases hhit
      exact .inl ⟨rfl, rfl⟩
    · rw [hfst] at hmiss
      exact .inr (hs ▸ hmap _ hmiss)

/-- **Every problem of a compilation points into the file.**  Whatever is compiled, up to whatever stage, with
    whatever limit and cache, and whether or not it could have been cancelled: the bag has the problems of the
    file that the limit leaves, unless the cache answers, and each of them and of its notes has the number of the
    file and a range of its bytes. -/
theorem run_points (ctx : Context) (opts : Options) (files : FileSet) (id : UInt32) (f : File) (w w' : World)
    (o : Outcome) (hf : files.get? id = some f) (hlen : f.content.length < 2 ^ 32)
    (h : run ctx opts files id w = (.ok o, w')) :
    (StableSort (Bag.keep opts.max (f.findings opts.stage.resolve)) o.bag.items ∨
      o.cached = true ∧ o.bag.items = []) ∧
    ∀ d ∈ o.bag.items, d.Points f := by
  obtain ⟨hcached, hnil⟩ | ⟨o', hfound, rfl⟩ := run_outcome hf h
  · exact ⟨.inr ⟨hcached, hnil⟩, by simp [hnil]⟩
  · have hsort := found_stableSort hlen hfound
    refine ⟨.inl hsort, fun d hd => ?_⟩
    exact File.findings_points hlen _ d (Bag.mem_of_mem_keep (hsort.perm.mem_iff.1 hd))

/-- A file with a function and a variable that are declared twice, and a call with too many values. -/
def doubled : File where
  id := 1
  path := lit "g.wacc"
  content := lit "begin int f(int a) is return 1 end int f() is return 2 end int y = call f(1,2) ; bool y = 3 end"
  flags := File.virtual

theorem run_points_doubled :
    ((doubled.findings .codegen).map fun d => (d.span, d.notes.map (·.span))) =
      [(⟨1, 39, 40⟩, [⟨1, 10, 11⟩]), (⟨1, 67, 78⟩, []), (⟨1, 86, 87⟩, [⟨1, 63, 64⟩]), (⟨1, 90, 91⟩, [])] ∧
    ∃ files : FileSet, files.get? 1 = some doubled ∧ doubled.content.length < 2 ^ 32 ∧
    ∃ o w', run background { max := 3 } files 1 {} = (.ok o, w') ∧
      o.bag.items.Perm ((doubled.findings .codegen).take 3) ∧ ∀ d ∈ o.bag.items, d.Points doubled := by
  refine ⟨by decide +kernel, ?_⟩
  have hlen : doubled.content.length < 2 ^ 32 := by decide +kernel
  have hget : (FileSet.mk #[{ doubled with id := 0 }, doubled]).get? 1 = some doubled := rfl
  obtain ⟨o, w', hrun, hfinal⟩ := run_final { max := 3 } {} hget hlen rfl
  exact ⟨_, hget, hlen, o, w', hrun, hfinal.stableSort.perm,
    (run_points background { max := 3 } _ 1 doubled {} w' o hget hlen hrun).2⟩

end Compile

end Wacc
