/-
  The verdict of a compilation.

  Whether a file is rejected, and by which phase, is a fact about the file.  A limit on the number of
  problems changes nothing but the number of problems that are listed, and generating code changes nothing
  of the verdict.
-/
import Wacc.Proofs.Compile
import Wacc.Proofs.Diagnostic.Bag
import Wacc.Proofs.Typing.Points

namespace Wacc

/-! ## Files -/

namespace File

variable {f : File} {stage : Stage} {t : Tree} {T : Table} {p : Program}

def tree? (f : File) : Option Tree := (Parsed.ofFile f).tree? 0

/-- The problems of a file in the order in which they are found: those of the scanner and then those of the
    rules, or those of typing, or those of the return check, function by function. -/
def findings (f : File) (stage : Stage) : List Diagnostic :=
  match f.tree? with
  | none => (Parsed.ofFile f).lexical ++ (Parsed.ofFile f).syntactic
  | some t =>
    if stage = .parse then []
    else match Typing.check t with
      | .ok (.ok p, _) => p.funcs.flatMap Returns.check
      | .ok (.bad d ds, _) => d :: ds
      | .error _ => []

def Rejected (f : File) : Prop :=
  ∃ t, f.tree? = some t ∧
    ((∃ d ds T, Typing.check t = .ok (.bad d ds, T)) ∨
      ∃ p T, Typing.check t = .ok (.ok p, T) ∧ ∃ g ∈ p.funcs, Returns.check g ≠ [])

def accepted (f : File) (stage : Stage) : Option Program := if stage = .parse then none else f.program?

def assembly (f : File) (stage : Stage) : Text :=
  if stage = .parse ∨ stage = .sema then []
  else match f.program? with
    | none => []
    | some p =>
      match Arm.Assembly.ofProgram p with
      | .ok a => a.text
      | .error _ => []

theorem program?_of_no_tree (h : f.tree? = none) : f.program? = none := by
  rw [program?]
  change (match f.tree? with | none => none | some t => _) = none
  rw [h]

theorem program?_of_tree {c : Checked Program} (h : f.tree? = some t) (hc : Typing.check t = .ok (c, T)) :
    f.program? = c.value?.filter fun p => (p.funcs.flatMap Returns.check).isEmpty := by
  rw [program?]
  change (match f.tree? with | none => none | some t => _) = _
  rw [h]
  dsimp only
  rw [hc]
  cases c with
  | ok p => simp [Checked.value?, Option.filter, Returns.checkAll]
  | bad => rfl

theorem findings_no_tree (h : f.tree? = none) :
    f.findings stage = (Parsed.ofFile f).lexical ++ (Parsed.ofFile f).syntactic := by
  rw [findings, h]

theorem findings_parse (h : f.tree? = some t) : f.findings .parse = [] := by
  rw [findings, h]
  rfl

theorem findings_typed (h : f.tree? = some t) (hp : Typing.check t = .ok (.ok p, T)) (hs : stage ≠ .parse) :
    f.findings stage = p.funcs.flatMap Returns.check := by
  rw [findings, h]
  simp only [if_neg hs, hp]

theorem findings_untyped {d : Diagnostic} {ds : List Diagnostic} (h : f.tree? = some t)
    (hd : Typing.check t = .ok (.bad d ds, T)) (hs : stage ≠ .parse) : f.findings stage = d :: ds := by
  rw [findings, h]
  simp only [if_neg hs, hd]

theorem assembly_early (h : stage = .parse ∨ stage = .sema) : f.assembly stage = [] := by
  rw [assembly, if_pos h]

theorem assembly_late {a : Arm.Assembly} (h : f.program? = some p) (ha : Arm.Assembly.ofProgram p = .ok a)
    (hs : ¬ (stage = .parse ∨ stage = .sema)) : f.assembly stage = a.text := by
  rw [assembly, if_neg hs, h]
  simp only [ha]

theorem accepted_of_none (h : f.program? = none) : f.accepted stage = none := by
  rw [accepted, h, ite_self]

theorem assembly_of_none (h : f.program? = none) : f.assembly stage = [] := by
  rw [assembly, h, ite_self]

theorem problems_of_tree (h : f.tree? = some t) : (Parsed.ofFile f).lexical ++ (Parsed.ofFile f).syntactic = [] := by
  obtain ⟨hlex, hsyn, -⟩ := Parsed.tree?_eq_some h
  rw [hlex, hsyn, List.append_nil]

theorem problems_of_no_tree (h : f.tree? = none) :
    (Parsed.ofFile f).lexical ++ (Parsed.ofFile f).syntactic ≠ [] := by
  intro hnil
  obtain ⟨hlex, hsyn⟩ := List.append_eq_nil_iff.1 hnil
  obtain ⟨t, ht, -⟩ := Parsed.exists_tree hlex hsyn
  rw [tree?, Parsed.tree?, Parsed.count, hlex, hsyn, if_pos (by decide), ht] at h
  cases h

theorem findings_of_no_tree (stage : Stage) (hlen : f.content.length < 2 ^ 32) (h : f.tree? = none) :
    f.findings stage ≠ [] ∧ ∀ d ∈ f.findings stage, (∃ c, d.IsA c ∧ c.status = 100) ∧ d.Points f := by
  rw [findings_no_tree h]
  refine ⟨problems_of_no_tree h, fun d hd => ?_⟩
  obtain ⟨hlex, hsyn⟩ := Parsed.ofFile_placed hlen
  obtain hd | hd := List.mem_append.1 hd
  · exact ⟨⟨_, (hlex d hd).1, rfl⟩, (hlex d hd).2⟩
  · exact ⟨⟨_, (hsyn d hd).1, rfl⟩, (hsyn d hd).2⟩

theorem findings_found (stage : Stage) (hlen : f.content.length < 2 ^ 32) (h : f.tree? = some t) :
    ∀ d ∈ f.findings stage, d.Found f := by
  by_cases hs : stage = .parse
  · rw [hs, findings_parse h]
    exact fun _ hd => absurd hd List.not_mem_nil
  obtain ⟨hshape, hweight⟩ := Parsed.tree_shape h
  obtain ⟨c, T, hc, -⟩ := Typing.check_parsed hlen h
  have hfound := Typing.check_points hshape (Parsed.tree?_laid hlen h) (hweight.trans_lt hlen) hc
  cases c with
  | ok p =>
    rw [findings_typed h hc hs]
    exact hfound.2 p rfl
  | bad d ds =>
    rw [findings_untyped h hc hs]
    exact hfound.1

theorem findings_of_tree (stage : Stage) (h : f.tree? = some t) :
    f.findings stage ≠ [] ↔ stage ≠ .parse ∧ f.Rejected := by
  by_cases hs : stage = .parse
  · simp [hs, findings_parse h]
  have hrejected : f.Rejected ↔ (∃ d ds T, Typing.check t = .ok (.bad d ds, T)) ∨
      ∃ p T, Typing.check t = .ok (.ok p, T) ∧ ∃ g ∈ p.funcs, Returns.check g ≠ [] := by
    simp [Rejected, h]
  rw [hrejected, and_iff_right hs]
  cases hc : Typing.check t with
  | error e =>
    have hnil : f.findings stage = [] := by
      rw [findings, h]
      simp only [if_neg hs, hc]
    simp [hnil]
  | ok r =>
    obtain ⟨c, T⟩ := r
    cases c with
    | ok p =>
      rw [findings_typed h hc hs]
      simp [List.flatMap_eq_nil_iff]
    | bad d ds =>
      rw [findings_untyped h hc hs]
      simp

theorem findings_of_assembly (h : f.assembly stage ≠ []) : f.tree? ≠ none ∧ f.findings stage = [] := by
  cases hp : f.program? with
  | none => exact absurd (assembly_of_none hp) h
  | some p =>
    obtain ⟨t, T, ht, hc, hreturns⟩ := File.program?_eq_some hp
    have htree : f.tree? = some t := ht
    have hs : stage ≠ .parse := fun e => h (assembly_early (.inl e))
    exact ⟨by simp [htree], (findings_typed htree hc hs).trans hreturns⟩

theorem findings_past_parse {stage' : Stage} (h : stage ≠ .parse) (h' : stage' ≠ .parse) :
    f.findings stage = f.findings stage' := by
  unfold findings
  simp only [if_neg h, if_neg h']

end File

theorem Bag.keep_reported (p : Parsed) (limit : Int) :
    Bag.keep limit (p.reported limit.toNat 0) = Bag.keep limit (p.lexical ++ p.syntactic) := by
  unfold Bag.keep Parsed.reported
  split_ifs with h h' h'
  · rfl
  · omega
  · omega
  · rw [List.take_append, List.take_append, List.take_take]
    congr 2
    omega

namespace Compile

/-! ## Phases -/

/-- What an outcome holds before its problems are sorted; `found` are all the problems. -/
structure Outcome.Holds (max : Int) (found : List Diagnostic) (tree : Option Tree) (program : Option Program)
    (asm : Text) (o : Outcome) : Prop where
  limit : o.bag.limit = max
  items : o.bag.items = Bag.keep max found
  tree : o.tree = tree
  program : o.program = program
  asm : o.asm = asm

section
variable {max : Int} {found : List Diagnostic} {tree : Option Tree} {program : Option Program} {asm : Text}
  {o : Outcome} {bag : Bag}

theorem addAll_kept (h : bag.limit = max ∧ bag.items = Bag.keep max found) (ds : List Diagnostic) :
    (bag.addAll ds).limit = max ∧ (bag.addAll ds).items = Bag.keep max (found ++ ds) := by
  obtain ⟨rfl, h⟩ := h
  exact ⟨Bag.limit_addAll _ _, Bag.items_addAll found h ds⟩

theorem parsed_holds (max : Int) (f : File) : (parsed (fresh max) f).Holds max
    ((Parsed.ofFile f).lexical ++ (Parsed.ofFile f).syntactic) f.tree? none [] := by
  have hstart : (fresh max).bag.limit = max ∧ (fresh max).bag.items = Bag.keep max [] := ⟨rfl, Bag.keep_nil.symm⟩
  obtain ⟨hlimit, hitems⟩ := addAll_kept hstart ((Parsed.ofFile f).reported max.toNat 0)
  exact ⟨hlimit, hitems.trans (Bag.keep_reported _ _), rfl, rfl, rfl⟩

theorem built_holds {t : Tree} {c : Checked Program} {T : Table} (h : o.Holds max [] tree program asm)
    (hc : Typing.check t = .ok (c, T)) :
    ∃ o', built o t = .ok (o', c.value?) ∧ o'.Holds max c.problems tree program asm := by
  obtain ⟨hlimit, hitems⟩ := addAll_kept ⟨h.limit, h.items⟩ c.problems
  unfold built
  rw [hc]
  exact ⟨_, rfl, hlimit, hitems, h.tree, h.program, h.asm⟩

theorem foldl_kept (fs : List Func) (h : bag.limit = max ∧ bag.items = Bag.keep max found) :
    (fs.foldl (fun bag f => bag.addAll (Returns.check f)) bag).limit = max ∧
      (fs.foldl (fun bag f => bag.addAll (Returns.check f)) bag).items =
        Bag.keep max (found ++ fs.flatMap Returns.check) := by
  induction fs generalizing bag found with
  | nil => simpa using h
  | cons f fs ih => simpa using ih (addAll_kept h (Returns.check f))

theorem returned_holds (p : Program) (h : o.Holds max [] tree program asm) :
    (returned o p).Holds max (p.funcs.flatMap Returns.check) tree
      (if p.funcs.flatMap Returns.check = [] then some p else none) asm := by
  obtain ⟨hlimit, hitems⟩ := foldl_kept p.funcs ⟨h.limit, h.items⟩
  refine ⟨hlimit, hitems, h.tree, ?_, h.asm⟩
  set bag := p.funcs.foldl (fun bag f => bag.addAll (Returns.check f)) o.bag
  have herrors : bag.hasErrors = true ↔ p.funcs.flatMap Returns.check ≠ [] := by
    rw [Bag.hasErrors, hitems, Diagnostic.anyError_of_isA, List.nil_append, Ne, Bag.keep_eq_nil]
    intro d hd
    obtain ⟨g, -, hd⟩ := List.mem_flatMap.1 (Bag.mem_of_mem_keep hd)
    exact ⟨_, Returns.check_semantic g d hd⟩
  show (if bag.hasErrors = true then none else some p) = _
  split_ifs <;> simp_all

theorem emitted_holds {p : Program} {a : Arm.Assembly} (h : o.Holds max found tree program asm)
    (ha : Arm.Assembly.ofProgram p = .ok a) :
    ∃ o', emitted o p = .ok o' ∧ o'.Holds max found tree program a.text := by
  unfold emitted
  rw [ha]
  exact ⟨_, rfl, h.limit, h.items, h.tree, h.program, rfl⟩

end

theorem found_holds (stage : Stage) (max : Int) {f : File} (hlen : f.content.length < 2 ^ 32) :
    ∃ o, found background stage (fresh max) f = .ok o ∧
      o.Holds max (f.findings stage) f.tree? (f.accepted stage) (f.assembly stage) := by
  have h1 := parsed_holds max f
  have hlive {α : Type} {c : Checkpoint} {r : Except Failure α} : live background c r = r := rfl
  unfold found
  simp only [hlive, h1.tree]
  cases ht : f.tree? with
  | none =>
    have hnone := File.program?_of_no_tree ht
    rw [File.findings_no_tree ht, File.accepted_of_none hnone, File.assembly_of_none hnone]
    exact ⟨_, rfl, ht ▸ h1⟩
  | some t =>
    rw [File.problems_of_tree ht, ht] at h1
    obtain ⟨c, T, hc, hbounded⟩ := Typing.check_parsed hlen ht
    have hprogram := File.program?_of_tree ht hc
    dsimp only
    split_ifs with hparse
    · rw [hparse, File.findings_parse ht, File.assembly_early (.inl rfl), File.accepted, if_pos rfl]
      exact ⟨_, rfl, h1⟩
    obtain ⟨o2, hbuilt, h2⟩ := built_holds h1 hc
    rw [hbuilt]
    cases c with
    | bad d ds =>
      have hnone : f.program? = none := hprogram
      rw [File.findings_untyped ht hc hparse, File.accepted_of_none hnone, File.assembly_of_none hnone]
      exact ⟨_, rfl, h2⟩
    | ok p =>
      obtain ⟨hb, hsmall⟩ := hbounded p rfl
      obtain ⟨a, ha⟩ := Arm.Assembly.emitted_of_bounded hb hsmall
      replace hprogram : f.program? = if p.funcs.flatMap Returns.check = [] then some p else none := by
        rw [hprogram]
        simp [Checked.value?, Option.filter, List.isEmpty_iff]
      rw [File.findings_typed ht hc hparse, File.accepted, if_neg hparse]
      have h3 := returned_holds p h2
      rw [← hprogram] at h3
      change ∃ o, (if ((returned o2 p).program.isNone || decide (stage = .sema)) = true then .ok (returned o2 p)
        else emitted (returned o2 p) p) = .ok o ∧ _
      rw [h3.program]
      by_cases hreturns : p.funcs.flatMap Returns.check = []
      · rw [if_pos hreturns] at hprogram
        by_cases hsema : stage = .sema
        · rw [if_pos (by simp [hsema]), File.assembly_early (.inr hsema)]
          exact ⟨_, rfl, h3⟩
        · rw [if_neg (by simp [hprogram, hsema]), File.assembly_late hprogram ha (by simp [hparse, hsema])]
          exact emitted_holds h3 ha
      · rw [if_neg hreturns] at hprogram
        rw [if_pos (by simp [hprogram]), File.assembly_of_none hprogram]
        exact ⟨_, rfl, h3⟩

/-! ## The verdict -/

theorem exitCode_findings {f : File} {stage : Stage} {max : Int} {ds : List Diagnostic}
    (hlen : f.content.length < 2 ^ 32) (h : ds.Perm (Bag.keep max (f.findings stage))) :
    (f.tree? = none ∧ Diagnostic.exitCode ds = 100) ∨
      (f.tree? ≠ none ∧ Diagnostic.exitCode ds = if f.findings stage = [] then 0 else 200) := by
  have hnil : ds = [] ↔ f.findings stage = [] := by
    rw [← List.length_eq_zero_iff, h.length_eq, List.length_eq_zero_iff, Bag.keep_eq_nil]
  cases ht : f.tree? with
  | none =>
    obtain ⟨hne, hisA⟩ := File.findings_of_no_tree stage hlen ht
    refine .inl ⟨rfl, ?_⟩
    rw [Diagnostic.exitCode_of_isA fun d hd => (hisA d (Bag.mem_of_mem_keep (h.mem_iff.1 hd))).1,
      if_neg (hnil.not.2 hne)]
  | some t =>
    refine .inr ⟨by simp, ?_⟩
    rw [Diagnostic.exitCode_of_isA fun d hd =>
      ⟨_, (File.findings_found stage hlen ht d (Bag.mem_of_mem_keep (h.mem_iff.1 hd))).isA, rfl⟩]
    simp only [hnil]
    rfl

structure Outcome.Judges (f : File) (stage : Stage) (max : Int) (o : Outcome) : Prop where
  bag : StableSort (Bag.keep max (f.findings stage)) o.bag.items
  tree : o.tree = f.tree?
  program : o.program = f.accepted stage
  asm : o.asm = f.assembly stage
  unread : o.exitCode = 100 ↔ f.tree? = none
  rejected : o.exitCode = 200 ↔ stage ≠ .parse ∧ f.Rejected
  accepted : o.exitCode = 0 ↔ f.tree? ≠ none ∧ ¬ (stage ≠ .parse ∧ f.Rejected)
  emitted : o.asm ≠ [] → o.exitCode = 0

structure Outcome.Final (f : File) (stage : Stage) (max : Int) (o : Outcome) : Prop where
  bag : o.bag = Bag.sort { limit := max, items := Bag.keep max (f.findings stage) }
  tree : o.tree = f.tree?
  program : o.program = f.accepted stage
  asm : o.asm = f.assembly stage
  exitCode : o.exitCode = Diagnostic.exitCode o.bag.items

section
variable {f : File} {stage : Stage} {max : Int} {o : Outcome}

theorem Outcome.Holds.finish
    (h : o.Holds max (f.findings stage) f.tree? (f.accepted stage) (f.assembly stage)) :
    o.finish.Final f stage max where
  bag := by
    have hbag : o.bag = { limit := max, items := Bag.keep max (f.findings stage) } := by
      rw [← h.items, ← h.limit]
    show o.bag.sort = _
    rw [hbag]
  tree := h.tree
  program := h.program
  asm := h.asm
  exitCode := rfl

theorem Outcome.Final.stableSort (h : o.Final f stage max) :
    StableSort (Bag.keep max (f.findings stage)) o.bag.items := by
  rw [h.bag]
  exact Bag.sort_stable { limit := max, items := Bag.keep max (f.findings stage) }

theorem Outcome.Final.judges (h : o.Final f stage max) (hlen : f.content.length < 2 ^ 32) :
    o.Judges f stage max := by
  have hcode := exitCode_findings hlen h.stableSort.perm
  rw [← h.exitCode] at hcode
  cases ht : f.tree? with
  | none =>
    have hcode : o.exitCode = 100 := by simpa [ht] using hcode
    have hrejected : ¬ f.Rejected := by
      rintro ⟨t, ht', -⟩
      rw [ht] at ht'
      cases ht'
    refine ⟨h.stableSort, h.tree, h.program, h.asm, ?_, ?_, ?_, fun hasm => ?_⟩
    · simp [hcode, ht]
    · simp [hcode, hrejected]
    · simp [hcode, ht]
    · exact absurd ht (File.findings_of_assembly (h.asm ▸ hasm)).1
  | some t =>
    have hcode : o.exitCode = if f.findings stage = [] then 0 else 200 := by simpa [ht] using hcode
    have hrejected := File.findings_of_tree stage ht
    refine ⟨h.stableSort, h.tree, h.program, h.asm, ?_, ?_, ?_, fun hasm => ?_⟩
    · rw [hcode]
      split_ifs <;> simp [ht]
    · rw [hcode, ← hrejected]
      split_ifs with hnil <;> simp [hnil]
    · rw [hcode, ← hrejected]
      split_ifs with hnil <;> simp [hnil, ht]
    · rw [hcode, if_pos (File.findings_of_assembly (h.asm ▸ hasm)).2]

end

theorem run_final (opts : Options) {files : FileSet} {id : UInt32} {f : File} (w : World)
    (hf : files.get? id = some f) (hlen : f.content.length < 2 ^ 32) (hc : opts.cache = none) :
    ∃ o w', run background opts files id w = (.ok o, w') ∧ o.Final f opts.stage.resolve opts.max := by
  obtain ⟨n, t, t', hrun⟩ := file_wraps background opts f w
  obtain ⟨t2, hcache⟩ := throughCache_plain background n f (by rw [hc, ite_self]) { w with trace := t }
  obtain ⟨o, hfound, ho⟩ := found_holds opts.stage.resolve opts.max hlen
  simp only [hcache, hfound] at hrun
  rw [run, hf]
  exact ⟨_, _, hrun, ho.finish⟩

/-- **The verdict is a fact about the file.**  Whatever the limit and the stage, the outcome lists the first
    of the problems that the limit leaves, in the order of reports, and says exactly which phase refuses the
    file.  Another limit changes neither the exit code nor the tree, the program and the assembly, and
    stopping before code generation changes neither the exit code nor the list. -/
theorem run_verdict (opts : Options) (files : FileSet) (id : UInt32) (f : File) (w : World)
    (hf : files.get? id = some f) (hlen : f.content.length < 2 ^ 32) (hc : opts.cache = none) :
    ∃ o w', run background opts files id w = (.ok o, w') ∧ o.Judges f opts.stage.resolve opts.max ∧
      (∀ max, ∃ o' w'', run background { opts with max } files id w = (.ok o', w'') ∧
        o'.exitCode = o.exitCode ∧ o'.tree = o.tree ∧ o'.program = o.program ∧ o'.asm = o.asm) ∧
      (opts.stage = .sema → ∃ o' w'', run background { opts with stage := .codegen } files id w = (.ok o', w'') ∧
        o'.exitCode = o.exitCode ∧ o'.bag = o.bag) := by
  obtain ⟨o, w', hrun, hfinal⟩ := run_final opts w hf hlen hc
  refine ⟨o, w', hrun, hfinal.judges hlen, fun max => ?_, fun hstage => ?_⟩
  · obtain ⟨o', w'', hrun', hfinal'⟩ := run_final { opts with max } w hf hlen hc
    refine ⟨o', w'', hrun', ?_, hfinal'.tree.trans hfinal.tree.symm, hfinal'.program.trans hfinal.program.symm,
      hfinal'.asm.trans hfinal.asm.symm⟩
    have h := exitCode_findings hlen hfinal.stableSort.perm
    have h' := exitCode_findings hlen hfinal'.stableSort.perm
    rw [← hfinal.exitCode] at h
    rw [← hfinal'.exitCode] at h'
    grind
  · obtain ⟨o', w'', hrun', hfinal'⟩ := run_final { opts with stage := .codegen } w hf hlen hc
    have hsame : f.findings Stage.codegen.resolve = f.findings Stage.sema.resolve :=
      File.findings_past_parse (by decide) (by decide)
    have hbag : o'.bag = o.bag := by
      rw [hfinal'.bag, hfinal.bag, hstage, ← hsame]
    exact ⟨o', w'', hrun', by rw [hfinal'.exitCode, hfinal.exitCode, hbag], hbag⟩

theorem run_verdict_mistyped :
    ∃ files f, (FileSet.addVirtual {} (lit "f.wacc") (lit "begin int x = true; bool b = 'c'; x = y end")).2 = files ∧
      files.get? 0 = some f ∧ (f.findings .sema).length = 3 ∧
      ∃ o w', run background { max := 2, stage := .sema } files 0 {} = (.ok o, w') ∧ o.Judges f .sema 2 := by
  refine ⟨_, _, rfl, rfl, by decide +kernel, ?_⟩
  obtain ⟨o, w', hrun, hjudges, -⟩ := run_verdict { max := 2, stage := .sema }
    (FileSet.addVirtual {} (lit "f.wacc") (lit "begin int x = true; bool b = 'c'; x = y end")).2 0 _ {} rfl
    (by decide) rfl
  exact ⟨o, w', hrun, hjudges⟩

end Compile

end Wacc
