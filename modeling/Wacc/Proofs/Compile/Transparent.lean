/-
  A cache does not change what compilations say.

  The entries of a cache that are of this form and under their own keys come from accepted programs; every
  use of the cache keeps it so.  As the key of an entry is the digest of all that the assembly depends on, an
  entry that is found is the assembly that the phases would have generated.
-/
import Wacc.Proofs.Compile.Cached

namespace Wacc.Compile

/-! ## Entries of accepted programs -/

def Compiled (s : Text) (e : Cached) : Prop :=
  ∃ (f : File) (p : Program) (a : Arm.Assembly),
    f.content = s ∧ f.program? = some p ∧ Arm.Assembly.ofProgram p = .ok a ∧
    e = { schema := Cache.schema, key := Cache.key Stage.codegen.number s, asm := a.text,
          runtime := a.runtime.map Arm.Routine.name }

def Genuine (sources : Set Text) (e : Cached) : Prop := ∃ s ∈ sources, Compiled s e

section
variable {ctx : Context} {opts : Options} {files : FileSet} {id : UInt32} {f : File} {c : Cache} {w : World}
  {sources : Set Text}

theorem compiled_entry {max : Int} {o : Outcome} (h : found ctx .codegen (fresh max) f = .ok o)
    (hp : o.program ≠ none) : Compiled f.content (o.entry (Cache.key Stage.codegen.number f.content)) := by
  obtain ⟨p, a, hprogram, ha, haccepts⟩ := found_accepts h hp
  refine ⟨f, p, a, rfl, hprogram, ha, ?_⟩
  rw [Outcome.entry, haccepts.asm, haccepts.runtime]

theorem Compiled.found {e : Cached} (h : Compiled f.content e) (max : Int) :
    ∃ o, Compile.found background .codegen (fresh max) f = .ok o ∧ o.bag = { limit := max } ∧ o.asm = e.asm ∧
      o.runtime = e.runtime := by
  obtain ⟨g, p, a, hcontent, hp, ha, rfl⟩ := h
  obtain ⟨q, hq, hsame⟩ := File.assembly_of_content hcontent hp
  obtain ⟨o, ho, haccepts⟩ := found_of_program max hq (hsame.trans ha)
  exact ⟨o, ho, haccepts.bag, haccepts.asm, haccepts.runtime⟩

theorem Compiled.eq_entry {e : Cached} (h : Compiled f.content e) (max : Int) :
    ∃ o, Compile.found background .codegen (fresh max) f = .ok o ∧
      e = o.entry (Cache.key Stage.codegen.number f.content) := by
  obtain ⟨o, ho, -, hasm, hruntime⟩ := h.found max
  obtain ⟨g, p, a, -, -, -, rfl⟩ := h
  exact ⟨o, ho, by rw [Outcome.entry, hasm, hruntime]⟩

theorem Compiled.program {e : Cached} (h : Compiled f.content e) : f.program? ≠ none := by
  obtain ⟨g, p, a, hcontent, hp, -⟩ := h
  obtain ⟨q, hq, -⟩ := File.assembly_of_content hcontent hp
  rw [hq]
  nofun

/-! ## Runs -/

theorem run_wraps (ctx : Context) (opts : Options) (w : World) (hf : files.get? id = some f) :
    ∃ root t, (run ctx opts files id w).1 = (throughCache ctx root opts f { w with trace := t }).1 ∧
      (run ctx opts files id w).2.disk = (throughCache ctx root opts f { w with trace := t }).2.disk := by
  obtain ⟨root, t, t', h⟩ := file_wraps ctx opts f w
  have hrun : run ctx opts files id w = file ctx opts f w := by
    unfold run
    rw [hf]
    rfl
  exact ⟨root, t, by rw [hrun, h], by rw [hrun, h]⟩

theorem run_plain (ctx : Context) (opts : Options) (w : World) (hf : files.get? id = some f) (hc : opts.cache = none) :
    (run ctx opts files id w).1 = (found ctx opts.stage.resolve (fresh opts.max) f).map Outcome.finish := by
  obtain ⟨root, t, hr, -⟩ := run_wraps ctx opts w hf
  have hplain : (if opts.stage.resolve = .codegen then opts.cache else none) = none := by rw [hc, ite_self]
  obtain ⟨t', h⟩ := throughCache_plain ctx root f hplain { w with trace := t }
  rw [hr, h]

theorem run_cached (ctx : Context) (opts : Options) (w : World) (hf : files.get? id = some f)
    (hs : opts.stage.resolve = .codegen) (hc : opts.cache = some c) :
    (∃ e, c.get w.disk (Cache.key Stage.codegen.number f.content) = .ok (some e) ∧
      (run ctx opts files id w).1 =
        .ok { fresh opts.max with asm := e.asm, runtime := e.runtime, cached := true }) ∨
    (run ctx opts files id w).1 = (found ctx .codegen (fresh opts.max) f).map Outcome.finish := by
  obtain ⟨root, t, hr, -⟩ := run_wraps ctx opts w hf
  by_cases hget : ∃ e, c.get w.disk (Cache.key Stage.codegen.number f.content) = .ok (some e)
  · obtain ⟨e, hget⟩ := hget
    obtain ⟨t', h⟩ := throughCache_hit (w := { w with trace := t }) ctx root hs hc hget
    exact .inl ⟨e, hget, by rw [hr, h]⟩
  · obtain ⟨t', d, h, -⟩ := throughCache_miss (w := { w with trace := t }) ctx root hs hc (not_exists.1 hget)
    exact .inr (by rw [hr, h])

theorem run_disk (ctx : Context) (opts : Options) (files : FileSet) (id : UInt32) (w : World)
    (hc : opts.cache = some c) :
    (run ctx opts files id w).2.disk = w.disk ∨
      ∃ f o, files.get? id = some f ∧ found ctx .codegen (fresh opts.max) f = .ok o ∧ o.program ≠ none ∧
        c.put w.disk (Cache.key Stage.codegen.number f.content)
          (o.entry (Cache.key Stage.codegen.number f.content)) = .ok (run ctx opts files id w).2.disk := by
  cases hf : files.get? id with
  | none =>
    left
    unfold run
    rw [hf]
  | some f =>
    obtain ⟨root, t, -, hd⟩ := run_wraps ctx opts w hf
    rw [hd]
    by_cases hs : opts.stage.resolve = .codegen
    · by_cases hget : ∃ e, c.get w.disk (Cache.key Stage.codegen.number f.content) = .ok (some e)
      · obtain ⟨e, hget⟩ := hget
        obtain ⟨t', h⟩ := throughCache_hit (w := { w with trace := t }) ctx root hs hc hget
        rw [h]
        exact .inl rfl
      · obtain ⟨t', d, h, hput⟩ := throughCache_miss (w := { w with trace := t }) ctx root hs hc (not_exists.1 hget)
        rw [h]
        exact hput.imp_right fun ⟨o, ho, hp, hput⟩ => ⟨f, o, rfl, ho, hp, hput⟩
    · obtain ⟨t', h⟩ := throughCache_plain ctx root f (if_neg hs) { w with trace := t }
      rw [h]
      exact .inl rfl

end

/-! ## Uses -/

inductive Use where
  | compile (ctx : Context) (opts : Options) (files : FileSet) (id : UInt32)
  | drop

namespace Use

def apply (c : Cache) (w : World) : Use → World
  | compile ctx opts files id => (run ctx { opts with cache := some c } files id w).2
  | drop =>
    match c.drop w.disk with
    | .ok d => { w with disk := d }
    | .error _ => w

def Reads (sources : Set Text) : Use → Prop
  | compile _ _ files id => ∀ f, files.get? id = some f → f.content ∈ sources
  | drop => True

variable {c : Cache} {sources : Set Text} {w : World}

theorem apply_holds {u : Use} (hpack : ∀ e, Genuine sources e → Pack.decode? (Pack.encode e) = some e)
    (hu : u.Reads sources) (h : c.Holds (Genuine sources) w.disk) : c.Holds (Genuine sources) (u.apply c w).disk := by
  cases u with
  | compile ctx opts files id =>
    obtain hd | ⟨f, o, hf, ho, hp, hput⟩ := run_disk ctx { opts with cache := some c } files id w rfl
    · rw [apply, hd]
      exact h
    · have he : Genuine sources (o.entry (Cache.key Stage.codegen.number f.content)) :=
        ⟨f.content, hu f hf, compiled_entry ho hp⟩
      exact h.put (hpack _ he) he hput
  | drop =>
    rw [apply]
    cases hdrop : c.drop w.disk with
    | error => exact h
    | ok d => exact h.drop hdrop

theorem run_holds {uses : List Use} (hpack : ∀ e, Genuine sources e → Pack.decode? (Pack.encode e) = some e)
    (huses : ∀ u ∈ uses, u.Reads sources) (h : c.Holds (Genuine sources) w.disk) :
    c.Holds (Genuine sources) (uses.foldl (apply c) w).disk := by
  induction uses generalizing w with
  | nil => exact h
  | cons u uses ih =>
    obtain ⟨hu, huses⟩ := List.forall_mem_cons.1 huses
    exact ih huses (apply_holds hpack hu h)

end Use

/-! ## Transparency -/

/-- What a compilation says: the assembly with its routines, the exit code and the problems. -/
def Outcome.report (o : Outcome) : Text × List Text × Nat × Bag := (o.asm, o.runtime, o.exitCode, o.bag)

section
variable {c : Cache} {sources : Set Text} {w : World} {f : File} {e : Cached}

theorem compiled_of_get (hdigest : sources.InjOn (Cache.key Stage.codegen.number))
    (h : c.Holds (Genuine sources) w.disk) (hf : f.content ∈ sources)
    (hget : c.get w.disk (Cache.key Stage.codegen.number f.content) = .ok (some e)) : Compiled f.content e := by
  obtain ⟨⟨s, hs, hcompiled⟩, hkey⟩ := h.get hget
  have hsource : Cache.key Stage.codegen.number s = e.key := by
    obtain ⟨g, p, a, -, -, -, rfl⟩ := hcompiled
    rfl
  rwa [← hdigest hs hf (hsource.trans hkey)]

theorem Compiled.report (h : Compiled f.content e) (max : Int) :
    ((Compile.found background .codegen (fresh max) f).map Outcome.finish).map Outcome.report =
      .ok (Outcome.report { fresh max with asm := e.asm, runtime := e.runtime, cached := true }) := by
  obtain ⟨o, ho, hbag, hasm, hruntime⟩ := h.found max
  have hsort : Bag.sort { limit := max } = { limit := max } := by simp [Bag.sort]
  rw [ho]
  simp only [Except.map, Outcome.report, Outcome.finish, hasm, hruntime, hbag, hsort]
  rfl

theorem run_report {opts : Options} {files : FileSet} {id : UInt32}
    (hdigest : sources.InjOn (Cache.key Stage.codegen.number)) (h : c.Holds (Genuine sources) w.disk)
    (hs : opts.stage.resolve = .codegen) (hreads : ∀ f, files.get? id = some f → f.content ∈ sources) (w' : World) :
    (run background { opts with cache := some c } files id w).1.map Outcome.report =
      (run background { opts with cache := none } files id w').1.map Outcome.report := by
  cases hf : files.get? id with
  | none =>
    unfold run
    rw [hf]
  | some f =>
    have hplain := run_plain background { opts with cache := none } w' hf rfl
    change _ = (Compile.found background opts.stage.resolve (fresh opts.max) f).map _ at hplain
    rw [hplain, hs]
    obtain ⟨e, hget, hrun⟩ | hrun := run_cached background { opts with cache := some c } w hf hs rfl
    · rw [hrun, (compiled_of_get hdigest h (hreads f hf) hget).report]
      rfl
    · rw [hrun]

theorem run_ends {opts : Options} {files : FileSet} {id : UInt32}
    (hdigest : sources.InjOn (Cache.key Stage.codegen.number)) (h : c.Holds (Genuine sources) w.disk)
    (hs : opts.stage.resolve = .codegen) (hf : files.get? id = some f) (hsource : f.content ∈ sources)
    (hlen : f.content.length < 2 ^ 32) :
    ∃ o w', run background { opts with cache := some c } files id w = (.ok o, w') := by
  have hreads : ∀ g, files.get? id = some g → g.content ∈ sources := fun g hg => by
    cases hf.symm.trans hg
    exact hsource
  have hreport := run_report hdigest h hs hreads {}
  obtain ⟨o, w', hplain, -⟩ := run_final { opts with cache := none } {} hf hlen rfl
  rw [hplain] at hreport
  cases hrun : run background { opts with cache := some c } files id w with
  | mk r w'' =>
    cases r with
    | error e =>
      rw [hrun] at hreport
      cases hreport
    | ok o => exact ⟨o, w'', rfl⟩

theorem get_of_rejected (hdigest : sources.InjOn (Cache.key Stage.codegen.number))
    (h : c.Holds (Genuine sources) w.disk) (hf : f.content ∈ sources) (hnone : f.program? = none) (e : Cached) :
    c.get w.disk (Cache.key Stage.codegen.number f.content) ≠ .ok (some e) :=
  fun hget => (compiled_of_get hdigest h hf hget).program hnone

theorem run_disk_of_rejected (ctx : Context) (opts : Options) {files : FileSet} {id : UInt32} (w : World)
    (hf : files.get? id = some f) (hnone : f.program? = none) :
    (run ctx { opts with cache := some c } files id w).2.disk = w.disk := by
  obtain hd | ⟨g, o, hg, ho, hp, -⟩ := run_disk ctx { opts with cache := some c } files id w rfl
  · exact hd
  · cases hf.symm.trans hg
    obtain ⟨p, a, hprogram, -⟩ := found_accepts ho hp
    exact absurd (hnone.symm.trans hprogram) nofun

end

/-- **A cache does not change what compilations say.**  At the start, the entries that can be read, have this form
    and are under their own keys come from compilations; anything else may be in the directory.  Then
    after any compilations with the cache and removals of all entries, a compilation to the end gives the
    assembly, the routines, the exit code and the problems that it gives without a cache, and it does end.
    A file that is rejected is neither found in the cache nor put there.

    The digests of the sources differ, and the entries that are written can be read. -/
theorem run_transparent (c : Cache) (sources : Set Text) (w₀ : World) (uses : List Use)
    (hdigest : sources.InjOn (Cache.key Stage.codegen.number))
    (hpack : ∀ e, Genuine sources e → Pack.decode? (Pack.encode e) = some e)
    (hstart : c.Holds (Genuine sources) w₀.disk) (huses : ∀ u ∈ uses, u.Reads sources) :
    (∀ (opts : Options) (files : FileSet) (id : UInt32) (w' : World), opts.stage.resolve = .codegen →
      (∀ f, files.get? id = some f → f.content ∈ sources) →
        (run background { opts with cache := some c } files id (uses.foldl (Use.apply c) w₀)).1.map Outcome.report =
          (run background { opts with cache := none } files id w').1.map Outcome.report) ∧
    (∀ (opts : Options) (files : FileSet) (id : UInt32) (f : File), opts.stage.resolve = .codegen →
      files.get? id = some f → f.content ∈ sources → f.content.length < 2 ^ 32 →
        ∃ o w', run background { opts with cache := some c } files id (uses.foldl (Use.apply c) w₀) = (.ok o, w')) ∧
    (∀ f : File, f.content ∈ sources → f.program? = none →
      (∀ e, c.get (uses.foldl (Use.apply c) w₀).disk (Cache.key Stage.codegen.number f.content) ≠ .ok (some e)) ∧
      ∀ (ctx : Context) (opts : Options) (files : FileSet) (id : UInt32), files.get? id = some f →
        ((Use.compile ctx opts files id).apply c (uses.foldl (Use.apply c) w₀)).disk =
          (uses.foldl (Use.apply c) w₀).disk) := by
  have h := Use.run_holds hpack huses hstart
  exact ⟨fun opts files id w' hs hreads => run_report hdigest h hs hreads w',
    fun opts files id f hs hf hsource hlen => run_ends hdigest h hs hf hsource hlen,
    fun f hsource hnone => ⟨get_of_rejected hdigest h hsource hnone, fun ctx opts files id hf =>
      run_disk_of_rejected ctx opts _ hf hnone⟩⟩

/-! ### A cache with a corrupt entry -/

def accepted : File := { id := 0, path := lit "f.wacc", content := lit "begin println 1 end", flags := File.virtual }

def mistyped : File := { id := 1, path := lit "g.wacc", content := lit "begin int x = true end", flags := File.virtual }

def corrupted : World :=
  { disk.entries := [([lit "c"], .dir), ([lit "c", lit "asm"], .dir),
      ([lit "c", lit "asm", hex 16 (Cache.key Stage.codegen.number accepted.content).toNat ++ lit ".mp"],
        .file (lit "junk"))] }

def session : List Use :=
  [.compile background {} ⟨#[accepted, mistyped]⟩ 0, .compile background {} ⟨#[accepted, mistyped]⟩ 1, .drop,
    .compile background {} ⟨#[accepted, mistyped]⟩ 0]

theorem corrupted_holds (P : Cached → Prop) : (Cache.mk (lit "/c")).Holds P corrupted.disk := by
  intro key t e hentry hdecode
  have hjunk : t = lit "junk" := by
    unfold Disk.entry? at hentry
    split_ifs at hentry
    · cases hentry
    · obtain ⟨l1, l2, hl, -⟩ := List.lookup_eq_some_iff.1 hentry
      have hmem : (_, Disk.Entry.file t) ∈ corrupted.disk.entries := hl ▸ List.mem_append_right _ List.mem_cons_self
      obtain ⟨-, hjunk⟩ : _ ∧ t = lit "junk" := by simpa [corrupted] using hmem
      exact hjunk
  have hnone : Pack.decode? (lit "junk") = none := by decide +kernel
  rw [hjunk, hnone] at hdecode
  cases hdecode

theorem session_digest : Set.InjOn (Cache.key Stage.codegen.number) {accepted.content, mistyped.content} := by
  have hne : Cache.key Stage.codegen.number accepted.content ≠ Cache.key Stage.codegen.number mistyped.content := by
    decide +kernel
  rintro s (rfl | rfl) t (rfl | rfl) h
  · rfl
  · exact absurd h hne
  · exact absurd h.symm hne
  · rfl

theorem session_pack (e : Cached) (h : Genuine {accepted.content, mistyped.content} e) :
    Pack.decode? (Pack.encode e) = some e := by
  obtain ⟨s, rfl | rfl, hcompiled⟩ := h
  · obtain ⟨o, ho, rfl⟩ := hcompiled.eq_entry 0
    -- the entry is evaluated as one closed term
    have hdecode : (found background .codegen (fresh 0) accepted).map (fun o =>
        let e := o.entry (Cache.key Stage.codegen.number accepted.content)
        decide (Pack.decode? (Pack.encode e) = some e)) = .ok true := by decide +kernel
    rw [ho] at hdecode
    exact of_decide_eq_true (Except.ok.inj hdecode)
  · exact absurd (by decide +kernel) hcompiled.program

theorem run_transparent_corrupted :
    (Cache.mk (lit "/c")).get corrupted.disk (Cache.key Stage.codegen.number accepted.content) =
      .error (.corrupt (Cache.key Stage.codegen.number accepted.content)) ∧
    (run background { cache := some ⟨lit "/c"⟩ } ⟨#[accepted, mistyped]⟩ 0
      (session.foldl (Use.apply ⟨lit "/c"⟩) corrupted)).1.map Outcome.cached = .ok true ∧
    (run background { cache := some ⟨lit "/c"⟩ } ⟨#[accepted, mistyped]⟩ 0
        (session.foldl (Use.apply ⟨lit "/c"⟩) corrupted)).1.map Outcome.report =
      (run background {} ⟨#[accepted, mistyped]⟩ 0 {}).1.map Outcome.report ∧
    ∀ e, (Cache.mk (lit "/c")).get (session.foldl (Use.apply ⟨lit "/c"⟩) corrupted).disk
      (Cache.key Stage.codegen.number mistyped.content) ≠ .ok (some e) := by
  have huses : ∀ u ∈ session, u.Reads {accepted.content, mistyped.content} := by
    simp [session, Use.Reads, FileSet.get?]
  obtain ⟨hreport, -, hrejected⟩ := run_transparent ⟨lit "/c"⟩ {accepted.content, mistyped.content} corrupted session
    session_digest session_pack (corrupted_holds _) huses
  refine ⟨by decide +kernel, by decide +kernel, hreport {} _ 0 {} rfl (by simp [FileSet.get?]), ?_⟩
  exact (hrejected mistyped (.inr rfl) (by decide +kernel)).1

end Wacc.Compile
