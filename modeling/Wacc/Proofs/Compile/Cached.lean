/-
  Compilation through a cache.
-/
import Wacc.Proofs.Cache.Entries
import Wacc.Proofs.Compile.Content

namespace Wacc.Compile

open Step (Gives)

variable {α : Type}

/-! ## Accepted programs -/

structure Outcome.Accepts (max : Int) (p : Program) (a : Arm.Assembly) (o : Outcome) : Prop where
  program : o.program = some p
  bag : o.bag = { limit := max }
  asm : o.asm = a.text
  runtime : o.runtime = a.runtime.map Arm.Routine.name

section
variable {ctx : Context} {max : Int} {f : File} {t : Tree} {p : Program} {a : Arm.Assembly} {T : Table} {o : Outcome}

theorem live_eq_ok {c : Checkpoint} {r : Except Failure α} {x : α} (h : live ctx c r = .ok x) : r = .ok x := by
  unfold live at h
  split_ifs at h
  exact h

theorem found_no_tree (ctx : Context) (max : Int) (ht : f.tree? = none) :
    found ctx .codegen (fresh max) f = live ctx .parse (.ok (parsed (fresh max) f)) := by
  unfold found
  dsimp only
  rw [(parsed_holds max f).tree, ht]

theorem found_tree (ctx : Context) (max : Int) (ht : f.tree? = some t) :
    found ctx .codegen (fresh max) f = live ctx .parse (live ctx .build
      (built (parsed (fresh max) f) t >>= fun (o, program) =>
        match program with
        | none => .ok o
        | some p =>
          if (returned o p).program.isNone then .ok (returned o p)
          else live ctx .codegen (emitted (returned o p) p))) := by
  have hsema : decide (Stage.codegen = Stage.sema) = false := by decide
  unfold found
  simp only [(parsed_holds max f).tree, ht, hsema, Bool.or_false]
  exact congrArg (live ctx .parse) (if_neg (by decide))

theorem found_typed (ctx : Context) (max : Int) (ht : f.tree? = some t) (hc : Typing.check t = .ok (.ok p, T)) :
    ∃ o : Outcome, o.Holds max (p.funcs.flatMap Returns.check) f.tree?
        (if p.funcs.flatMap Returns.check = [] then some p else none) [] ∧
      found ctx .codegen (fresh max) f = live ctx .parse (live ctx .build
        (if o.program.isNone then .ok o else live ctx .codegen (emitted o p))) := by
  have hparsed := parsed_holds max f
  rw [File.problems_of_tree ht] at hparsed
  obtain ⟨o, hbuilt, ho⟩ := built_holds hparsed hc
  refine ⟨returned o p, returned_holds p ho, ?_⟩
  rw [found_tree ctx max ht, hbuilt]
  rfl

theorem emitted_accepts {tree : Option Tree} (ho : o.Holds max [] tree (some p) [])
    (ha : Arm.Assembly.ofProgram p = .ok a) : ∃ o', emitted o p = .ok o' ∧ o'.Accepts max p a := by
  have hbag : o.bag = { limit := max } := by
    have hitems : o.bag = { limit := max, items := Bag.keep max [] } := by rw [← ho.items, ← ho.limit]
    rw [hitems, Bag.keep_nil]
  unfold emitted
  rw [ha]
  exact ⟨_, rfl, ho.program, hbag, rfl, rfl⟩

theorem found_accepts (h : found ctx .codegen (fresh max) f = .ok o) (hp : o.program ≠ none) :
    ∃ p a, f.program? = some p ∧ Arm.Assembly.ofProgram p = .ok a ∧ o.Accepts max p a := by
  have hparsed := (parsed_holds max f).program
  cases ht : f.tree? with
  | none =>
    rw [found_no_tree ctx max ht] at h
    cases live_eq_ok h
    exact absurd hparsed hp
  | some t =>
    have htree := found_tree ctx max ht
    rw [h, built] at htree
    cases hc : Typing.check t with
    | error e =>
      rw [hc] at htree
      cases live_eq_ok (live_eq_ok htree.symm)
    | ok r =>
      obtain ⟨c, T⟩ := r
      cases c with
      | bad d ds =>
        rw [hc] at htree
        cases live_eq_ok (live_eq_ok htree.symm)
        exact absurd hparsed hp
      | ok p =>
        obtain ⟨o1, ho1, hfound⟩ := found_typed ctx max ht hc
        rw [h] at hfound
        replace hfound := live_eq_ok (live_eq_ok hfound.symm)
        by_cases hreturns : p.funcs.flatMap Returns.check = []
        · rw [hreturns, if_pos rfl] at ho1
          rw [ho1.program, if_neg (by simp)] at hfound
          replace hfound := live_eq_ok hfound
          cases ha : Arm.Assembly.ofProgram p with
          | error e =>
            rw [emitted, ha] at hfound
            cases hfound
          | ok a =>
            obtain ⟨o', ho', haccepts⟩ := emitted_accepts ho1 ha
            cases ho'.symm.trans hfound
            refine ⟨p, a, ?_, ha, haccepts⟩
            rw [File.program?_of_tree ht hc]
            simp [Checked.value?, Option.filter, hreturns]
        · rw [if_neg hreturns] at ho1
          rw [ho1.program, if_pos (by simp)] at hfound
          cases hfound
          exact absurd ho1.program hp

theorem found_of_program (max : Int) (hp : f.program? = some p) (ha : Arm.Assembly.ofProgram p = .ok a) :
    ∃ o, found background .codegen (fresh max) f = .ok o ∧ o.Accepts max p a := by
  obtain ⟨t, T, ht, hc, hreturns⟩ := File.program?_eq_some hp
  obtain ⟨o, ho, hfound⟩ := found_typed background max ht hc
  change p.funcs.flatMap Returns.check = [] at hreturns
  rw [hreturns, if_pos rfl] at ho
  rw [ho.program] at hfound
  obtain ⟨o', ho', haccepts⟩ := emitted_accepts ho ha
  exact ⟨o', hfound.trans ho', haccepts⟩

end

/-! ## Through the cache -/

section
variable {opts : Options} {f : File} {c : Cache} {key : UInt64} {w : World}

def Outcome.entry (key : UInt64) (o : Outcome) : Cached :=
  { schema := Cache.schema, key, asm := o.asm, runtime := o.runtime }

theorem lookup_hit {e : Cached} (root : Nat) (h : c.get w.disk key = .ok (some e)) :
    ∃ t, lookup root c key w = (.ok (some e), { w with trace := t }) := by
  unfold lookup
  rw [Step.world_bind, h]
  exact (point_quiet.gives fun _ => .pure (some e)) w

theorem lookup_miss (root : Nat) (h : ∀ e, c.get w.disk key ≠ .ok (some e)) :
    ∃ t, lookup root c key w = (.ok none, { w with trace := t }) := by
  unfold lookup
  rw [Step.world_bind]
  cases hget : c.get w.disk key with
  | error p => exact (point_quiet.gives fun _ => .pure none) w
  | ok e? =>
    cases e? with
    | none => exact Gives.pure none w
    | some e => exact absurd hget (h e)

theorem remember_eq (root : Nat) (c : Cache) (key : UInt64) (o : Outcome) (w : World) :
    ∃ t d, remember root c key o w = (.ok (), { trace := t, disk := d }) ∧
      (d = w.disk ∨ c.put w.disk key (o.entry key) = .ok d) := by
  unfold remember
  rw [Step.world_bind]
  generalize hput : c.put w.disk key _ = r
  cases r with
  | error p => exact ⟨_, w.disk, rfl, .inl rfl⟩
  | ok d => exact ⟨w.trace, d, rfl, .inr hput⟩

theorem throughCache_hit {e : Cached} (ctx : Context) (root : Nat) (hs : opts.stage.resolve = .codegen)
    (hc : opts.cache = some c)
    (hget : c.get w.disk (Cache.key Stage.codegen.number f.content) = .ok (some e)) :
    ∃ t, throughCache ctx root opts f w =
      (.ok { fresh opts.max with asm := e.asm, runtime := e.runtime, cached := true }, { w with trace := t }) := by
  unfold throughCache
  dsimp only
  rw [hs, if_pos rfl, hc]
  obtain ⟨t, ht⟩ := lookup_hit root hget
  exact ⟨t, Step.bind_ok ht⟩

theorem throughCache_miss (ctx : Context) (root : Nat) (hs : opts.stage.resolve = .codegen) (hc : opts.cache = some c)
    (hget : ∀ e, c.get w.disk (Cache.key Stage.codegen.number f.content) ≠ .ok (some e)) :
    ∃ t d, throughCache ctx root opts f w =
        ((found ctx .codegen (fresh opts.max) f).map Outcome.finish, { trace := t, disk := d }) ∧
      (d = w.disk ∨ ∃ o, found ctx .codegen (fresh opts.max) f = .ok o ∧ o.program ≠ none ∧
        c.put w.disk (Cache.key Stage.codegen.number f.content)
          (o.entry (Cache.key Stage.codegen.number f.content)) = .ok d) := by
  unfold throughCache
  dsimp only
  rw [hs, if_pos rfl, hc]
  obtain ⟨t, ht⟩ := lookup_miss root hget
  dsimp only
  rw [Step.bind_ok ht]
  dsimp only
  obtain ⟨t', ht'⟩ := phases_gives ctx root .codegen (fresh opts.max) f { w with trace := t }
  cases hfound : found ctx .codegen (fresh opts.max) f with
  | error e =>
    rw [hfound] at ht'
    exact ⟨t', w.disk, Step.bind_error ht', .inl rfl⟩
  | ok o =>
    rw [hfound] at ht'
    change phases ctx root .codegen { bag := { limit := opts.max } } f _ = _ at ht'
    rw [Step.bind_ok ht']
    by_cases hp : o.program.isSome = true
    · obtain ⟨t2, d, hremember, hd⟩ := remember_eq root c (Cache.key Stage.codegen.number f.content) o ⟨t', w.disk⟩
      rw [if_pos hp, Step.bind_ok hremember]
      refine ⟨t2, d, rfl, hd.imp id fun hput => ⟨o, rfl, ?_, hput⟩⟩
      exact Option.isSome_iff_ne_none.1 hp
    · rw [if_neg hp]
      exact ⟨t', w.disk, rfl, .inl rfl⟩

end

end Wacc.Compile
