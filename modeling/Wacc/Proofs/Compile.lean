/-
  Compilation does not fail.

  Every tree that is read has the shape of a program, every such tree is typed without a fault, and
  code is generated for every well-typed program.  So a compilation that is not cancelled, of a file
  that exists, ends with an outcome whatever the text of the file is.
-/
import Wacc.Compile
import Wacc.Proofs.Tree.Shaped
import Wacc.Proofs.Arm.Program
import Wacc.Proofs.Returns

namespace Wacc

variable {p : Program} {f : File}

theorem Arm.Assembly.emitted_of_bounded {n : Nat} (hp : Typing.Bounded n p) (hn : n < 2 ^ 32) :
    ∃ a, Arm.Assembly.ofProgram p = .ok a := by
  obtain ⟨_, out, s, hrun, -⟩ := Arm.Gen.program_closed hp hn
  rw [Arm.Assembly.ofProgram, hrun]
  exact ⟨_, rfl⟩

theorem Typing.check_parsed {t : Tree} (hlen : f.content.length < 2 ^ 32) (ht : (Parsed.ofFile f).tree? 0 = some t) :
    ∃ c T, Typing.check t = .ok (c, T) ∧ ∀ p, c.value? = some p → Typing.Bounded t.weight p ∧
      t.weight < 2 ^ 32 := by
  obtain ⟨hshape, hweight⟩ := Parsed.tree_shape ht
  have hsmall : t.weight < 2 ^ 32 := hweight.trans_lt hlen
  obtain ⟨c, T, hc, hholds⟩ := Typing.check_sound hshape hsmall
  refine ⟨c, T, hc, fun p hp => ?_⟩
  cases c with
  | ok q => cases hp; exact ⟨(hholds p rfl).1, hsmall⟩
  | bad d ds => cases hp

/-- The program that a file holds: its text is read as a tree, the tree is typed, and all functions
    return. -/
def File.program? (f : File) : Option Program :=
  match (Parsed.ofFile f).tree? 0 with
  | none => none
  | some t =>
    match Typing.check t with
    | .ok (.ok p, _) => if (Returns.checkAll p).isEmpty then some p else none
    | _ => none

theorem File.program?_eq_some (h : f.program? = some p) :
    ∃ t T, (Parsed.ofFile f).tree? 0 = some t ∧ Typing.check t = .ok (.ok p, T) ∧
      Returns.checkAll p = [] := by
  unfold File.program? at h
  split at h
  · cases h
  case _ t ht =>
    split at h
    case _ q T hq =>
      split at h
      case _ hr => cases h; exact ⟨t, T, ht, hq, List.isEmpty_iff.1 hr⟩
      · cases h
    · cases h

theorem File.bounded_of_program (hlen : f.content.length < 2 ^ 32) (h : f.program? = some p) :
    (∃ n < 2 ^ 32, Typing.Bounded n p) ∧ ∀ g ∈ p.funcs, g.body.falls = false := by
  obtain ⟨t, T, ht, hp, hreturns⟩ := program?_eq_some h
  obtain ⟨c, T', hc, hbounded⟩ := Typing.check_parsed hlen ht
  obtain ⟨rfl, rfl⟩ : Checked.ok p = c ∧ T = T' := by
    rw [hp, Except.ok.injEq, Prod.mk.injEq] at hc
    exact hc
  obtain ⟨hb, hsmall⟩ := hbounded p rfl
  exact ⟨⟨t.weight, hsmall, hb⟩, fun g hg =>
    Returns.falls_of_check (List.flatMap_eq_nil_iff.1 hreturns g hg)⟩

namespace Compile

variable {α β : Type} {parent : Nat} {scope : Trace.Scope}

/-! ## Steps that change the trace only -/

/-- The step ends in `r`, whatever the world is, and changes nothing but the trace. -/
def Step.Gives (x : Step α) (r : Except Failure α) : Prop := ∀ w, ∃ t, x w = (r, { w with trace := t })

def Step.Quiet (x : Step α) : Prop := ∀ w, ∃ a t, x w = (.ok a, { w with trace := t })

namespace Step

variable {x : Step α} {k : α → Step β} {r : Except Failure α} {s : α → Except Failure β} {q : Except Failure β}
  {w w' : World} {h : Failure → Step α} {a : α} {e : Failure}

theorem bind_ok (h : x w = (.ok a, w')) : (x >>= k) w = k a w' := by
  show ExceptT.bindCont k (x w).1 (x w).2 = _
  rw [h]
  rfl

theorem bind_error (h : x w = (.error e, w')) : (x >>= k) w = (.error e, w') := by
  show ExceptT.bindCont k (x w).1 (x w).2 = _
  rw [h]
  rfl

theorem tryCatch_ok (hx : x w = (.ok a, w')) : tryCatch x h w = (.ok a, w') := by
  simp only [tryCatch, MonadExcept.tryCatch, tryCatchThe, MonadExceptOf.tryCatch, ExceptT.tryCatch, ExceptT.mk,
    StateT.bind, Bind.bind, hx]
  rfl

theorem tryCatch_error (hx : x w = (.error e, w')) : tryCatch x h w = h e w' := by
  simp only [tryCatch, MonadExcept.tryCatch, tryCatchThe, MonadExceptOf.tryCatch, ExceptT.tryCatch, ExceptT.mk,
    StateT.bind, Bind.bind, hx]

theorem world_bind {k : World → Step β} (w : World) : (getThe World >>= k) w = k w w := rfl

theorem Gives.pure (a : α) : Gives (Pure.pure a) (.ok a) := fun w => ⟨w.trace, rfl⟩

theorem Gives.throw (e : Failure) : Gives (throw e : Step α) (.error e) := fun w => ⟨w.trace, rfl⟩

theorem Gives.bind (hx : Gives x r) (hk : ∀ a, Gives (k a) (s a)) : Gives (x >>= k) (r >>= s) := by
  intro w
  obtain ⟨t, hx⟩ := hx w
  cases r with
  | error e => exact ⟨t, bind_error hx⟩
  | ok a =>
    obtain ⟨t', hk⟩ := hk a { w with trace := t }
    exact ⟨t', (bind_ok hx).trans hk⟩

theorem Gives.andThen (hx : Gives x (.ok a)) (hk : Gives (k a) q) : Gives (x >>= k) q := by
  intro w
  obtain ⟨t, hx⟩ := hx w
  obtain ⟨t', hk⟩ := hk { w with trace := t }
  exact ⟨t', (bind_ok hx).trans hk⟩

theorem Gives.quiet (h : Gives x (.ok a)) : Quiet x := fun w => ⟨a, h w⟩

theorem Quiet.gives (hx : Quiet x) (hk : ∀ a, Gives (k a) q) : Gives (x >>= k) q := by
  intro w
  obtain ⟨a, t, hx⟩ := hx w
  obtain ⟨t', hk⟩ := hk a { w with trace := t }
  exact ⟨t', (bind_ok hx).trans hk⟩

theorem Quiet.bind (hx : Quiet x) (hk : ∀ a, Quiet (k a)) : Quiet (x >>= k) := by
  intro w
  obtain ⟨a, t, hx⟩ := hx w
  obtain ⟨b, t', hk⟩ := hk a { w with trace := t }
  exact ⟨b, t', (bind_ok hx).trans hk⟩

end Step

open Step (Gives Quiet)

theorem start_quiet {name : Text} : Quiet (start scope name parent) :=
  fun _ => ⟨_, _, rfl⟩

theorem annotate_quiet {s : Trace.Span} {key value : Text} : Quiet (annotate s key value) := fun _ => ⟨_, _, rfl⟩

theorem stop_quiet {s : Trace.Span} {detail : Text} : Quiet (stop s detail) := fun _ => ⟨_, _, rfl⟩

theorem point_quiet {name detail : Text} :
    Quiet (point scope name detail parent) := fun _ => ⟨_, _, rfl⟩

theorem stopCounted_quiet {s : Trace.Span} {n : Nat} : Quiet (stopCounted s n) :=
  annotate_quiet.bind fun _ => stop_quiet

theorem routines_quiet {rs : List Text} : Quiet (routines parent rs) := by
  induction rs with
  | nil => exact (Gives.pure ()).quiet
  | cons r rs ih => exact point_quiet.bind fun _ => ih

/-! ## The phases as a function -/

def parsed (o : Outcome) (f : File) : Outcome :=
  { o with tree := (Parsed.ofFile f).tree? 0
           bag := o.bag.addAll ((Parsed.ofFile f).reported o.bag.limit.toNat 0)
           phases := o.phases ++ [{ name := lit "parse" }] }

def built (o : Outcome) (t : Tree) : Except Failure (Outcome × Option Program) :=
  match Typing.check t with
  | .error f => .error (.typing f)
  | .ok (c, _) =>
    .ok ({ o with bag := o.bag.addAll c.problems, phases := o.phases ++ [{ name := lit "build" }] }, c.value?)

def returned (o : Outcome) (p : Program) : Outcome :=
  let bag := p.funcs.foldl (fun bag f => bag.addAll (Returns.check f)) o.bag
  { o with bag, program := if bag.hasErrors then none else some p
           phases := o.phases ++ [⟨lit "returns", decimal p.funcs.length ++ lit " funcs"⟩] }

def emitted (o : Outcome) (p : Program) : Except Failure Outcome :=
  match Arm.Assembly.ofProgram p with
  | .error f => .error (.codegen f)
  | .ok a =>
    .ok { o with asm := a.text, runtime := a.runtime.map Arm.Routine.name
                 phases := o.phases ++ [{ name := lit "codegen" }] }

def live (ctx : Context) (c : Checkpoint) (r : Except Failure α) : Except Failure α :=
  if ctx c then .error .cancelled else r

def found (ctx : Context) (stage : Stage) (o : Outcome) (f : File) : Except Failure Outcome :=
  live ctx .parse <|
    let o := parsed o f
    match o.tree with
    | none => .ok o
    | some t =>
      if stage = .parse then .ok o
      else live ctx .build <| built o t >>= fun (o, program) =>
        match program with
        | none => .ok o
        | some p =>
          let o := returned o p
          if o.program.isNone || stage = .sema then .ok o else live ctx .codegen (emitted o p)

theorem checkpoint_gives {ctx : Context} {c : Checkpoint} {x : Step α} {r : Except Failure α} (h : Gives x r) :
    Gives (checkpoint ctx c >>= fun _ => x) (live ctx c r) := by
  unfold checkpoint live
  split_ifs
  · exact fun w => ⟨w.trace, rfl⟩
  · exact h

theorem parse_gives (root : Nat) (o : Outcome) (f : File) : Gives (parse root o f) (.ok (parsed o f)) :=
  start_quiet.gives fun _ => stopCounted_quiet.gives fun _ => .pure _

theorem build_gives (root : Nat) (o : Outcome) (t : Tree) : Gives (build root o t) (built o t) := by
  refine start_quiet.gives fun _ => ?_
  unfold built
  cases Typing.check t with
  | error => exact .throw _
  | ok => exact stopCounted_quiet.gives fun _ => .pure _

theorem returns_gives (parent : Nat) (bag : Bag) (fs : List Func) :
    Gives (returns parent bag fs) (.ok (fs.foldl (fun bag f => bag.addAll (Returns.check f)) bag)) := by
  induction fs generalizing bag with
  | nil => exact .pure bag
  | cons f fs ih => exact start_quiet.gives fun _ => stopCounted_quiet.gives fun _ => ih _

theorem checkReturns_gives (root : Nat) (o : Outcome) (p : Program) :
    Gives (checkReturns root o p) (.ok (returned o p)) :=
  start_quiet.gives fun s => (returns_gives s.id o.bag p.funcs).andThen (stop_quiet.gives fun _ => .pure _)

theorem codegen_gives (root : Nat) (o : Outcome) (p : Program) : Gives (codegen root o p) (emitted o p) := by
  refine start_quiet.gives fun _ => ?_
  unfold emitted
  cases Arm.Assembly.ofProgram p with
  | error => exact stop_quiet.gives fun _ => .throw _
  | ok => exact routines_quiet.gives fun _ => annotate_quiet.gives fun _ => annotate_quiet.gives fun _ =>
      stop_quiet.gives fun _ => .pure _

theorem phases_gives (ctx : Context) (root : Nat) (stage : Stage) (o : Outcome) (f : File) :
    Gives (phases ctx root stage o f) (found ctx stage o f) := by
  refine checkpoint_gives ((parse_gives root o f).andThen ?_)
  dsimp only
  cases (parsed o f).tree with
  | none => exact .pure _
  | some t =>
    dsimp only
    split_ifs
    · exact .pure _
    · refine checkpoint_gives ((build_gives root _ t).bind fun (o, program) => ?_)
      cases program with
      | none => exact .pure _
      | some p =>
        refine (checkReturns_gives root o p).andThen ?_
        dsimp only
        split_ifs
        · exact .pure _
        · exact checkpoint_gives (codegen_gives root _ p)

def fresh (max : Int) : Outcome := { bag := { limit := max } }

theorem throughCache_plain {opts : Options} (ctx : Context) (root : Nat) (f : File)
    (h : (if opts.stage.resolve = .codegen then opts.cache else none) = none) :
    Gives (throughCache ctx root opts f) ((found ctx opts.stage.resolve (fresh opts.max) f).map Outcome.finish) := by
  unfold throughCache
  dsimp only
  rw [h]
  exact (phases_gives ctx root opts.stage.resolve (fresh opts.max) f).bind (s := fun o => .ok o.finish) fun o => .pure _

def Step.Wraps (x : Step α) (y : Nat → Step α) : Prop :=
  ∀ w, ∃ n t t', x w = ((y n { w with trace := t }).1, { (y n { w with trace := t }).2 with trace := t' })

theorem Step.Quiet.wraps {x : Step α} {k : α → Step β} {y : Nat → Step β} (hx : Quiet x)
    (hk : ∀ a, Step.Wraps (k a) y) : Step.Wraps (x >>= k) y := by
  intro w
  obtain ⟨a, t, hx⟩ := hx w
  obtain ⟨n, t', t'', hk⟩ := hk a { w with trace := t }
  exact ⟨n, t', t'', (Step.bind_ok hx).trans hk⟩

theorem file_wraps (ctx : Context) (opts : Options) (f : File) :
    Step.Wraps (file ctx opts f) fun root => throughCache ctx root opts f := by
  refine start_quiet.wraps fun _ => annotate_quiet.wraps fun _ => annotate_quiet.wraps fun root w => ?_
  refine ⟨root.id, w.trace, ?_⟩
  have hexit (n : Nat) : Quiet (annotate root (lit "exit") (decimal n) >>= fun root => stop root []) :=
    annotate_quiet.bind fun _ => stop_quiet
  dsimp only
  cases h : throughCache ctx root.id opts f w with
  | mk r w2 =>
    cases r with
    | ok o =>
      obtain ⟨_, t, ht⟩ := hexit o.exitCode w2
      refine ⟨t, (Step.bind_ok (a := Except.error o) (Step.tryCatch_ok
        (?_ : _ = (Except.ok (Except.error o), { w2 with trace := t })))).trans rfl⟩
      rw [Step.bind_ok h]
      exact Step.bind_ok ht
    | error e =>
      cases hx : e.exit? with
      | some n =>
        obtain ⟨_, t, ht⟩ := hexit n w2
        refine ⟨t, Step.bind_error ((Step.tryCatch_error (Step.bind_error h)).trans ?_)⟩
        simp only [hx]
        exact Step.bind_ok ht
      | none =>
        obtain ⟨_, t, ht⟩ := (stop_quiet : Quiet (stop root [])) w2
        refine ⟨t, Step.bind_error ((Step.tryCatch_error (Step.bind_error h)).trans ?_)⟩
        simp only [hx]
        exact Step.bind_ok ht

end Compile

end Wacc
