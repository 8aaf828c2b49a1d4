/-
  Programs do on the machine what they mean.
-/
import Wacc.Proofs.Arm.Linked
import Wacc.Proofs.Machine.Program

namespace Wacc

open Reference Arm

/-! ## Scalar programs -/

namespace Program

def largest (p : Program) : Nat := p.funcs.foldr (fun f n => max f.body.size n) p.body.size

/-- The bytes that a call or the main program takes at most, without the calls inside: the return address, scopes
    inside each other, and values that are put aside. -/
def frameBytes (p : Program) : Nat := 4 + p.table.scopes.size * (4 * p.table.vars.size) + 8 * p.largest + 64

variable {p : Program}

theorem size_le_largest (p : Program) : p.body.size ≤ p.largest := by
  unfold largest
  induction p.funcs with
  | nil => exact le_rfl
  | cons f fs ih => exact ih.trans (le_max_right _ _)

theorem size_func_le_largest {f : Func} (hf : f ∈ p.funcs) : f.body.size ≤ p.largest := by
  unfold largest
  revert hf
  induction p.funcs with
  | nil => exact nofun
  | cons g fs ih =>
    refine fun hf => (List.mem_cons.1 hf).elim ?_ fun hf => (ih hf).trans (le_max_right _ _)
    rintro rfl
    exact le_max_left _ _

theorem roomy (hw : p.table.Wf) : Context.Roomy p.table p.largest p.frameBytes := by
  intro sc s hat
  obtain ⟨r, hr⟩ := Frames.scope hat
  have hsc : sc.toNat ≤ p.table.scopes.size := (Table.numbered_lt hr).2
  have hmul : (sc.toNat : Int) * (4 * p.table.vars.size) ≤ p.table.scopes.size * (4 * p.table.vars.size) := by
    gcongr
  have hbound := Frames.bound hw hat
  simp only [frameBytes]
  push_cast
  omega

structure Scalar (p : Program) : Prop where
  typed : p.Typed
  vars : ∀ x v, p.table.var? x = some v → v.type.isScalar = true
  results : ∀ f g, p.table.func? f = some g → g.result.isScalar = true
  falls : ∀ f ∈ p.funcs, f.body.falls = false
  main : Context.Fine (fun _ => False) p.body.parts
  funcs : ∀ f ∈ p.funcs, Context.Fine (Datum.Is f.result) f.body.parts

end Program

namespace Arm

/-! ## Code in the machine -/

namespace Stage

variable {s : Stage}

def constOf (s : Stage) (I : Image) (t : Text) : Word := I.const ((s.shared.lookup t).getD (s.consts.idxOf t))

theorem Sane.lookup (h : s.Sane) {t : Text} {n : Nat} (hn : s.shared.lookup t = some n) : s.consts[n]? = some t := by
  obtain ⟨before, after, hshared, -⟩ := List.lookup_eq_some_iff.1 hn
  exact h.shared t n (by simp [hshared])

end Stage

structure Generated (p : Program) (out : List Line) (s : Stage) (a : Assembly) : Prop where
  run : Gen.program p p.table {} = .ok ((), out, s)
  lines : a.lines = dataLines s.consts ++ [.text, .global .main] ++ out
  sane : s.Sane
  once : (labelsOf a.lines).Nodup
  routine : ∀ r, .routine r ∈ labelsOf a.lines → r ∈ s.used

namespace Generated

variable {p : Program} {out : List Line} {s : Stage} {a : Assembly} {S : System} {need : Nat}

theorem infix_code (h : Generated p out s a) (hcode : S.image.code = a.lines) {o : List Line} (ho : o <:+: out) :
    o <:+: S.image.code := by
  rw [hcode, h.lines]
  exact ho.trans (List.suffix_append _ out).isInfix

theorem whole (h : Generated p out s a) (hp : p.Scalar) {C : Context} (hC : C.Hosts p)
    (hcode : C.system.image.code = a.lines) (hconst : C.const = s.constOf C.system.image) :
    C.Whole p p.frameBytes C.system.image.code ∧ ∀ r ∈ s.used, C.system.Provides r := by
  obtain ⟨_, out', s', hrun, hwhole, hroutines⟩ := Context.program_emits hC (Program.roomy hp.typed.wf)
    p.size_le_largest hp.main (fun f hf => Program.size_func_le_largest hf) hp.funcs
  obtain ⟨rfl, rfl⟩ : out = out' ∧ s = s' := by
    rw [h.run] at hrun
    cases hrun
    exact ⟨rfl, rfl⟩
  have hprovides : ∀ r ∈ s.used, C.system.Provides r := fun r hr => by
    obtain ⟨m, hinfix⟩ := hroutines r hr
    obtain ⟨n, hhas⟩ := Context.has_of_infix (h.infix_code hcode hinfix)
    exact ⟨n, m, hC.once.find hhas.head, hhas⟩
  have hcovers : C.Covers s := by
    refine ⟨fun r hr q hq => hprovides q ?_, fun t n hn => ?_⟩
    · rcases List.mem_cons.1 hq with rfl | hq
      · exact hr
      · exact h.sane.complete r hr q hq
    · rw [hconst, Stage.constOf, hn]
      rfl
  obtain ⟨⟨o, ho, hmain⟩, hfuncs⟩ := hwhole hcovers
  refine ⟨⟨⟨o, h.infix_code hcode ho, hmain⟩, fun f hf => ?_⟩, hprovides⟩
  obtain ⟨o, ho, hfunc⟩ := hfuncs f hf
  exact ⟨o, h.infix_code hcode ho, hfunc⟩

end Generated

/-! ## Errors -/

namespace System

variable {S : System} {s s' : State} {m n : Nat}

end System

/-! ## Programs -/

theorem Loaded.start {S : System} {need B : Nat} {const : Text → Word} {p : Program} (h : Loaded S need const p B) :
    ∃ start, S.image.find .main = some start := by
  let k : Core := ⟨fun _ => 0, ⟨false, false, false, false⟩, fun _ => 0⟩
  have hk : k.sp % 8 = 0 := rfl
  have hC := h.frame_hosts hk
  obtain ⟨o, hinfix, r, s, s1, o, -, -, -, rfl, -⟩ := (h.whole (h.frame k hk) rfl rfl rfl hC).main
  obtain ⟨start, hhas⟩ := Context.has_of_infix hinfix
  exact ⟨start, hC.once.find hhas.head⟩

end Arm

end Wacc
