/-
  The depth of the stack along lines of assembly.

  A walk over lines knows how many bytes are pushed, if control can get there, and with how many
  bytes each place inside a function was reached.  It fails where the stack is out of balance: a
  return with other bytes than it pops, a place reached with two depths, a routine whose end is
  reached, a call with an unaligned stack, a depth below zero or beyond the limit.
-/
import Wacc.Arm.Program
import Wacc.Proofs.Token.Spelling

namespace Wacc.Arm

def depthLimit : Int := 2 ^ 63

/-- What a walk knows: the bytes pushed, if control can get here, and the depth with which every place
    was reached. -/
structure Point where
  depth : Option Int
  places : Nat → Option Int

namespace Point

def deep (places : Nat → Option Int) (d : Int) : Option Point :=
  if 0 ≤ d ∧ d < depthLimit then some ⟨some d, places⟩ else none

def arrive (places : Nat → Option Int) (n : Nat) (d : Int) : Option (Nat → Option Int) :=
  match places n with
  | none => some (Function.update places n (some d))
  | some e => if e = d then some places else none

end Point

def Callee.ends : Callee → Bool
  | .extern_ .exit | .label (.routine .throwRuntime) => true
  | _ => false

def Label.place? : Label → Option Nat
  | .place n => some n
  | _ => none

def Instr.walk (places : Nat → Option Int) (d : Int) : Instr → Option Point
  | .push rs => Point.deep places (d + 4 * rs.length)
  | .pop rs =>
    if rs.contains .pc then if d = 4 * rs.length then some ⟨none, places⟩ else none
    else Point.deep places (d - 4 * rs.length)
  | .alu .sub .sp .sp (.imm n) => Point.deep places (d + n)
  | .alu .add .sp .sp (.imm n) => Point.deep places (d - n)
  | .pushStore _ _ n => Point.deep places (d + n)
  | .branch c l => do
    let places ← match l.place? with
      | some n => Point.arrive places n d
      | none => some places
    return ⟨if c = .always then none else some d, places⟩
  | .call c f =>
    if d % 8 ≠ 0 then none
    else some ⟨if c = .always ∧ f.ends then none else some d, places⟩
  | _ => some ⟨some d, places⟩

def Line.walk (p : Point) : Line → Option Point
  | .label l =>
    match l.place?, p.depth with
    | some n, some d => (Point.arrive p.places n d).map fun ps => ⟨some d, ps⟩
    | some n, none => some ⟨p.places n, p.places⟩
    | none, some _ => none
    | none, none => some ⟨some 0, p.places⟩
  | .instr i =>
    match p.depth with
    | none => some p
    | some d => i.walk p.places d
  | _ => some p

def walk (p : Point) : List Line → Option Point
  | [] => some p
  | l :: ls => do walk (← l.walk p) ls

theorem walk_append (p : Point) (ls ms : List Line) : walk p (ls ++ ms) = (walk p ls).bind (walk · ms) := by
  induction ls generalizing p with
  | nil => rfl
  | cons l ls ih =>
    simp only [List.cons_append, walk, Option.bind_eq_bind]
    cases l.walk p with
    | none => rfl
    | some q => exact ih q

theorem walk_plain {places : Nat → Option Int} {ls : List Line} (h : ∀ l ∈ ls, l.isLabel = false) :
    walk ⟨none, places⟩ ls = some ⟨none, places⟩ := by
  induction ls with
  | nil => rfl
  | cons l ls ih =>
    obtain ⟨hl, hls⟩ := List.forall_mem_cons.1 h
    have : l.walk ⟨none, places⟩ = some ⟨none, places⟩ := by cases l <;> first | rfl | cases hl
    simp only [walk, this, Option.bind_eq_bind, Option.bind_some]
    exact ih hls

/-! ## Names -/

def Label.Named : Label → Prop
  | .func n => IsName n
  | _ => True

def Callee.Named : Callee → Prop
  | .label l => l.Named
  | .extern_ _ => True

def Instr.Named : Instr → Prop
  | .address _ _ l | .branch _ l => l.Named
  | .call _ f => f.Named
  | _ => True

def Line.InCode : Line → Prop
  | .label l => l.Named
  | .instr i => i.Named
  | .pool => True
  | _ => False

/-! ## Straight code -/

/-- Code without labels that leads from the depth `d` to the depth `d'`, and reaches no place. -/
structure Straight (d : Int) (out : List Line) (d' : Int) : Prop where
  walk : ∀ places, walk ⟨some d, places⟩ out = some ⟨some d', places⟩
  plain : ∀ l ∈ out, l.isLabel = false
  named : ∀ l ∈ out, l.InCode

namespace Straight

variable {d d' d'' : Int} {o o' : List Line}

theorem nil (d : Int) : Straight d [] d := ⟨fun _ => rfl, by simp, by simp⟩

theorem append (h : Straight d o d') (h' : Straight d' o' d'') : Straight d (o ++ o') d'' := by
  refine ⟨fun places => ?_, fun l hl => ?_, fun l hl => ?_⟩
  · rw [walk_append, h.walk, Option.bind_some, h'.walk]
  · exact (List.mem_append.1 hl).elim (h.plain l) (h'.plain l)
  · exact (List.mem_append.1 hl).elim (h.named l) (h'.named l)

theorem instr {i : Instr} (h : ∀ places, i.walk places d = some ⟨some d', places⟩) (hn : i.Named) :
    Straight d [.instr i] d' := by
  refine ⟨fun places => ?_, by simp [Line.isLabel], by simpa [Line.InCode] using hn⟩
  simp only [Arm.walk, Line.walk, h places, Option.bind_eq_bind, Option.bind_some]

end Straight

end Wacc.Arm
