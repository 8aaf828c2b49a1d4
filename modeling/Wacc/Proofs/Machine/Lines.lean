/-
  Running lines of code.
-/
import Wacc.Proofs.Machine.Basic

namespace Wacc.Arm

/-! ## Code in place -/

def Image.Has (I : Image) (n : Nat) (out : List Line) : Prop :=
  ∀ i l, out[i]? = some l → I.code[n + i]? = some l

namespace Image.Has

variable {I : Image} {n : Nat} {l : Line} {out o o' : List Line}

theorem head (h : I.Has n (l :: out)) : I.code[n]? = some l := h 0 l rfl

theorem tail (h : I.Has n (l :: out)) : I.Has (n + 1) out := by
  intro i l' hl
  rw [Nat.add_assoc, Nat.add_comm 1 i]
  exact h (i + 1) l' hl

theorem left (h : I.Has n (o ++ o')) : I.Has n o := by
  intro i l hl
  refine h i l ?_
  obtain ⟨hi, rfl⟩ := List.getElem?_eq_some_iff.1 hl
  rw [List.getElem?_append_left hi]
  exact hl

theorem right (h : I.Has n (o ++ o')) : I.Has (n + o.length) o' := by
  intro i l hl
  rw [Nat.add_assoc]
  refine h (o.length + i) l ?_
  rw [List.getElem?_append_right (by omega), Nat.add_sub_cancel_left]
  exact hl

end Image.Has

def Instr.isPlain : Instr → Bool
  | .branch _ _ | .call _ _ => false
  | .pop rs => !rs.contains .pc
  | _ => true

def throwing : List Routine := [.throwOverflow, .throwRuntime]

namespace System

variable (S : System) {α β : Type}

def AtThrow (n : Nat) : Prop := ∃ r ∈ throwing, S.image.find (.routine r) = some n

/-- Control gets from the start of the lines to their end, with a core that satisfies `Q`. -/
def Does (out : List Line) (k : Core) (Q : Core → Prop) : Prop :=
  ∀ n tr, S.image.Has n out →
    S.Runs 0 ⟨k, n, tr⟩ fun s => s.pc = n + out.length ∧ s.trace = tr ∧ Q s.toCore

/-- Control gets from the start of the lines to where the program stops with an error. -/
def Throws (out : List Line) (k : Core) : Prop :=
  ∀ n tr, S.image.Has n out → S.Runs 0 ⟨k, n, tr⟩ fun s => s.trace = tr ∧ S.AtThrow s.pc

/-- The lines compute `r`; where there is no result, the program stops with an error. -/
def Yields (out : List Line) (k : Core) (r : Option α) (Q : α → Core → Prop) : Prop :=
  match r with
  | some a => S.Does out k (Q a)
  | none => S.Throws out k

variable {S} {o o' : List Line} {k : Core} {P Q : Core → Prop} {tr : List Event}

theorem next_plain {s : State} {i : Instr} (hi : i.isPlain = true)
    (h : S.image.code[s.pc]? = some (.instr i)) :
    S.next s = .ok { s with toCore := i.effect S.image.address s.toCore, pc := s.pc + 1 } := by
  rw [next, h]
  cases i with
  | branch | call => cases hi
  | pop rs =>
    have hpc : rs.contains .pc = false := by simpa [Instr.isPlain] using hi
    show (if rs.contains .pc then _ else _) = _
    rw [hpc]
    rfl
  | _ => rfl

theorem next_call {n m : Nat} {c : Cond} {l : Label} (hcode : S.image.code[n]? = some (.instr (.call c (.label l))))
    (hc : c.holds k.flags = true) (hfind : S.image.find l = some m) :
    S.next ⟨k, n, tr⟩ = .ok ⟨k.set .lr (S.image.place (n + 1)), m,
      tr ++ (l.event? (k.reg .r0)).toList⟩ := by
  rw [next, hcode]
  show (if c.holds k.flags then _ else _) = _
  rw [hc, if_pos rfl, System.call, hfind]

theorem next_return {n m : Nat} {rs : List Reg} (hcode : S.image.code[n]? = some (.instr (.pop rs)))
    (hpc : rs.contains .pc = true) (hm : S.image.position (k.mem.load .word (k.reg .sp + BitVec.ofNat 32 (4 * rs.idxOf
      .pc))) = some m) : S.next ⟨k, n, tr⟩ = .ok ⟨Instr.effect S.image.address k (.pop rs), m, tr⟩ := by
  rw [next, hcode]
  show (if rs.contains .pc then _ else _) = _
  rw [hpc, if_pos rfl]
  simp only [hm]

namespace Does

theorem nil (h : Q k) : S.Does [] k Q := fun _ _ _ => .here ⟨rfl, rfl, h⟩

theorem weaken (h : S.Does o k P) (hq : ∀ k', P k' → Q k') : S.Does o k Q := fun n tr hn =>
  (h n tr hn).weaken fun _ ⟨hpc, htr, hp⟩ => ⟨hpc, htr, hq _ hp⟩

theorem seq (h : S.Does o k P) (hq : ∀ k', P k' → S.Does o' k' Q) : S.Does (o ++ o') k Q := by
  intro n tr hn
  refine (h n tr hn.left).seq ?_
  rintro ⟨k', m, tr'⟩ ⟨rfl, rfl, hp⟩
  refine (hq k' hp _ _ hn.right).weaken fun s ⟨hpc, htr, hs⟩ => ⟨?_, htr, hs⟩
  rw [hpc, List.length_append, Nat.add_assoc]

theorem instr {i : Instr} (hi : i.isPlain = true) (h : Q (i.effect S.image.address k)) :
    S.Does [.instr i] k Q := by
  intro n tr hn
  refine (Runs.step (next_plain hi hn.head) (.here ?_)).le (Nat.zero_le _)
  exact ⟨rfl, rfl, h⟩

theorem cons {i : Instr} (hi : i.isPlain = true) (h : S.Does o (i.effect S.image.address k) Q) :
    S.Does (.instr i :: o) k Q :=
  (instr (Q := (· = i.effect S.image.address k)) hi rfl).seq fun _ hk => hk ▸ h

theorem call_skip {c : Cond} {f : Callee} (hc : c.holds k.flags = false) (h : Q k) :
    S.Does [.instr (.call c f)] k Q := by
  intro n tr hn
  have hnext : S.next ⟨k, n, tr⟩ = .ok ⟨k, n + 1, tr⟩ := by
    rw [next, hn.head]
    show (if c.holds k.flags then _ else _) = _
    rw [hc]
    rfl
  exact (Runs.step hnext (.here ⟨rfl, rfl, h⟩)).le (Nat.zero_le _)

theorem call_lib {e : Extern} (he : e ≠ .exit) (h : ∀ w, Q (S.lib e (k.set .lr w))) :
    S.Does [.instr (.call .always (.extern_ e))] k Q := by
  intro n tr hn
  have hnext : S.next ⟨k, n, tr⟩ = .ok ⟨S.lib e (k.set .lr (S.image.place (n + 1))), n + 1, tr⟩ := by
    rw [next, hn.head]
    cases e <;> first | rfl | exact absurd rfl he
  exact (Runs.step hnext (.here ⟨rfl, rfl, h _⟩)).le (Nat.zero_le _)

end Does

theorem Throws.append (h : S.Throws o k) : S.Throws (o ++ o') k := fun n tr hn => h n tr hn.left

theorem Does.throws (h : S.Does o k P) (hq : ∀ k', P k' → S.Throws o' k') : S.Throws (o ++ o') k := by
  intro n tr hn
  refine (h n tr hn.left).seq ?_
  rintro ⟨k', m, tr'⟩ ⟨rfl, rfl, hp⟩
  exact hq k' hp _ _ hn.right

theorem Throws.call {c : Cond} {r : Routine} {m : Nat} (hc : c.holds k.flags = true) (hr : r ∈ throwing)
    (hfind : S.image.find (.routine r) = some m) : S.Throws [.instr (.call c (.label (.routine r)))] k := by
  intro n tr hn
  have hevent : Label.event? (k.reg .r0) (.routine r) = none := by
    obtain rfl | rfl : r = .throwOverflow ∨ r = .throwRuntime := by simpa [throwing] using hr
    · rfl
    · rfl
  refine (Runs.step (next_call hn.head hc hfind) (.here ⟨?_, r, hr, hfind⟩)).le (Nat.zero_le _)
  rw [hevent, Option.toList_none, List.append_nil]

namespace Yields

variable {r : Option α} {R : α → Core → Prop}

theorem weaken {R' : α → Core → Prop} (h : S.Yields o k r R) (hr : ∀ a k', R a k' → R' a k') :
    S.Yields o k r R' := by
  cases r with
  | none => exact h
  | some a => exact Does.weaken h (hr a)

theorem seq {f : α → Option β} {Q : β → Core → Prop} (h : S.Yields o k r R)
    (hf : ∀ a k', r = some a → R a k' → S.Yields o' k' (f a) Q) : S.Yields (o ++ o') k (r.bind f) Q := by
  cases r with
  | none => exact Throws.append h
  | some a =>
    show S.Yields (o ++ o') k (f a) Q
    have hrest := fun k' => hf a k' rfl
    generalize f a = b at hrest ⊢
    cases b with
    | none => exact Does.throws h hrest
    | some b => exact Does.seq h hrest

theorem does {Q : α → Core → Prop} (h : S.Yields o k r R) (hq : ∀ a k', R a k' → S.Does o' k' (Q a)) :
    S.Yields (o ++ o') k r Q := by
  cases r with
  | none => exact Throws.append h
  | some a => exact Does.seq h (hq a)

theorem of_map {f : β → α} {r : Option β} {Q : β → Core → Prop} (h : S.Yields o k (r.map f) R)
    (hq : ∀ b k', R (f b) k' → Q b k') : S.Yields o k r Q := by
  cases r with
  | none => exact h
  | some b => exact Does.weaken h (hq b)

theorem guard {c : Prop} [Decidable c] {a : α} {Q : α → Core → Prop}
    (h : S.Yields o k (if c then none else some ()) fun _ => P) (hq : ∀ k', P k' → Q a k') :
    S.Yields o k (if c then none else some a) Q := by
  split_ifs at h ⊢ with hc
  · exact h
  · exact Does.weaken h hq

theorem of_does {a : α} (h : S.Does o k (R a)) : S.Yields o k (some a) R := h

end Yields

theorem Does.of_yields (h : S.Yields o k (some ()) fun _ => Q) : S.Does o k Q := h

theorem Does.yields {Q : α → Core → Prop} {r : Option α} (h : S.Does o k P)
    (hq : ∀ k', P k' → S.Yields o' k' r Q) : S.Yields (o ++ o') k r Q :=
  Yields.seq (Yields.of_does (a := ()) (R := fun _ => P) h) fun _ k' _ hp => hq k' hp

end System

end Wacc.Arm
