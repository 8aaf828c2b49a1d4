/-
  Machines that do what is to be done.
-/
import Wacc.Proofs.Machine.Emit
import Wacc.Proofs.Semantics.Stat

namespace Wacc

def Datum.printer : Datum → Arm.Routine
  | .int _ => .printInt
  | .bool _ => .printBool
  | .char _ => .printChar
  | .ref _ | .array _ _ => .printReference

def Reference.Output.event : Output → Arm.Event
  | .value x => .value x.printer x.word
  | .line => .line

namespace Arm

open Reference

def Image.Once (I : Image) : Prop :=
  ∀ (i j : Nat) (l : Label), I.code[i]? = some (.label l) → I.code[j]? = some (.label l) → i = j

theorem Image.Once.find {I : Image} (h : I.Once) {n : Nat} {l : Label} (hn : I.code[n]? = some (.label l)) :
    I.find l = some n := by
  obtain ⟨hlt, hget⟩ := List.getElem?_eq_some_iff.1 hn
  rw [Image.find, List.findIdx?_eq_some_iff_getElem]
  refine ⟨hlt, by simp [hget], fun j hj => ?_⟩
  simp only [Bool.not_eq_true, beq_eq_false_iff_ne, ne_eq]
  intro hl
  have := h n j l hn (List.getElem?_eq_some_iff.2 ⟨_, hl⟩)
  omega

namespace System

variable {S : System} {α β : Type} {n m : Nat} {s : State} {k : Core} {tr : List Event} {l : Label}

/-- After `n` lines or more, control is in a state that satisfies `R`, and `os` was printed. -/
def Reaches (S : System) (n : Nat) (s : State) (os : List Output) (R : State → Prop) : Prop :=
  S.Runs n s fun s' => s'.trace = s.trace ++ os.map Output.event ∧ R s'

/-- The machine prints what is to be printed and ends as is to be; it is free where variables without a
    value are read, or calls are nested too deep. -/
def Meets (S : System) (n : Nat) (s : State) (b : Behaviour α) (Q : α → State → Prop) : Prop :=
  match b.result with
  | .ok a => S.Reaches 0 s b.trace (Q a)
  | .error (.exit c) => S.Reaches 0 s b.trace fun s' => S.next s' = .error (.exit (BitVec.ofInt 32 c))
  | .error (.error _) => S.Reaches 0 s b.trace fun s' => S.AtThrow s'.pc
  | .error .late => S.Reaches n s b.trace fun _ => True
  | .error .stuck => False
  | .error .unset | .error .deep => True

theorem Reaches.trans {os os' : List Output} {P R : State → Prop} (h : S.Reaches m s os P)
    (hp : ∀ s', P s' → S.Reaches n s' os' R) : S.Reaches (m + n) s (os ++ os') R := by
  refine Runs.bind h fun s1 ⟨htr, hP⟩ => (hp s1 hP).weaken fun s2 ⟨htr', hR⟩ => ⟨?_, hR⟩
  rw [htr', htr, List.map_append, List.append_assoc]

theorem Reaches.le {os : List Output} {R : State → Prop} (h : S.Reaches n s os R) (hm : m ≤ n) :
    S.Reaches m s os R := Runs.le h hm

namespace Meets

variable {x : Behaviour α} {f : α → Behaviour β} {P Q' : α → State → Prop} {Q : β → State → Prop} {b : Behaviour β}

theorem le (h : S.Meets n s b Q) (hm : m ≤ n) : S.Meets m s b Q := by
  unfold Meets at h ⊢
  split <;> simp_all only
  exact h.le hm

theorem weaken {R : β → State → Prop} (h : S.Meets n s b Q) (hq : ∀ a s', b.result = .ok a → Q a s' → R a s') :
    S.Meets n s b R := by
  unfold Meets at h ⊢
  split <;> simp_all only
  exact Runs.weaken h fun s' ⟨htr, hQ⟩ => ⟨htr, hq _ s' rfl hQ⟩

theorem pure {a : α} (h : P a s) : S.Meets n s (Pure.pure a) P := .here ⟨(List.append_nil _).symm, h⟩

theorem after {os : List Output} {R : State → Prop} (h : S.Reaches m s os R) (hb : ∀ s', R s' → S.Meets n s' b Q) :
    S.Meets (m + n) s ⟨os ++ b.trace, b.result⟩ Q := by
  obtain ⟨os', r⟩ := b
  cases r with
  | ok a => exact (h.trans hb).le (by omega)
  | error e =>
    cases e with
    | exit | error => exact (h.trans hb).le (by omega)
    | late => exact h.trans hb
    | stuck =>
      obtain ⟨-, -, s', -, -, hs'⟩ := h
      exact hb s' hs'
    | unset | deep => trivial

theorem bind (h : S.Meets n s x P) (hf : ∀ a s', x.result = .ok a → P a s' → S.Meets n s' (f a) Q) :
    S.Meets n s (x >>= f) Q := by
  obtain ⟨os, r⟩ := x
  cases r with
  | ok a =>
    have := after (R := P a) h fun s' hs' => hf a s' rfl hs'
    rwa [Nat.zero_add] at this
  | error e => cases e <;> exact h

theorem runs (h : S.Runs m s fun s' => s'.trace = s.trace ∧ S.Meets n s' b Q) : S.Meets (m + n) s b Q := by
  have hreach : S.Reaches m s [] fun s' => S.Meets n s' b Q := by
    refine h.weaken fun s' ⟨htr, hs'⟩ => ⟨?_, hs'⟩
    rw [htr, List.map_nil, List.append_nil]
  exact after hreach fun _ h => h

theorem step {s' : State} (hs : S.next s = .ok s') (htr : s'.trace = s.trace) (h : S.Meets n s' b Q) :
    S.Meets (n + 1) s b Q := by
  rw [Nat.add_comm]
  exact runs (Runs.step hs (.here ⟨htr, h⟩))

theorem next {s' : State} (hs : S.next s = .ok s') (htr : s'.trace = s.trace) (h : S.Meets n s' b Q) :
    S.Meets n s b Q := (step hs htr h).le (Nat.le_succ n)

theorem andRuns (h : S.Meets n s x P)
    (hp : ∀ a s', x.result = .ok a → P a s' → S.Runs 0 s' fun t => t.trace = s'.trace ∧ Q' a t) : S.Meets n s x Q' := by
  unfold Meets at h ⊢
  split <;> simp_all only
  exact Runs.seq h fun s1 ⟨htr, hP⟩ => (hp _ s1 rfl hP).weaken fun t ⟨htr', hQ⟩ => ⟨htr'.trans htr, hQ⟩

theorem does {o : List Line} {R : Core → Prop} (hd : S.Does o k R) (hn : S.image.Has m o)
    (h : ∀ k', R k' → S.Meets n ⟨k', m + o.length, tr⟩ b Q) : S.Meets n ⟨k, m, tr⟩ b Q := by
  have := runs (n := n) (b := b) (Q := Q) (((hd m tr hn).weaken (Q := fun s' =>
    s'.trace = (⟨k, m, tr⟩ : State).trace ∧ S.Meets n s' b Q)) ?_)
  · rwa [Nat.zero_add] at this
  · rintro ⟨k', q, tr'⟩ ⟨rfl, rfl, hR⟩
    exact ⟨rfl, h k' hR⟩

end Meets

theorem Yields.meets {o : List Line} {r : Option α} {R : α → Core → Prop} (h : S.Yields o k r R)
    (hn : S.image.Has m o) (e : Error) :
    S.Meets n ⟨k, m, tr⟩ (.ofOption (.error e) r) fun a s' => s'.pc = m + o.length ∧ R a s'.toCore := by
  cases r with
  | some a =>
    exact (h m tr hn).weaken fun s' ⟨hpc, htr, hR⟩ => ⟨htr.trans (List.append_nil _).symm, hpc, hR⟩
  | none => exact (h m tr hn).weaken fun s' ⟨htr, hthrow⟩ => ⟨htr.trans (List.append_nil _).symm, hthrow⟩

/-! ## Branches -/

theorem next_label (h : S.image.code[n]? = some (.label l)) : S.next ⟨k, n, tr⟩ = .ok ⟨k, n + 1, tr⟩ := by
  rw [next, h]

theorem next_branch {c : Cond} (hcode : S.image.code[n]? = some (.instr (.branch c l))) (hc : c.holds k.flags = true)
    (hfind : S.image.find l = some m) : S.next ⟨k, n, tr⟩ = .ok ⟨k, m, tr⟩ := by
  rw [next, hcode]
  show (if c.holds k.flags then _ else _) = _
  rw [hc, if_pos rfl, hfind]

theorem next_branch_skip {c : Cond} (hcode : S.image.code[n]? = some (.instr (.branch c l)))
    (hc : c.holds k.flags = false) : S.next ⟨k, n, tr⟩ = .ok ⟨k, n + 1, tr⟩ := by
  rw [next, hcode]
  show (if c.holds k.flags then _ else _) = _
  rw [hc]
  rfl

/-! ## Printing -/

/-- Control gets from the start of the lines to their end, and `es` is printed. -/
def Tells (S : System) (out : List Line) (k : Core) (es : List Event) (Q : Core → Prop) : Prop :=
  ∀ n tr, S.image.Has n out →
    S.Runs 0 ⟨k, n, tr⟩ fun s => s.pc = n + out.length ∧ s.trace = tr ++ es ∧ Q s.toCore

namespace Tells

variable {o o' : List Line} {es es' : List Event} {P Q : Core → Prop}

theorem of_does (h : S.Does o k Q) : S.Tells o k [] Q := fun n tr hn =>
  (h n tr hn).weaken fun _ ⟨hpc, htr, hq⟩ => ⟨hpc, htr.trans (List.append_nil _).symm, hq⟩

theorem seq (h : S.Tells o k es P) (hq : ∀ k', P k' → S.Tells o' k' es' Q) : S.Tells (o ++ o') k (es ++ es') Q := by
  intro n tr hn
  refine (h n tr hn.left).seq ?_
  rintro ⟨k', m, tr'⟩ ⟨rfl, rfl, hp⟩
  refine (hq k' hp _ _ hn.right).weaken fun s ⟨hpc, htr, hs⟩ => ⟨?_, ?_, hs⟩
  · rw [hpc, List.length_append, Nat.add_assoc]
  · rw [htr, List.append_assoc]

theorem after (h : S.Does o k P) (hq : ∀ k', P k' → S.Tells o' k' es Q) : S.Tells (o ++ o') k es Q :=
  (of_does h).seq hq

theorem does (h : S.Tells o k es P) (hq : ∀ k', P k' → S.Does o' k' Q) : S.Tells (o ++ o') k es Q :=
  List.append_nil es ▸ h.seq fun k' hk' => of_does (hq k' hk')

theorem meets {w : Output} (h : S.Tells o k [w.event] P) (hn : S.image.Has m o) :
    S.Meets n ⟨k, m, tr⟩ (Behaviour.print w) fun _ s' => s'.pc = m + o.length ∧ P s'.toCore :=
  (h m tr hn).weaken fun _ ⟨hpc, htr, hp⟩ => ⟨htr, hpc, hp⟩

end Tells

end System

/-! ## Routines that print -/

/-- Whether an instruction of a routine uses only registers that calls may change, or calls the library. -/
def Instr.isMild : Instr → Bool
  | .mov _ d _ | .number d _ | .address _ d _ | .load _ d _ | .alu _ d _ _ => volatile.contains d
  | .cmp _ _ => true
  | .call .always (.extern_ e) => e != .exit
  | _ => false

theorem Library.Lawful.frame {lib : Library} {need : Nat} (h : lib.Lawful need) {k : Core} (hk : CanCall need k)
    (e : Extern) (w : Word) : Core.Frame 0 [] k (lib e (k.set .lr w)) := by
  have hcan : CanCall need (k.set .lr w) := ⟨hk.aligned, hk.room⟩
  have hkept : ∀ r, r ∉ volatile → r ∉ clobbered ∧ r ≠ .lr := by
    intro r
    cases r <;> decide
  refine ⟨fun r _ hv => ?_, fun a ha => ?_⟩
  · rw [h.regs e _ hcan r (hkept r hv).1, Core.set_reg, if_neg (hkept r hv).2]
  · exact h.above e _ hcan a (ha.resolve_left (Nat.not_lt_zero _))

namespace System

variable {S : System} {need : Nat} {k : Core} {r : Routine}

theorem does_instr_mild (hlib : S.lib.Lawful need) {i : Instr} (hi : i.isMild = true) (hk : Library.CanCall need k) :
    S.Does [.instr i] k (Core.Frame 0 [] k) := by
  have hset : ∀ {d : Reg} {w : Word}, volatile.contains d = true → Core.Frame 0 [] k (k.set d w) :=
    fun hd => (Core.Frame.refl 0 [] k).set (.inr (List.contains_iff_mem.1 hd))
  have hif : ∀ {c : Bool} {d : Reg} {w : Word}, volatile.contains d = true →
      Core.Frame 0 [] k (if c then k.set d w else k) := by
    intro c d w hd
    split_ifs
    · exact hset hd
    · exact .refl 0 [] k
  cases i with
  | mov c d v => exact .instr rfl (hif hi)
  | address c d l => exact .instr rfl (hif hi)
  | number d n => exact .instr rfl (hset hi)
  | load w d a => exact .instr rfl (hset hi)
  | alu op d a b => exact .instr rfl (hset hi).flags
  | cmp a b => exact .instr rfl (Core.Frame.refl 0 [] k).flags
  | call c f =>
    match c, f, hi with
    | .always, .extern_ e, hi =>
      have he : e ≠ .exit := by simpa [Instr.isMild] using hi
      exact .call_lib he fun w => hlib.frame hk e w
  | _ => cases hi

theorem does_mild (hlib : S.lib.Lawful need) {is : List Instr} (his : ∀ i ∈ is, i.isMild = true)
    (hk : Library.CanCall need k) : S.Does (is.map .instr) k (Core.Frame 0 [] k) := by
  induction is generalizing k with
  | nil => exact .nil (.refl 0 [] k)
  | cons i is ih =>
    obtain ⟨hi, his⟩ := List.forall_mem_cons.1 his
    refine (does_instr_mild hlib hi hk).seq fun k1 hf => ?_
    have hsp : k1.sp = k.sp := by rw [Core.sp, hf.sp (by simp), Core.sp]
    exact (ih his ⟨hsp ▸ hk.aligned, hsp ▸ hk.room⟩).weaken fun k2 hf2 => hf.trans hf2 (by simp)

theorem tells_routine (hlib : S.lib.Lawful need) (hr : S.Provides r) (inner : Nat → List Instr) (hbody : ∀ m, r.body m
      = Routine.enter :: inner m ++ [Routine.leave]) (hmild : ∀ m, ∀ i ∈ inner m, i.isMild = true)
    (haligned : k.sp % 8 = 0) (hroom : need + 8 ≤ k.sp) :
    S.Tells [.instr (.call .always (.label (.routine r)))] k (r.event? (k.reg .r0)).toList (Core.Frame 0 [] k) := by
  obtain ⟨p, m, hfind, hhas⟩ := hr
  rw [hbody, List.map_append, List.map_cons] at hhas
  intro n tr hn
  refine (Runs.step (next_call hn.head rfl hfind) ?_).le (Nat.zero_le 1)
  refine (Runs.step (next_label hhas.head) ?_).le (Nat.zero_le 1)
  obtain ⟨k1, hk1, he, hleave⟩ := Frame.enter S.image.address (w := S.image.place (n + 1)) (k := k)
    (show 0 + 8 ≤ k.sp by omega)
  have hsp : k1.sp = k.sp - 8 := by
    simp only [Core.sp] at hroom ⊢
    rw [he.sp, BitVec.toNat_sub]
    simp only [Core.set_reg, reduceCtorEq, if_false, BitVec.toNat_ofNat]
    omega
  have hinner : S.Does (Line.instr Routine.enter :: (inner m).map .instr) (k.set .lr (S.image.place (n + 1)))
      (Core.Frame 0 [] k1) := by
    refine .cons rfl ?_
    rw [hk1]
    exact does_mild hlib (hmild m) ⟨by omega, by omega⟩
  refine (hinner _ _ hhas.tail.left).seq ?_
  rintro ⟨k2, q, tr'⟩ ⟨rfl, rfl, hf⟩
  obtain ⟨hback, hframe, -⟩ := hleave hf
  have hlen : n + 1 ≤ S.image.code.length := (List.getElem?_eq_some_iff.1 hn.head).1
  refine (Runs.step (next_return (m := n + 1) hhas.tail.right.head rfl ?_) (.here ⟨rfl, rfl, hframe⟩)).le
    (Nat.zero_le 1)
  show S.image.position (k2.mem.load .word (k2.reg .sp + 4#32)) = _
  rw [hback, S.image.position_place _ hlen]

theorem tells_printer (hlib : S.lib.Lawful need) (hr : S.Provides r)
    (hprint : r ∈ [.printInt, .printBool, .printChar, .printLn]) (haligned : k.sp % 8 = 0) (hroom : need + 8 ≤ k.sp) :
    S.Tells [.instr (.call .always (.label (.routine r)))] k (r.event? (k.reg .r0)).toList (Core.Frame 0 [] k) := by
  refine tells_routine hlib hr (fun m => (r.body m).tail.dropLast) (fun m => ?_) (fun m => ?_) haligned hroom
  · simp only [List.mem_cons, List.not_mem_nil, or_false] at hprint
    rcases hprint with rfl | rfl | rfl | rfl <;> rfl
  · simp only [List.mem_cons, List.not_mem_nil, or_false] at hprint
    rcases hprint with rfl | rfl | rfl | rfl <;>
      simp [Routine.body, Routine.printWith, Routine.chars, Routine.flush, Routine.lib, Routine.enter, Routine.leave,
        Instr.isMild, volatile]

end System

namespace Context

variable {C : Context} {k : Core}

theorem tells_callLines {depth : Int} {r : Routine} (hk : C.Ready depth 16 k) (hr : C.system.Provides r)
    (hprint : r ∈ [.printInt, .printBool, .printChar, .printLn]) :
    C.system.Tells (callLines depth .always (.label (.routine r))) k (r.event? (k.reg .r0)).toList
      (Core.Frame 0 [] k) := by
  obtain ⟨h0, h7, hmod⟩ := Gen.padding_spec depth
  obtain ⟨n, hn⟩ := Int.eq_ofNat_of_zero_le h0
  have htop := C.aligned
  rw [callLines, hn, Int.toNat_natCast]
  set k1 := k.set .sp (k.reg .sp - BitVec.ofNat 32 n) with hk1
  have hlow : k1.reg .sp = k.reg .sp - BitVec.ofNat 32 n := by rw [hk1, Core.set_reg, if_pos rfl]
  obtain ⟨hready, hsp⟩ := (hk.le (n := 9 + n) (by omega)).deeper hlow
  have hd := hready.depth
  have hroom := hready.room
  have hcall := System.tells_printer C.lawful hr hprint (k := k1) (by omega) (by omega)
  refine .after (System.does_sub n) ?_
  rintro _ rfl
  refine hcall.does fun k2 hf => (System.does_add n).weaken ?_
  rintro _ rfl
  rw [hf.sp (by simp), hlow, BitVec.sub_add_cancel]
  refine ⟨fun q hq hv => ?_, fun a ha => hf.mem a (by omega)⟩
  rw [Core.set_reg]
  split_ifs with hq'
  · rw [hq']
  · rw [hf.regs q hq hv, hk1, Core.set_reg, if_neg hq']

end Context

end Arm

end Wacc
