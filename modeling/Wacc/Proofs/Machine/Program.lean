/-
  Code for functions and for the main program.

  The code is generated once; what it does is shown for every stack pointer with which control gets there.
-/
import Wacc.Proofs.Machine.Stat
import Wacc.Proofs.Semantics.Control

namespace Wacc

open Reference Arm

namespace Arm

variable {T : Table} {S : System}

/-- No routine and no string that is known is lost. -/
structure Stage.Extends (s s' : Stage) : Prop where
  used : ∀ r ∈ s.used, r ∈ s'.used
  shared : ∀ t n, s.shared.lookup t = some n → s'.shared.lookup t = some n

namespace Stage.Extends

variable {s s' s'' : Stage}

theorem refl (s : Stage) : s.Extends s := ⟨fun _ h => h, fun _ _ h => h⟩

theorem trans (h : s.Extends s') (h' : s'.Extends s'') : s.Extends s'' :=
  ⟨fun r hr => h'.used r (h.used r hr), fun t n ht => h'.shared t n (h.shared t n ht)⟩

end Stage.Extends

theorem Stage.Shift.extends {s s' : Stage} {j : Int} (h : s.Shift j s') : s.Extends s' := ⟨h.used, h.shared⟩

namespace Context

variable {C : Context} {p : Program} {f : Func} {s s' : Stage} {N B : Nat} {out : List Line}

theorem Covers.of_extends (h : C.Covers s') (hs : s.Extends s') : C.Covers s :=
  ⟨fun r hr => h.routines r (hs.used r hr), fun t n ht => h.consts t n (hs.shared t n ht)⟩

/-! ## Functions -/

/-- The code of a function: it saves the return address, and then does what the function does. -/
def Function (C : Context) (p : Program) (B : Nat) (f : Func) (out : List Line) : Prop :=
  ∃ r s o, p.table.scope? f.scope = some r ∧ s.depth = 4 ∧ s.entry = [(f.scope, -(r.footprint.toNat : Int))] ∧
    out = .label (.func f.name) :: .instr (.push [.lr]) :: (o ++ [.pool]) ∧
    C.Simulates p B (Datum.Is f.result) s (fun H => f.body.exec H) o

theorem function_emits (hC : C.Hosts p) (hN : Roomy p.table N B) (hf : f ∈ p.funcs) (hn : f.body.size ≤ N)
    (hfine : Fine (Datum.Is f.result) f.body.parts) :
    Gen.Wp (Gen.function f) (fun _ out s' => s.Extends s' ∧ (C.Covers s' → C.Function p B f out)) p.table s := by
  have htyped := hC.typed.funcs f hf
  obtain ⟨g, hg, -, -, -, hscope⟩ := htyped.signature
  obtain ⟨r, hr, hk, -⟩ := hC.typed.wf.funcs f.id g hg
  rw [hscope] at hr
  obtain ⟨hb, hbody⟩ := htyped.body
  refine (Gen.wp_bind_pure (Gen.footprint_eq hr)).2 (Gen.wp_update.2 (Gen.wp_bind_label.2 ?_))
  set s0 : Stage := { s with depth := 0, entry := [(f.scope, -(r.footprint.toNat : Int))] } with hs0
  refine Gen.Wp.seq (Emits.pushReg (C := C) (s := s0)) fun _ o1 s1 ⟨hs1, ho1⟩ => ?_
  have hat1 : Gen.At p.table f.scope s1 := by
    unfold Gen.At
    rw [hs1.depth, hs1.entry]
    exact Frames.func hr hk
  have hblock : C.Emits p.table s1 (Gen.block f.body) 0
      (C.Simulates p B (Datum.Is f.result) s1 fun H => f.body.exec H) := by
    cases hfb : f.body with
    | mk site i b =>
      rw [hfb] at hb hbody hn hfine
      exact Emits.block hC hN hb (stat_simulates hC hN hbody) hn hfine site hat1
  refine Gen.Wp.seq hblock fun _ o2 s2 ⟨hs2, ho2⟩ => Gen.wp_lines.2 ?_
  have hext : s.Extends s0 := ⟨fun _ h => h, fun _ _ h => h⟩
  refine ⟨hext.trans (hs1.trans hs2).extends, fun hc => ⟨r, s1, o2, hr, hs1.depth, hs1.entry, ?_, ho2 hc⟩⟩
  rw [ho1 (hc.back hs2)]
  rfl

theorem functions_emits (hC : C.Hosts p) (hN : Roomy p.table N B) {fs : List Func} (hfs : ∀ f ∈ fs, f ∈ p.funcs)
    (hn : ∀ f ∈ fs, f.body.size ≤ N) (hfine : ∀ f ∈ fs, Fine (Datum.Is f.result) f.body.parts) :
    Gen.Wp (Gen.functions fs) (fun _ out s' => s.Extends s' ∧
      (C.Covers s' → ∀ f ∈ fs, ∃ o, o <:+: out ∧ C.Function p B f o)) p.table s := by
  induction fs generalizing s with
  | nil => exact Gen.wp_pure.2 ⟨.refl s, fun _ => nofun⟩
  | cons f fs ih =>
    obtain ⟨hf, hfs⟩ := List.forall_mem_cons.1 hfs
    obtain ⟨hfn, hn⟩ := List.forall_mem_cons.1 hn
    obtain ⟨hffine, hfine⟩ := List.forall_mem_cons.1 hfine
    refine (function_emits hC hN hf hfn hffine).seq fun _ o1 s1 ⟨hs1, ho1⟩ => ?_
    refine (ih hfs hn hfine).weaken fun _ o2 s2 ⟨hs2, ho2⟩ => ⟨hs1.trans hs2, fun hc => ?_⟩
    refine List.forall_mem_cons.2 ⟨⟨o1, List.infix_append' [] o1 o2, ho1 (hc.of_extends hs2)⟩, fun g hg => ?_⟩
    obtain ⟨o, hinfix, ho⟩ := ho2 hc g hg
    exact ⟨o, hinfix.trans (List.suffix_append o1 o2).isInfix, ho⟩

/-! ## The main program -/

def Main (C : Context) (p : Program) (B : Nat) (out : List Line) : Prop :=
  ∃ r s s₁ o, s.depth = 4 ∧ s.entry = [] ∧ Inside p.table Table.global r s s₁ ∧
    out = .label .main :: .instr (.push [.lr]) ::
      ((Gen.stepsOf .sub r.footprint.toNat).map .instr ++ (o ++ (Gen.stepsOf .add r.footprint.toNat).map .instr) ++
        [.instr (.number .r0 0), .instr (.pop [.pc]), .pool]) ∧
    C.Simulates p B (fun _ => False) s₁ (fun H => p.body.exec H) o

theorem mainBody_emits (hC : C.Hosts p) (hN : Roomy p.table N B) (hn : p.body.size ≤ N)
    (hfine : Fine (fun _ => False) p.body.parts) (hd : s.depth = 0) (he : s.entry = []) :
    Gen.Wp (Gen.mainBody p.body) (fun _ out s' => s.Extends s' ∧ (C.Covers s' → C.Main p B out)) p.table s := by
  obtain ⟨r, hr, -⟩ := hC.typed.wf.root
  have hshape : Gen.mainBody p.body = (do
      Gen.label .main
      Gen.pushReg .lr
      (do Gen.enter Table.global; Gen.stat p.body; Gen.leave Table.global)
      Gen.emit (.number .r0 0)
      Gen.popReturn
      Gen.lines [.pool]) := by
    simp only [Gen.mainBody, Gen.bind_assoc]
  rw [hshape]
  refine Gen.wp_bind_label.2 (Gen.Wp.seq (Emits.pushReg (C := C)) ?_)
  rintro _ o1 s1 ⟨hs1, ho1⟩
  have hd1 : s1.depth = 4 := by rw [hs1.depth, hd]; rfl
  have he1 : s1.entry = [] := hs1.entry.trans he
  have hscope := Emits.within (C := C) (s := s1) (x := Gen.stat p.body) hr (by rw [he1]; rfl) fun s2 hin =>
    stat_simulates hC hN hC.typed.body s2 (by
      unfold Gen.At
      rw [hin.depth, hin.entry, hd1, he1]
      exact Frames.main hr) hn hfine
  refine Gen.Wp.seq hscope ?_
  rintro _ o2 s2 ⟨hs2, ho2⟩
  refine Gen.wp_bind_emit.2 ((Gen.popReturn_eq (by rw [hs2.depth, hd1]; rfl)).seq ?_)
  rintro _ _ s3 ⟨rfl, rfl⟩
  refine Gen.wp_lines.2 ⟨(hs1.trans hs2).extends, fun hc => ?_⟩
  obtain ⟨s2, o, hin, rfl, hsim⟩ := ho2 hc
  refine ⟨r, s1, s2, o, hd1, he1, hin, ?_, hsim⟩
  rw [ho1 (hc.back hs2)]
  rfl

/-! ## Routines and programs -/

theorem routines_emits {rs : List Routine} :
    Gen.Wp (Gen.routines rs) (fun _ out s' => s'.used = s.used ∧ s'.shared = s.shared ∧
      ∀ r ∈ rs, ∃ m, (.label (.routine r) :: (r.body m).map .instr) <:+: out) T s := by
  induction rs generalizing s with
  | nil => exact Gen.wp_pure.2 ⟨rfl, rfl, nofun⟩
  | cons r rs ih =>
    have hroutine : Gen.Wp (Gen.routine r) (fun _ out s' => s'.used = s.used ∧ s'.shared = s.shared ∧
        ∃ m, out = .label (.routine r) :: (r.body m).map .instr) T s :=
      Gen.wp_stage.2 (Gen.wp_update.2 (Gen.wp_bind_label.2 (Gen.wp_lines.2 ⟨rfl, rfl, _, rfl⟩)))
    refine hroutine.seq ?_
    rintro _ _ s1 ⟨hused, hshared, m, rfl⟩
    refine ih.weaken fun _ o2 s2 ⟨hused₂, hshared₂, ho2⟩ => ⟨hused₂.trans hused, hshared₂.trans hshared, ?_⟩
    refine List.forall_mem_cons.2 ⟨⟨m, List.infix_append' [] _ o2⟩, fun q hq => ?_⟩
    obtain ⟨m', hinfix⟩ := ho2 q hq
    exact ⟨m', hinfix.trans (List.suffix_append _ o2).isInfix⟩

/-- The code of a program: the main program, functions, and the routines that are in use. -/
structure Whole (C : Context) (p : Program) (B : Nat) (out : List Line) : Prop where
  main : ∃ o, o <:+: out ∧ C.Main p B o
  funcs : ∀ f ∈ p.funcs, ∃ o, o <:+: out ∧ C.Function p B f o

theorem program_emits (hC : C.Hosts p) (hN : Roomy p.table N B) (hn : p.body.size ≤ N)
    (hfine : Fine (fun _ => False) p.body.parts) (hfn : ∀ f ∈ p.funcs, f.body.size ≤ N)
    (hffine : ∀ f ∈ p.funcs, Fine (Datum.Is f.result) f.body.parts) :
    Gen.Wp (Gen.program p) (fun _ out s' => (C.Covers s' → C.Whole p B out) ∧
      ∀ r ∈ s'.used, ∃ m, (.label (.routine r) :: (r.body m).map .instr) <:+: out) p.table {} := by
  refine (mainBody_emits hC hN hn hfine rfl rfl).seq fun _ o1 s1 ⟨_, ho1⟩ => ?_
  refine (functions_emits hC hN (fun f hf => hf) hfn hffine).seq fun _ o2 s2 ⟨hs2, ho2⟩ => Gen.wp_stage.2 ?_
  refine routines_emits.weaken fun _ o3 s3 ⟨hused, hshared, ho3⟩ => ⟨fun hc => ?_, fun r hr => ?_⟩
  · have hc2 : C.Covers s2 := ⟨hused ▸ hc.routines, hshared ▸ hc.consts⟩
    refine ⟨⟨o1, List.infix_append' [] o1 _, ho1 (hc2.of_extends hs2)⟩, fun f hf => ?_⟩
    obtain ⟨o, hinfix, ho⟩ := ho2 hc2 f hf
    exact ⟨o, hinfix.trans (List.infix_append' o1 o2 o3), ho⟩
  · obtain ⟨m, hinfix⟩ := ho3 r (hused ▸ hr)
    refine ⟨m, hinfix.trans ?_⟩
    rw [← List.append_assoc]
    exact (List.suffix_append _ o3).isInfix

/-! ## Calls -/

theorem has_of_infix {I : Image} {o : List Line} (h : o <:+: I.code) : ∃ n, I.Has n o := by
  obtain ⟨l1, l2, h⟩ := h
  refine ⟨l1.length, fun i l hl => ?_⟩
  obtain ⟨hi, rfl⟩ := List.getElem?_eq_some_iff.1 hl
  rw [← h, List.append_assoc, List.getElem?_append_right (by omega), Nat.add_sub_cancel_left,
    List.getElem?_append_left hi, hl]

theorem Function.meets (hC : C.Hosts p) (hf : C.Function p B f out) (hout : out <:+: C.system.image.code)
    (hfalls : f.body.falls = false) {n d pos : Nat} {k : Core} {r : Scope} {ds : List Datum} {tr : List Event}
    (hans : Answers C.system C.need p C.const B n) (hneed : (C.need + (d * B + B) : Int) ≤ C.top)
    (hcode : C.system.image.code[pos]? = some (.instr (.call .always (.label (.func f.name)))))
    (hk : (k.sp : Int) = C.top) (hpassed : Passed p.table f r ds k) (hB : 4 ≤ B) :
    C.system.Meets (n + 1) ⟨k, pos, tr⟩ (f.apply (p.host C.const n d) ds) fun x s' =>
      s'.pc = pos + 1 ∧ Returned f r.footprint.toNat k x s'.toCore := by
  obtain ⟨r', s, o, hr, hdepth, hentry, rfl, hsim⟩ := hf
  cases hpassed.scope.symm.trans hr
  obtain ⟨q, hhas⟩ := has_of_infix hout
  refine .step (System.next_call hcode rfl (hC.once.find hhas.head)) (List.append_nil _) ?_
  refine .next (System.next_label hhas.head) rfl ?_
  have hd : (0 : Int) ≤ d * B := by positivity
  set k0 := k.set .lr (C.system.image.place (pos + 1)) with hk0
  have hsp0 : k0.sp = k.sp := rfl
  refine .does (System.does_push (k := k0) (r := .lr) (by omega)) (hhas.tail.left (o := [_])) fun k1 hpush => ?_
  have hsp1 : k1.sp + 4 = k.sp := by
    simp only [Core.sp] at hk hsp0 ⊢
    rw [hpush.sp, BitVec.toNat_sub, BitVec.toNat_ofNat]
    omega
  have hmem1 : ∀ a : Word, k.sp ≤ a.toNat → k1.mem a = k.mem a := fun a ha => hpush.mem a (.inr ha)
  have howns : ∀ {x v base}, s.Owns p.table x v base → base = -(r.footprint.toNat : Int) ∧
      v.type.size.toNat ≤ v.offset.toNat ∧ v.offset.toNat ≤ r.footprint.toNat := by
    intro x v base hx
    have he := hx.entry
    rw [hentry] at he
    obtain ⟨hscope, rfl⟩ | he := lookup_entry he
    · obtain ⟨r', hr', hsize, hoff⟩ := hC.typed.wf.room x v hx.var
      rw [hscope, hr, Option.some.injEq] at hr'
      exact ⟨rfl, hsize, hr' ▸ hoff⟩
    · cases he
  have hlive : C.Live p.table s (.ofArgs f.params ds) k1 := by
    refine ⟨by omega, fun o base ho => ?_, fun x v base y hx hy => ?_⟩
    · rw [hentry] at ho
      obtain ⟨-, rfl⟩ | ho := lookup_entry ho
      · have := hpassed.roof
        omega
      · cases ho
    · obtain ⟨rfl, hsize, hoff⟩ := howns hx
      obtain ⟨hload, his⟩ := hpassed.vars x v y hx.var hy
      have hroof := hpassed.roof
      have hpos := Lookup.Place.size_pos v.type
      have hslot : C.slot v (-(r.footprint.toNat : Int)) =
          BitVec.ofInt 32 (k.sp + r.footprint.toNat - v.offset.toNat) := by
        rw [slot]
        congr 1
        omega
      have hto : (BitVec.ofInt 32 (k.sp + r.footprint.toNat - v.offset.toNat)).toNat =
          k.sp + r.footprint.toNat - v.offset.toNat := by
        rw [BitVec.toNat_ofInt]
        omega
      refine ⟨?_, his⟩
      rw [hslot, ← hload]
      refine Mem.load_congr ?_ fun a ha _ => hmem1 a (by omega)
      rw [hto, Gen.bytes_widthOf]
      omega
  have hkept : ∀ a : Word, k1.sp ≤ a.toNat → a.toNat < k.sp ∨ k.sp + r.footprint.toNat ≤ a.toNat →
      C.Kept p.table s k1 a := by
    refine fun a ha hout => ⟨ha, fun x v base hx => ?_⟩
    obtain ⟨rfl, hsize, hoff⟩ := howns hx
    unfold home
    omega
  refine (hsim n d _ k1 _ _ hans hneed hhas.tail.tail.left hlive).bind ?_
  rintro m ⟨k2, pc, tr2⟩ hres hdone
  cases m with
  | next σ' =>
    rw [Block.falls_of_next hres] at hfalls
    cases hfalls
  | ret x =>
    obtain ⟨his, hleft⟩ := hdone
    have hsp2 : k2.reg .sp = k1.reg .sp := by
      have := hleft.sp
      apply BitVec.eq_of_toNat_eq
      simp only [Core.sp] at *
      omega
    refine .next (System.next_return (m := pos + 1) hleft.pop rfl ?_) rfl (.pure ⟨rfl, ?_⟩)
    · have hlen : pos + 1 ≤ C.system.image.code.length := (List.getElem?_eq_some_iff.1 hcode).1
      have hback : k2.mem.load .word (k1.reg .sp) = k1.mem.load .word (k1.reg .sp) := by
        refine Mem.load_congr ?_ fun a ha ha' => hleft.mem a (hkept a ha (.inl ?_))
        · simp only [Width.bytes, Core.sp] at *
          omega
        · simp only [Width.bytes, Core.sp] at *
          omega
      show C.system.image.position (k2.mem.load .word (k2.reg .sp + 0#32)) = _
      rw [BitVec.add_zero, hsp2, hback, hpush.top]
      exact C.system.image.position_place _ hlen
    · have hpop : Instr.effect C.system.image.address k2 (.pop [.pc]) = k2.set .sp (k2.reg .sp + 4#32) := rfl
      rw [hpop]
      refine ⟨?_, his, ?_, fun a ha => ?_⟩
      · rw [Core.set_reg, if_neg (by decide)]
        exact hleft.value
      · rw [Core.set_reg, if_pos rfl, hsp2, hpush.sp, BitVec.sub_add_cancel]
        rfl
      · exact (hleft.mem a (hkept a (by omega) (.inr ha))).trans (hmem1 a (by omega))

end Context

/-- A scalar program is in the machine, whatever the frame of a call is. -/
structure Loaded (S : System) (need : Nat) (const : Text → Word) (p : Program) (B : Nat) : Prop where
  lawful : S.lib.Lawful need
  typed : p.Typed
  room : ∀ r, p.table.scope? Table.global = some r → 4 + r.footprint.toNat ≤ B
  falls : ∀ f ∈ p.funcs, f.body.falls = false
  hosts : ∀ C : Context, C.system = S → C.floor = 0 → C.top < 2 ^ 32 → C.Hosts p
  whole : ∀ C : Context, C.system = S → C.need = need → C.const = const → C.Hosts p → C.Whole p B S.image.code

namespace Loaded

variable {need B : Nat} {const : Text → Word} {p : Program} {k : Core}

def frame (h : Loaded S need const p B) (k : Core) (hk : k.sp % 8 = 0) : Context where
  system := S
  need := need
  floor := 0
  top := k.sp
  const := const
  lawful := h.lawful
  aligned := by omega

theorem frame_hosts (h : Loaded S need const p B) (hk : k.sp % 8 = 0) : (h.frame k hk).Hosts p :=
  h.hosts _ rfl rfl (by
    have := (k.reg .sp).isLt
    show (k.sp : Int) < 2 ^ 32
    exact_mod_cast this)

end Loaded

end Arm

end Wacc
