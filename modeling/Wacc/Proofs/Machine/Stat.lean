/-
  Code for statements does what statements do.

  Control leaves a statement at its end, or at a return: then the value is in the first register, and the
  stack pointer is at the return address.
-/
import Wacc.Proofs.Machine.Call

namespace Wacc

open Reference Arm

theorem Stat.mem_parts (s : Stat) : s ∈ s.parts := by cases s <;> simp [Stat.parts]

theorem Expr.Typed.isNull {T : Table} {sc : ScopeId} {e : Expr} (he : e.Typed T sc)
    (hscalar : ∀ x v, T.var? x = some v → v.type.isScalar = true) (hf : Typing.isFreeable e.type = true) :
    ∃ span, e = .null span := by
  have hid : ∀ id : Ident, id.Typed T sc → id.type.isScalar = true := by
    rintro id ⟨v, hv, ht, -⟩
    exact ht ▸ hscalar _ v hv
  cases he with
  | null => exact ⟨_, rfl⟩
  | @var id hi =>
    have hs := hid id hi
    rw [Expr.type] at hf
    generalize id.type = t at hs hf
    cases t <;> cases hs <;> cases hf
  | @elem _ _ id _ hi hx =>
    obtain ⟨_, _, harray, -⟩ := hx.nested
    have hs := hid id hi
    rw [harray] at hs
    cases hs
  | @unary _ op r _ hr => cases op <;> cases hr <;> cases hf
  | @binary _ op r _ _ hr => cases op <;> cases hr <;> cases hf
  | _ => cases hf

namespace Arm

variable {T : Table} {sc : ScopeId} {S : System} {k k' : Core}

theorem System.Meets.andThen {n : Nat} {s : State} {b : Behaviour Move} {f : Store → Behaviour Move}
    {P Q : Move → State → Prop} (h : S.Meets n s b P) (hnext : ∀ σ s', P (.next σ) s' → S.Meets n s' (f σ) Q)
    (hret : ∀ x s', P (.ret x) s' → Q (.ret x) s') : S.Meets n s (Reference.andThen b f) Q := by
  refine h.bind fun m s' _ hm => ?_
  cases m with
  | next σ => exact hnext σ s' hm
  | ret x => exact .pure (hret x s' hm)

theorem System.throws_freePair (hr : S.Provides .freePair) (ht : S.Provides .throwRuntime) (h0 : k.reg .r0 = 0) :
    S.Throws [.instr (.call .always (.label (.routine .freePair)))] k := by
  intro n tr hn
  obtain ⟨p, m, hfind, hhas⟩ := hr
  obtain ⟨q, -, hthrow, -⟩ := ht
  refine (Runs.step (next_call hn.head rfl hfind) ?_).le (Nat.zero_le 1)
  refine (Runs.step (next_label hhas.head) ?_).le (Nat.zero_le 1)
  have hpre : S.Does [.instr Routine.enter, .instr (.cmp .r0 (.imm 0)), .instr (.address .eq .r0 (.const m))]
      (k.set .lr (S.image.place (n + 1))) fun k' => Cond.eq.holds k'.flags = true := by
    refine .cons rfl (.cons rfl (.instr rfl ?_))
    simp [Instr.effect, Routine.enter, Core.stores, Operand.value, Cond.holds, Flags.ofSub, h0]
  have hbody : S.image.Has (p + 1) ([.instr Routine.enter, .instr (.cmp .r0 (.imm 0)),
      .instr (.address .eq .r0 (.const m))] ++ [.instr (.branch .eq (.routine .throwRuntime)),
      .instr (Routine.lib .free), .instr Routine.leave]) := hhas.tail
  refine (hpre _ _ hbody.left).seq ?_
  rintro ⟨k', _, _⟩ ⟨rfl, rfl, hflags⟩
  refine (Runs.step (next_branch hbody.right.head hflags hthrow) (.here ⟨?_, _, ?_, hthrow⟩)).le (Nat.zero_le 1)
  · simp [Label.event?, Routine.event?]
  · simp [throwing]

namespace Context

variable {C : Context} {p : Program} {s s' s₁ : Stage} {R : Datum → Prop} {B : Nat} {l : Label} {e : Expr}

structure Left (C : Context) (T : Table) (s : Stage) (k : Core) (x : Datum) (s' : State) : Prop where
  pop : C.system.image.code[s'.pc]? = some (.instr (.pop [.pc]))
  sp : (s'.sp : Int) = C.top - 4
  value : s'.reg .r0 = x.word
  mem : ∀ a, C.Kept T s k a → s'.mem a = k.mem a

/-- What a statement has done that starts with the core `k` and ends at a line; values that are returned
    satisfy `R`. -/
def Done (C : Context) (T : Table) (s : Stage) (R : Datum → Prop) (k : Core) (stop : Nat) : Move → State → Prop
  | .next σ, s' => s'.pc = stop ∧ C.Live T s σ s'.toCore ∧ C.Stays T s k s'.toCore
  | .ret x, s' => R x ∧ C.Left T s k x s'

theorem Kept.stays {a : Word} (h : C.Kept T s k a) (hs : C.Stays T s k k') : C.Kept T s k' a :=
  ⟨by rw [Core.sp, hs.sp]; exact h.1, h.2⟩

theorem Done.after {stop : Nat} {m : Move} {t : State} (hs : C.Stays T s k k') (h : C.Done T s R k' stop m t) :
    C.Done T s R k stop m t := by
  cases m with
  | next σ => exact ⟨h.1, h.2.1, hs.trans h.2.2⟩
  | ret x =>
    obtain ⟨hR, hleft⟩ := h
    exact ⟨hR, hleft.pop, hleft.sp, hleft.value, fun a ha => (hleft.mem a (ha.stays hs)).trans (hs.mem a ha)⟩

theorem Done.shift {stop : Nat} {m : Move} {t : State} (hs : s.Shift 0 s') (h : C.Done T s' R k stop m t) :
    C.Done T s R k stop m t := by
  cases m with
  | next σ => exact ⟨h.1, h.2.1.unshift hs, h.2.2.shift hs⟩
  | ret x =>
    obtain ⟨hR, hleft⟩ := h
    refine ⟨hR, hleft.pop, hleft.sp, hleft.value, fun a ha => hleft.mem a ⟨ha.1, fun x v base hx => ?_⟩⟩
    exact ha.2 x v base ⟨hx.var, hs.entry ▸ hx.entry⟩

theorem Done.goes {n stop stop' : Nat} {st : State} {b : Behaviour Move}
    (h : C.system.Meets n st b (C.Done T s R k stop))
    (hgo : ∀ k' tr, C.system.Runs 0 ⟨k', stop, tr⟩ (· = ⟨k', stop', tr⟩)) :
    C.system.Meets n st b (C.Done T s R k stop') := by
  refine h.andRuns ?_
  rintro m ⟨k', pc, tr⟩ - hm
  cases m with
  | next σ =>
    obtain ⟨rfl, hlive, hstays⟩ := hm
    refine (hgo k' tr).weaken ?_
    rintro _ rfl
    exact ⟨rfl, rfl, hlive, hstays⟩
  | ret x => exact .here ⟨rfl, hm⟩

theorem Done.turn {n pos inside back out stop : Nat} {tr : List Event} {σ : Store} {test : Store → Behaviour Bool}
    {body again : Store → Behaviour Move}
    (htest : C.system.Meets n ⟨k, pos, tr⟩ (test σ) fun b s' =>
      s'.pc = (if b then inside else out) ∧ C.Live T s σ s'.toCore ∧ C.Stays T s k s'.toCore)
    (hbody : ∀ k' tr', C.Live T s σ k' → C.system.Meets n ⟨k', inside, tr'⟩ (body σ) (C.Done T s R k' back))
    (hagain : ∀ σ' k' tr', C.Live T s σ' k' →
      C.system.Meets n ⟨k', back, tr'⟩ (again σ') (C.Done T s R k' stop))
    (hout : C.system.image.code[out]? = some (.label l)) (hstop : stop = out + 1) :
    C.system.Meets n ⟨k, pos, tr⟩ (Reference.turn test body again σ) (C.Done T s R k stop) := by
  refine htest.bind ?_
  rintro holds ⟨k1, _, tr1⟩ - ⟨rfl, hlive₁, hstays⟩
  cases holds with
  | true =>
    refine System.Meets.andThen (hbody k1 tr1 hlive₁) ?_ fun x s' hdone => Done.after (m := .ret x) hstays hdone
    rintro σ' ⟨k2, _, tr2⟩ ⟨rfl, hlive₂, hstays₂⟩
    exact (hagain σ' k2 tr2 hlive₂).weaken fun m t _ hdone => hdone.after (hstays.trans hstays₂)
  | false => exact .next (System.next_label hout) rfl (.pure ⟨hstop.symm, hlive₁, hstays⟩)

def Simulates (C : Context) (p : Program) (B : Nat) (R : Datum → Prop) (s : Stage)
    (b : Host → Store → Behaviour Move) (out : List Line) : Prop :=
  ∀ (n d : Nat) σ k pos tr, Answers C.system C.need p C.const B n → (C.need + (d * B + B) : Int) ≤ C.top →
    C.system.image.Has pos out → C.Live p.table s σ k →
    C.system.Meets n ⟨k, pos, tr⟩ (b (p.host C.const n d) σ) (C.Done p.table s R k (pos + out.length))

namespace Simulates

variable {b b' : Host → Store → Behaviour Move} {o o' : List Line}

theorem shift (h : C.Simulates p B R s' b o) (hs : s.Shift 0 s') : C.Simulates p B R s b o :=
  fun n d σ k pos tr hans hneed hhas hlive =>
    (h n d σ k pos tr hans hneed hhas (hlive.shift hs)).weaken fun _ _ _ hdone => hdone.shift hs

theorem skip : C.Simulates p B R s (fun _ σ => return .next σ) [] :=
  fun _ _ _ _ _ _ _ _ _ hlive => .pure ⟨rfl, hlive, .refl⟩

theorem seq (h : C.Simulates p B R s b o) (h' : C.Simulates p B R s b' o') :
    C.Simulates p B R s (fun H σ => andThen (b H σ) (b' H)) (o ++ o') := by
  intro n d σ k pos tr hans hneed hhas hlive
  refine (h n d σ k pos tr hans hneed hhas.left hlive).andThen ?_ fun x s' hret => hret
  rintro σ' ⟨k', _, tr'⟩ ⟨rfl, hlive', hstays⟩
  refine (h' n d σ' k' _ tr' hans hneed hhas.right hlive').weaken fun m t _ hdone => ?_
  rw [List.length_append, ← Nat.add_assoc]
  exact hdone.after hstays

theorem label {l : Label} (h : C.Simulates p B R s b o) : C.Simulates p B R s b (o ++ [.label l]) := by
  intro n d σ k pos tr hans hneed hhas hlive
  refine Done.goes (h n d σ k pos tr hans hneed hhas.left hlive) fun k' tr' => ?_
  rw [List.length_append, List.length_singleton, ← Nat.add_assoc]
  refine (System.Runs.step (System.next_label hhas.right.head) (.here ?_)).le (Nat.zero_le 1)
  rfl

end Simulates

/-! ## Steps of the generator -/

theorem Emits.label {l : Label} : C.Emits T s (Gen.label l) 0 fun out => out = [.label l] :=
  Gen.wp_label.2 ⟨.refl s, fun _ => rfl⟩

theorem Emits.newPlace {f : Label → Gen Unit} {j : Int} {sem : List Line → Prop}
    (h : ∀ l s', s.Shift 0 s' → C.Emits T s' (f l) j sem) : C.Emits T s (Gen.newPlace >>= f) j sem := by
  have hshift : s.Shift 0 { s with places := s.places + 1 } := ⟨(add_zero _).symm, rfl, fun _ h => h, fun _ _ h => h⟩
  refine Gen.wp_newPlace.2 (Gen.Wp.weaken (h _ _ hshift) fun _ out s2 ⟨hs, hsem⟩ => ⟨?_, hsem⟩)
  exact (hshift.trans hs).cast (zero_add j)

structure Handed (t : Ty) (k : Core) (x : Datum) (k' : Core) : Prop where
  value : k'.reg .r0 = x.word
  has : ∃ m floor limit, x.Has m floor limit t
  frame : Core.Frame 0 pool k k'

theorem Emits.argument (hC : C.Hosts p) (he : e.Typed p.table sc) (hat : Around p.table sc s)
    (hB : s.depth + 8 * e.size + 64 ≤ B) :
    C.Emits p.table s (Gen.argument e) 0 fun out => ∀ (n d : Nat) σ k pos tr,
      (C.need + (d * B + B) : Int) ≤ C.top → C.system.image.Has pos out → C.Live p.table s σ k →
      C.system.Meets n ⟨k, pos, tr⟩ (e.run (p.host C.const n d) σ) fun x s' =>
        s'.pc = pos + out.length ∧ Handed e.type k x s'.toCore := by
  refine (((Emits.expr hC he hat hB).seq fun s₁ _ => Emits.copy).cast (add_zero 0)).weaken ?_
  rintro _ ⟨s₁, o, _, -, rfl, hexpr, rfl⟩ n d σ k pos tr hneed hhas hlive
  refine (hexpr n d σ k pos tr hneed hhas.left hlive).andRuns ?_
  rintro x ⟨k1, _, tr1⟩ - ⟨rfl, hx⟩
  have hcopy : C.system.Does [.instr (.mov .always .r0 (.reg Gen.result))] k1 (Handed e.type k x) := by
    refine .instr rfl ⟨?_, hx.has, hx.frame.set (.inr (by decide))⟩
    simpa [Instr.effect, Cond.holds, Operand.value] using hx.value
  refine (hcopy _ tr1 hhas.right).weaken fun s' h => ⟨h.2.1, ?_, h.2.2⟩
  rw [h.1, List.length_append, Nat.add_assoc]

theorem Emits.jumpUnless (hC : C.Hosts p) {l : Label} (he : e.Typed p.table sc) (ht : e.type = .bool)
    (hat : Around p.table sc s) (hB : s.depth + 8 * e.size + 64 ≤ B) :
    C.Emits p.table s (Gen.jumpUnless e l) 0 fun out => ∀ (n d : Nat) σ k pos tr m,
      (C.need + (d * B + B) : Int) ≤ C.top → C.system.image.Has pos out → C.Live p.table s σ k →
      C.system.image.find l = some m →
      C.system.Meets n ⟨k, pos, tr⟩ (e.test (p.host C.const n d) σ) fun b s' =>
        s'.pc = (if b then pos + out.length else m) ∧ C.Live p.table s σ s'.toCore ∧ C.Stays p.table s k s'.toCore := by
  refine (((Emits.expr hC he hat hB).seq fun s₁ _ => Emits.emit.seq fun s2 _ => Emits.emit).cast
    (by ring)).weaken ?_
  rintro _ ⟨s₁, o, _, -, rfl, hexpr, s2, _, _, -, rfl, rfl, rfl⟩ n d σ k pos tr m hneed hhas hlive hfind
  refine (hexpr n d σ k pos tr hneed hhas.left hlive).bind ?_
  rintro x ⟨k1, _, tr1⟩ - ⟨rfl, hx⟩
  obtain ⟨b, rfl⟩ : ∃ b, x = .bool b := by
    obtain ⟨_, _, _, hhas⟩ := hx.has
    rw [ht] at hhas
    cases hhas
    exact ⟨_, rfl⟩
  set k2 : Core := { k1 with flags := .ofSub (k1.reg Gen.result) 0 } with hk2
  refine .does (R := (· = k2)) (.instr rfl rfl) hhas.right.left ?_
  rintro _ rfl
  have hframe : Core.Frame 0 pool k k2 := hx.frame.flags
  have hlive₂ : C.Live p.table s σ k2 := hlive.frame hC.typed.wf hat hframe (by decide)
  have hstays : C.Stays p.table s k k2 := .frame hframe (by decide)
  have hz : Cond.eq.holds k2.flags = !b := by
    show (k1.reg Gen.result == 0#32) = !b
    rw [hx.value]
    cases b <;> rfl
  have hcode := hhas.right.right.head
  cases b with
  | true => exact .next (System.next_branch_skip hcode hz) rfl (.pure ⟨by simp [Nat.add_assoc], hlive₂, hstays⟩)
  | false => exact .next (System.next_branch hcode hz hfind) rfl (.pure ⟨rfl, hlive₂, hstays⟩)

theorem Emits.andThen {x y : Gen Unit} {b b' : Host → Store → Behaviour Move}
    (hx : C.Emits T s x 0 (C.Simulates p B R s b))
    (hy : ∀ s₁, s.Shift 0 s₁ → C.Emits T s₁ y 0 (C.Simulates p B R s₁ b')) :
    C.Emits T s (do x; y) 0 (C.Simulates p B R s fun H σ => Reference.andThen (b H σ) (b' H)) := by
  refine ((hx.seq hy).cast (add_zero 0)).weaken ?_
  rintro _ ⟨s₁, o, o', hs1, rfl, hsim, hsim'⟩
  exact hsim.seq (hsim'.shift hs1)

/-! ## Single statements -/

theorem Emits.setVar (hC : C.Hosts p) {x : VarId} {w : Variable} {v : Value} (hx : p.table.var? x = some w)
    (henc : p.table.Encloses sc w.scope) (hv : v.Typed p.table sc) (hformed : v.Formed)
    (hacc : w.type.accepts v.type = true) (hat : Around p.table sc s) (hB : s.depth + 8 * v.size + 64 ≤ B) :
    C.Emits p.table s (do Gen.value v pool; Gen.storeVar Gen.result x) 0
      (C.Simulates p B R s fun H σ => do return .next (σ.set x (← v.run H σ))) := by
  have hscalar := hC.vars x w hx
  have htype := Ty.eq_of_accepts hacc hscalar
  refine (((Emits.value hC hv hformed (htype ▸ hscalar) hat hB).seq fun s₁ hs1 =>
    Emits.stores hC.typed.wf (hat.shift hs1 le_rfl) hx henc (by decide) hscalar).cast (add_zero 0)).weaken ?_
  rintro _ ⟨s₁, o, o', hs1, rfl, hvalue, hstore⟩ n d σ k pos tr hans hneed hhas hlive
  refine (hvalue n d σ k pos tr hans hneed hhas.left hlive).bind ?_
  rintro y ⟨k1, _, tr1⟩ - ⟨rfl, hy⟩
  refine .does (hstore σ k1 y (hy.live.shift hs1) hy.value (htype ▸ hy.is)) hhas.right fun k2 ⟨hlive₂, hstays₂⟩ => ?_
  refine .pure ⟨?_, hlive₂.unshift hs1, hy.stays.trans (hstays₂.shift hs1)⟩
  rw [List.length_append, Nat.add_assoc]

theorem Emits.prints {r : Routine} (hr : r ∈ [.printInt, .printBool, .printChar, .printLn]) :
    C.Emits T s (Gen.callRoutine .always r) 0 fun out => ∀ n k pos tr w, r.event? (k.reg .r0) = some w.event →
      C.system.image.Has pos out → C.Ready s.depth 16 k → C.system.Meets n ⟨k, pos, tr⟩ (Behaviour.print w) fun _ s' =>
        s'.pc = pos + out.length ∧ Core.Frame 0 [] k s'.toCore := by
  refine Emits.callRoutine.weaken ?_
  rintro _ ⟨rfl, hprov⟩ n k pos tr w hw hhas hready
  have htells := tells_callLines hready (hprov r (by simp)) hr
  rw [hw] at htells
  exact System.Tells.meets htells hhas

theorem printer_mem {t : Ty} (ht : t.isScalar = true) :
    Gen.printer t ∈ [.printInt, .printBool, .printChar, .printLn] := by
  cases t with
  | int | bool | char => simp [Gen.printer]
  | _ => cases ht

theorem printer_event {t : Ty} {x : Datum} (hx : x.Is t) (ht : t.isScalar = true) :
    (Gen.printer t).event? x.word = some (Output.value x).event := by
  cases hx (fun _ => 0) 0 0 with
  | int | bool | char => rfl
  | _ => cases ht

theorem Emits.printValue (hC : C.Hosts p) (he : e.Typed p.table sc) (ht : e.type.isScalar = true)
    (hat : Around p.table sc s) (hB : s.depth + 8 * e.size + 64 ≤ B) :
    C.Emits p.table s (do Gen.argument e; Gen.callRoutine .always (Gen.printer e.type)) 0 fun out =>
      ∀ (n d : Nat) σ k pos tr (b : Behaviour Move) Q, (C.need + (d * B + B) : Int) ≤ C.top →
      C.system.image.Has pos out → C.Live p.table s σ k →
      (∀ k' tr', C.Live p.table s σ k' → C.Stays p.table s k k' → C.system.Meets n ⟨k', pos + out.length, tr'⟩ b Q) →
      C.system.Meets n ⟨k, pos, tr⟩ (do Behaviour.print (.value (← e.run (p.host C.const n d) σ)); b) Q := by
  refine (((Emits.argument hC he hat hB).seq fun s₁ _ => Emits.prints (printer_mem ht)).cast (add_zero 0)).weaken ?_
  rintro _ ⟨s₁, o, o', hs1, rfl, harg, hprint⟩ n d σ k pos tr b Q hneed hhas hlive hb
  refine (harg n d σ k pos tr hneed hhas.left hlive).bind ?_
  rintro x ⟨k1, _, tr1⟩ - ⟨rfl, hx⟩
  obtain ⟨_, _, _, hhasx⟩ := hx.has
  have hlive₁ : C.Live p.table s σ k1 := hlive.frame hC.typed.wf hat hx.frame (by decide)
  have hready : C.Ready s₁.depth 16 k1 := (hlive₁.shift hs1).ready hC.floor (hlive₁.room hneed (by omega))
  have hevent := printer_event (hhasx.is ht) ht
  rw [← hx.value] at hevent
  refine (hprint n k1 _ tr1 _ hevent hhas.right hready).bind ?_
  rintro _ ⟨k2, _, tr2⟩ - ⟨rfl, hframe⟩
  have hstays : C.Stays p.table s k k1 := .frame hx.frame (by decide)
  have := hb k2 tr2 (hlive₁.frame hC.typed.wf hat hframe (by simp)) (hstays.trans (.frame hframe (by simp)))
  rwa [List.length_append, ← Nat.add_assoc] at this

theorem Emits.print (hC : C.Hosts p) {newline : Bool} (he : e.Typed p.table sc) (ht : e.type.isScalar = true)
    (hat : Around p.table sc s) (hB : s.depth + 8 * e.size + 64 ≤ B) (site : Site) :
    C.Emits p.table s (Gen.stat (.print site e newline)) 0
      (C.Simulates p B R s fun H => Stat.exec H (.print site e newline)) := by
  have hgen : Gen.stat (.print site e newline) =
      (do Gen.argument e; Gen.callRoutine .always (Gen.printer e.type)) >>= fun _ =>
        if newline then Gen.callRoutine .always .printLn else pure () := by rw [Gen.stat, Gen.bind_assoc]
  rw [hgen]
  cases newline with
  | false =>
    refine (((Emits.printValue hC he ht hat hB).seq fun s₁ _ => Emits.skip).cast (add_zero 0)).weaken ?_
    rintro _ ⟨s₁, o, _, hs1, rfl, hvalue, rfl⟩ n d σ k pos tr - hneed hhas hlive
    refine hvalue n d σ k pos tr _ _ hneed hhas.left hlive fun k' tr' hlive' hstays => ?_
    exact .pure ⟨by simp, hlive', hstays⟩
  | true =>
    refine (((Emits.printValue hC he ht hat hB).seq fun s₁ _ => Emits.prints (by simp)).cast (add_zero 0)).weaken ?_
    rintro _ ⟨s₁, o, o', hs1, rfl, hvalue, hline⟩ n d σ k pos tr - hneed hhas hlive
    refine hvalue n d σ k pos tr _ _ hneed hhas.left hlive fun k1 tr1 hlive₁ hstays => ?_
    have hready : C.Ready s₁.depth 16 k1 := (hlive₁.shift hs1).ready hC.floor (hlive₁.room hneed (by omega))
    refine (hline n k1 _ tr1 .line rfl hhas.right hready).bind ?_
    rintro _ ⟨k2, _, tr2⟩ - ⟨rfl, hframe⟩
    refine .pure ⟨?_, hlive₁.frame hC.typed.wf hat hframe (by simp), hstays.trans (.frame hframe (by simp))⟩
    rw [List.length_append, Nat.add_assoc]

theorem Emits.exit (hC : C.Hosts p) (he : e.Typed p.table sc) (ht : e.type = .int) (hat : Around p.table sc s)
    (hB : s.depth + 8 * e.size + 64 ≤ B) (site : Site) :
    C.Emits p.table s (Gen.stat (.exit site e)) 0 (C.Simulates p B R s fun H => Stat.exec H (.exit site e)) := by
  refine (((Emits.argument hC he hat hB).seq fun s₁ _ => Emits.callOut).cast (add_zero 0)).weaken ?_
  rintro _ ⟨s₁, o, _, -, rfl, harg, rfl⟩ n d σ k pos tr - hneed hhas hlive
  refine (harg n d σ k pos tr hneed hhas.left hlive).bind ?_
  rintro x ⟨k1, _, tr1⟩ - ⟨rfl, hx⟩
  obtain ⟨c, rfl⟩ : ∃ c, x = .int c := by
    obtain ⟨_, _, _, hhas⟩ := hx.has
    rw [ht] at hhas
    cases hhas
    exact ⟨_, rfl⟩
  refine .does (System.does_sub _) hhas.right.left ?_
  rintro _ rfl
  refine .here ⟨(List.append_nil _).symm, ?_⟩
  show C.system.next _ = _
  rw [System.next, hhas.right.right.left.head]
  show Except.error (Halt.exit (k1.reg .r0)) = _
  rw [hx.value, Datum.word]

theorem Emits.unwind (hw : T.Wf) (hat : Gen.At T sc s) (hin : T.InFunction sc) :
    C.Emits T s (do
      let n ← Gen.unwound sc
      let d := (← Gen.stage).depth
      if n ≠ d - 4 then Gen.fail (.unbalancedFrames n d)
      Gen.moveStack .add n
      Gen.emit (.pop [.pc])) 0 fun out =>
        ∃ n : Nat, (n : Int) = s.depth - 4 ∧ out = (Gen.stepsOf .add n).map .instr ++ [.instr (.pop [.pc])] := by
  have hbytes := Frames.blockBytes_frameChain hw hat hin
  have hrun : Gen.unwound sc T s = .ok ((blockBytes T (T.frameChain sc) : Int), [], s) := rfl
  refine (Gen.wp_bind_pure hrun).2 (Gen.wp_stage.2 ?_)
  rw [if_neg (by rw [hbytes]; simp)]
  refine Gen.wp_bind_lines.2 (Gen.wp_emit.2 ⟨.refl s, fun _ => ⟨_, hbytes, ?_⟩⟩)
  rw [Int.toNat_natCast]

theorem Emits.ret (hC : C.Hosts p) {site : Site} (hs : site.scope = sc) (he : e.Typed p.table sc)
    (hin : p.table.InFunction sc) (ht : e.type.isScalar = true) (hR : ∀ x : Datum, x.Is e.type → R x)
    (hat : Gen.At p.table sc s) (hB : s.depth + 8 * e.size + 64 ≤ B) :
    C.Emits p.table s (Gen.stat (.ret site e)) 0 (C.Simulates p B R s fun H => Stat.exec H (.ret site e)) := by
  rw [Gen.stat, hs]
  refine (((Emits.argument hC he hat.around hB).seq fun s₁ hs1 =>
    Emits.unwind hC.typed.wf (hat.shift hs1) hin).cast (add_zero 0)).weaken ?_
  rintro _ ⟨s₁, o, _, hs1, rfl, harg, m, hm, rfl⟩ n d σ k pos tr - hneed hhas hlive
  refine (harg n d σ k pos tr hneed hhas.left hlive).bind ?_
  rintro x ⟨k1, _, tr1⟩ - ⟨rfl, hx⟩
  refine .does (System.does_add m) hhas.right.left ?_
  rintro _ rfl
  obtain ⟨_, _, _, hhasx⟩ := hx.has
  refine .pure ⟨hR x (hhasx.is ht), hhas.right.right.head, ?_, ?_, fun a ha => hx.frame.mem a (.inr ha.1)⟩
  · have hsp : k1.sp = k.sp := by rw [Core.sp, hx.frame.sp (by decide), Core.sp]
    have hdepth := hlive.depth
    have hshift := hs1.depth
    have htop := hC.top
    simp only [Core.sp] at hsp hdepth ⊢
    rw [Core.set_reg, if_pos rfl, BitVec.toNat_add, BitVec.toNat_ofNat]
    omega
  · show (k1.set .sp _).reg .r0 = _
    rw [Core.set_reg, if_neg (by decide), hx.value]

theorem Emits.free (hC : C.Hosts p) (he : e.Typed p.table sc) (hf : Typing.isFreeable e.type = true)
    (hat : Around p.table sc s) (hB : s.depth + 8 * e.size + 64 ≤ B) (site : Site) :
    C.Emits p.table s (Gen.stat (.free site e)) 0 (C.Simulates p B R s fun H => Stat.exec H (.free site e)) := by
  obtain ⟨span, rfl⟩ := he.isNull hC.vars hf
  refine (((Emits.argument hC he hat hB).seq fun s₁ _ => Emits.callRoutine).cast (add_zero 0)).weaken ?_
  rintro _ ⟨s₁, o, _, hs1, rfl, harg, rfl, hprov⟩ n d σ k pos tr - hneed hhas hlive
  refine (harg n d σ k pos tr hneed hhas.left hlive).bind ?_
  rintro x ⟨k1, _, tr1⟩ hx0 ⟨rfl, hx⟩
  obtain rfl : x = .ref 0 := by
    simpa [Expr.run, Expr.vars, Expr.eval, Behaviour.ofOption, pure] using hx0.symm
  have hlive₁ : C.Live p.table s σ k1 := hlive.frame hC.typed.wf hat hx.frame (by decide)
  have hready : C.Ready s₁.depth 16 k1 := (hlive₁.shift hs1).ready hC.floor (hlive₁.room hneed (by omega))
  have hthrows : C.system.Yields (callLines s₁.depth .always (.label (.routine .freePair))) k1 none
      fun (_ : Unit) _ => True := by
    refine yields_callLines hready ?_
    rintro m - _ rfl - -
    refine System.throws_freePair (hprov _ (by simp)) (hprov _ (by simp [Routine.needs])) ?_
    exact hx.value
  exact (hthrows _ tr1 hhas.right).weaken fun s' h => ⟨h.1.trans (List.append_nil _).symm, h.2⟩

/-! ## Blocks and branches -/

/-- Frames of `B` bytes hold all scopes that can be open, and expressions with up to `N` parts. -/
def Roomy (T : Table) (N B : Nat) : Prop := ∀ sc s, Gen.At T sc s → s.depth + 8 * N + 64 ≤ B

section
variable {N : Nat} {b b' : Host → Store → Behaviour Move} {x y : Gen Unit} {i : ScopeId}

theorem Emits.inScope (hC : C.Hosts p) (hN : Roomy p.table N B) (hb : p.table.IsBlock sc i) (hat : Gen.At p.table sc s)
    (hx : ∀ s₁, Gen.At p.table i s₁ → C.Emits p.table s₁ x 0 (C.Simulates p B R s₁ b)) :
    C.Emits p.table s (do Gen.enter i; x; Gen.leave i) 0
      (C.Simulates p B R s fun H σ => b H (σ.enter H.table i)) := by
  have ⟨r, hr, _⟩ := hb
  refine (Emits.within hr (hat.filter_entry hC.typed.wf hb) fun s₁ hin => hx s₁ (hin.at_block hat hb)).weaken ?_
  rintro _ ⟨s₁, o, hin, rfl, hsim⟩ n d σ k pos tr hans hneed hhas hlive
  have hroom : C.need + r.footprint.toNat ≤ k.sp := hlive.room hneed (by
    have := hN i s₁ (hin.at_block hat hb)
    rw [hin.depth] at this
    omega)
  refine .does (System.does_sub _) hhas.left fun k1 hk1 => ?_
  obtain ⟨hlive₁, -⟩ := hin.enter hlive (by omega) hk1
  simp only [Program.host_table]
  refine (hsim n d _ k1 _ tr hans hneed hhas.right.left hlive₁).andRuns ?_
  rintro m ⟨k2, pc, tr2⟩ - hdone
  cases m with
  | next σ' =>
    obtain ⟨rfl, hlive₂, hstays⟩ := hdone
    refine (System.does_add _ _ tr2 hhas.right.right).weaken fun s' ⟨hpc, htr, hk3⟩ => ⟨htr, ?_, ?_⟩
    · rw [hpc]
      simp only [List.length_append]
      omega
    · exact hin.leave hC.typed.wf hlive (by omega) hk1 hlive₂ hstays hk3
  | ret y =>
    obtain ⟨hR, hleft⟩ := hdone
    refine .here ⟨rfl, hR, hleft.pop, hleft.sp, hleft.value, fun a ha => ?_⟩
    obtain ⟨ha1, hmem1⟩ := hin.kept hC.typed.wf hlive (by omega) hk1 ha
    rw [hleft.mem a ha1, hmem1]

variable {c : Expr}

theorem Emits.ifThen (hC : C.Hosts p) (hc : c.Typed p.table sc) (ht : c.type = .bool)
    (hB : s.depth + 8 * c.size + 64 ≤ B) (hat : Gen.At p.table sc s)
    (hx : ∀ s₁, Gen.At p.table sc s₁ → C.Emits p.table s₁ x 0 (C.Simulates p B R s₁ b)) :
    C.Emits p.table s (do let stop ← Gen.newPlace; Gen.jumpUnless c stop; x; Gen.label stop) 0
      (C.Simulates p B R s fun H σ => do if ← c.test H σ then b H σ else return .next σ) := by
  refine Emits.newPlace fun stop s₁ hs1 => ?_
  have hd1 := hs1.depth
  refine (((Emits.jumpUnless (B := B) hC hc ht (hat.around.shift hs1 le_rfl) (by omega)).seq fun s2 hs2 =>
    (hx s2 ((hat.shift hs1).shift hs2)).seq fun s3 _ => Emits.label).cast (by ring)).weaken ?_
  rintro _ ⟨s2, o1, _, hs2, rfl, hjump, s3, o2, _, -, rfl, hsim, rfl⟩ n d σ k pos tr hans hneed hhas hlive
  have hstop := hhas.right.right.head
  refine (hjump n d σ k pos tr _ hneed hhas.left (hlive.shift hs1) (hC.once.find hstop)).bind ?_
  rintro holds ⟨k1, pc, tr1⟩ - ⟨rfl, hlive₁, hstays⟩
  have hlive₁ := hlive₁.unshift hs1
  have hstays := hstays.shift hs1
  cases holds with
  | true =>
    have hsim := ((hsim.shift hs2).shift hs1).label (l := stop)
    refine (hsim n d σ k1 _ tr1 hans hneed hhas.right hlive₁).weaken fun m t _ hdone => ?_
    rw [List.length_append, ← Nat.add_assoc]
    exact hdone.after hstays
  | false =>
    refine .next (System.next_label hstop) rfl (.pure ⟨?_, hlive₁, hstays⟩)
    show pos + o1.length + o2.length + 1 = _
    simp only [List.length_append, List.length_singleton, Nat.add_assoc]

theorem Emits.ifElse (hC : C.Hosts p) (hc : c.Typed p.table sc) (ht : c.type = .bool)
    (hB : s.depth + 8 * c.size + 64 ≤ B) (hat : Gen.At p.table sc s)
    (hx : ∀ s₁, Gen.At p.table sc s₁ → C.Emits p.table s₁ x 0 (C.Simulates p B R s₁ b))
    (hy : ∀ s₁, Gen.At p.table sc s₁ → C.Emits p.table s₁ y 0 (C.Simulates p B R s₁ b')) :
    C.Emits p.table s (do
      let stop ← Gen.newPlace
      let other ← Gen.newPlace
      Gen.jumpUnless c other
      x
      Gen.emit (.branch .always stop)
      Gen.label other
      y
      Gen.label stop) 0 (C.Simulates p B R s fun H σ => do if ← c.test H σ then b H σ else b' H σ) := by
  refine Emits.newPlace fun stop s0 hs0 => Emits.newPlace fun other s₁ hs01 => ?_
  have hs1 := hs0.trans hs01
  have hd1 := hs1.depth
  refine (((Emits.jumpUnless (B := B) hC hc ht (hat.around.shift hs1 le_rfl) (by omega)).seq fun s2 hs2 =>
    (hx s2 ((hat.shift hs1).shift hs2)).seq fun s3 hs3 => Emits.emit.seq fun s4 hs4 => Emits.label.seq fun s5 hs5 =>
    (hy s5 (((((hat.shift hs1).shift hs2).shift hs3).shift hs4).shift hs5)).seq fun s6 _ => Emits.label).cast
    (by ring)).weaken ?_
  rintro _ ⟨s2, o1, _, hs2, rfl, hjump, s3, o2, _, hs3, rfl, hsim, s4, _, _, hs4, rfl, rfl, s5, _, _, hs5, rfl, rfl, s6,
    o3, _, -, rfl, hsim', rfl⟩ n d σ k pos tr hans hneed hhas hlive
  have hother := hhas.right.right.right.head
  have hstop := hhas.right.right.right.right.right.head
  refine (hjump n d σ k pos tr _ hneed hhas.left (hlive.shift hs1) (hC.once.find hother)).bind ?_
  rintro holds ⟨k1, pc, tr1⟩ - ⟨rfl, hlive₁, hstays⟩
  have hlive₁ := hlive₁.unshift hs1
  have hstays := hstays.shift hs1
  cases holds with
  | true =>
    have hsim := (hsim.shift hs2).shift hs1
    refine (Done.goes (hsim n d σ k1 _ tr1 hans hneed hhas.right.left hlive₁) fun k' tr' => ?_).weaken
      fun m t _ hdone => hdone.after hstays
    refine (System.Runs.step (System.next_branch hhas.right.right.left.head rfl (hC.once.find hstop)) ?_).le
      (Nat.zero_le 1)
    refine (System.Runs.step (System.next_label hstop) (.here ?_)).le (Nat.zero_le 1)
    simp only [List.length_append, List.length_singleton, Nat.add_assoc]
  | false =>
    refine .next (System.next_label hother) rfl ?_
    have hsim' := (((((hsim'.shift hs5).shift hs4).shift hs3).shift hs2).shift hs1).label (l := stop)
    refine (hsim' n d σ k1 _ tr1 hans hneed hhas.right.right.right.right hlive₁).weaken fun m t _ hdone => ?_
    have hstop' : ∀ m : Nat, pos + o1.length + o2.length + 1 + 1 + m = pos + (o1.length + (o2.length + (1 + (1 + m)))) :=
      fun m => by omega
    simp only [List.length_append, List.length_singleton, hstop'] at hdone ⊢
    exact hdone.after hstays

theorem Emits.loop (hC : C.Hosts p) (hc : c.Typed p.table sc) (ht : c.type = .bool)
    (hB : s.depth + 8 * c.size + 64 ≤ B) (hat : Gen.At p.table sc s) (st : Stat)
    (hst : ∀ H, st.turn H = Reference.turn (c.test H) (b H) (H.again st))
    (hx : ∀ s₁, Gen.At p.table sc s₁ → C.Emits p.table s₁ x 0 (C.Simulates p B R s₁ b)) :
    C.Emits p.table s (Gen.loop c x) 0 (C.Simulates p B R s fun H => st.turn H) := by
  refine Emits.newPlace fun top s0 hs0 => Emits.newPlace fun stop s₁ hs01 => ?_
  have hs1 := hs0.trans hs01
  have hd1 := hs1.depth
  refine ((Emits.label.seq fun s2 hs2 => (Emits.jumpUnless (B := B) hC hc ht
    ((hat.around.shift hs1 le_rfl).shift hs2 le_rfl) (by have := hs2.depth; omega)).seq fun s3 hs3 =>
    (hx s3 (((hat.shift hs1).shift hs2).shift hs3)).seq fun s4 hs4 => Emits.emit.seq fun s5 _ => Emits.label).cast
    (by ring)).weaken ?_
  rintro _ ⟨s2, _, _, hs2, rfl, rfl, s3, o1, _, hs3, rfl, hjump, s4, o2, _, -, rfl, hsim, s5, _, _, -, rfl, rfl, rfl⟩
  have hs2 := hs1.trans hs2
  have hsim := hsim.shift (hs2.trans hs3)
  intro n d σ k pos tr hans hneed hhas hlive
  have htop := hhas.left.head
  have hback := hhas.right.right.right.left.head
  have hstop := hhas.right.right.right.right.head
  induction n using Nat.strong_induction_on generalizing σ k tr with
  | _ n ih =>
    simp only [hst]
    refine .next (System.next_label htop) rfl ?_
    refine Done.turn ((hjump n d σ k _ tr _ hneed hhas.right.left (hlive.shift hs2) (hC.once.find hstop)).weaken
      fun b s' _ ⟨hpc, hl, hs⟩ => ⟨hpc, hl.unshift hs2, hs.shift hs2⟩)
      (fun k' tr' hlive' => hsim n d σ k' _ tr' hans hneed hhas.right.right.left hlive')
      (fun σ' k' tr' hlive' => ?_) hstop (by simp only [List.length_append, List.length_singleton, Nat.add_assoc])
    -- the way back takes a line, which is what a turn may cost
    cases n with
    | zero => exact .here ⟨(List.append_nil _).symm, trivial⟩
    | succ n =>
      exact .step (System.next_branch hback rfl (hC.once.find htop)) rfl
        (ih n (Nat.lt_succ_self n) σ' k' tr' (hans.le (Nat.le_succ n)) hlive')

end

/-! ## All statements -/

/-- Literals with array types, nothing that is read, scalar values that are printed, and values that may be
    returned. -/
structure Fine (R : Datum → Prop) (qs : List Stat) : Prop where
  formed : Stat.Formed qs
  plain : ∀ q ∈ qs, q.isPlain = true
  returns : ∀ site e, .ret site e ∈ qs → e.type.isScalar = true ∧ ∀ x : Datum, x.Is e.type → R x

theorem Fine.mono {qs rs : List Stat} (h : Fine R rs) (hqs : ∀ q ∈ qs, q ∈ rs) : Fine R qs :=
  ⟨fun q hq => h.formed q (hqs q hq), fun q hq => h.plain q (hqs q hq), fun site e he => h.returns site e (hqs _ he)⟩

def StatSimulates (C : Context) (p : Program) (N B : Nat) (R : Datum → Prop) (sc : ScopeId) (b : Stat) : Prop :=
  ∀ s, Gen.At p.table sc s → b.size ≤ N → Fine R b.parts →
    C.Emits p.table s (Gen.stat b) 0 (C.Simulates p B R s fun H => b.exec H)

section
variable {N : Nat} {b : Stat}

theorem Emits.block (hC : C.Hosts p) (hN : Roomy p.table N B) {i : ScopeId} (hb : p.table.IsBlock sc i)
    (hs : C.StatSimulates p N B R i b) (hn : b.size ≤ N) (hfine : Fine R b.parts) (site : Site)
    (hat : Gen.At p.table sc s) :
    C.Emits p.table s (Gen.block (.mk site i b)) 0 (C.Simulates p B R s fun H => (Block.mk site i b).exec H) := by
  have hexec : (fun H => (Block.mk site i b).exec H) = fun H σ => b.exec H (σ.enter H.table i) := by
    funext H σ
    rw [Block.exec]
  exact Emits.inScope hC hN hb hat fun s₁ h1 => hs s₁ h1 hn hfine

theorem Emits.stats {ss : List Stat} (hss : ∀ b ∈ ss, C.StatSimulates p N B R sc b) (hn : Stat.sizes ss ≤ N)
    (hfine : Fine R (Stat.partsAll ss)) (hat : Gen.At p.table sc s) :
    C.Emits p.table s (Gen.stats ss) 0 (C.Simulates p B R s fun H => Stat.execAll H ss) := by
  induction ss generalizing s with
  | nil =>
    have hexec : (fun H => Stat.execAll H []) = fun _ σ => return .next σ := by
      funext H σ
      rw [Stat.execAll]
    refine Emits.skip.weaken ?_
    rintro _ rfl
    exact Simulates.skip
  | cons b ss ih =>
    obtain ⟨hb, hss⟩ := List.forall_mem_cons.1 hss
    rw [Stat.sizes] at hn
    have hexec : (fun H => Stat.execAll H (b :: ss)) =
        fun H σ => Reference.andThen (b.exec H σ) (Stat.execAll H ss) := by
      funext H σ
      rw [Stat.execAll]
    exact (hb s hat (by omega) (hfine.mono fun q hq => List.mem_append_left _ hq)).andThen fun s₁ hs1 =>
      ih hss (by omega) (hfine.mono fun q hq => List.mem_append_right _ hq) (hat.shift hs1)

/-- **Code for statements does what statements do.** -/
theorem stat_simulates (hC : C.Hosts p) (hN : Roomy p.table N B) (hb : b.Typed p.table sc) :
    C.StatSimulates p N B R sc b := by
  induction hb with
  | skip =>
    intro s _ _ _
    refine Emits.skip.weaken ?_
    rintro _ rfl
    exact Simulates.skip
  | @declare sc site x w name v hx hsc henc hv hacc =>
    intro s hat hn hfine
    have hroom := hN sc s hat
    rw [Stat.size] at hn
    exact Emits.setVar hC hx (hsc ▸ henc) hv (hfine.formed _ (Stat.mem_parts _) v rfl) hacc hat.around (by omega)
  | @assign sc site l v hl hv hacc =>
    intro s hat hn hfine
    have hroom := hN sc s hat
    obtain ⟨id, rfl, ⟨w, hw, hwt, henc⟩, -⟩ := hl.isVar hC.vars
    rw [Stat.size] at hn
    rw [Target.type, ← hwt] at hacc
    exact Emits.setVar hC hw henc hv (hfine.formed _ (Stat.mem_parts _) v rfl) hacc hat.around (by omega)
  | read =>
    intro s _ _ hfine
    cases hfine.plain _ (List.mem_singleton.2 rfl)
  | @free sc _ _ he hf =>
    intro s hat hn _
    have hroom := hN sc s hat
    rw [Stat.size] at hn
    exact Emits.free hC he hf hat.around (by omega) _
  | @ret sc site e hs he hin =>
    intro s hat hn hfine
    have hroom := hN sc s hat
    rw [Stat.size] at hn
    obtain ⟨ht, hR⟩ := hfine.returns site e (Stat.mem_parts _)
    exact Emits.ret hC hs he hin ht hR hat (by omega)
  | @exit sc _ _ he ht =>
    intro s hat hn _
    have hroom := hN sc s hat
    rw [Stat.size] at hn
    exact Emits.exit hC he ht hat.around (by omega) _
  | @print sc site e newline he =>
    intro s hat hn hfine
    have hroom := hN sc s hat
    have ht : e.type.isScalar = true := hfine.plain _ (Stat.mem_parts _)
    rw [Stat.size] at hn
    exact Emits.print hC he ht hat.around (by omega) site
  | block hb _ ih =>
    intro s hat hn hfine
    simp only [Stat.size, Block.size] at hn
    exact Emits.block hC hN hb ih (by omega) (hfine.mono fun q hq => List.mem_cons_of_mem _ hq) _ hat
  | @ifThen sc _ _ _ _ _ hc ht hb _ ih =>
    intro s hat hn hfine
    have hroom := hN sc s hat
    simp only [Stat.size, Block.size] at hn
    exact Emits.ifThen hC hc ht (by omega) hat fun s₁ =>
      Emits.block hC hN hb ih (by omega) (hfine.mono fun q hq => List.mem_cons_of_mem _ hq) _
  | @ifElse sc _ _ _ _ _ _ _ _ hc ht hb _ hb' _ ih ih' =>
    intro s hat hn hfine
    have hroom := hN sc s hat
    simp only [Stat.size, Block.size] at hn
    exact Emits.ifElse hC hc ht (by omega) hat
      (fun s₁ => Emits.block hC hN hb ih (by omega)
        (hfine.mono fun q hq => List.mem_cons_of_mem _ (List.mem_append_left _ hq)) _)
      fun s₁ => Emits.block hC hN hb' ih' (by omega)
        (hfine.mono fun q hq => List.mem_cons_of_mem _ (List.mem_append_right _ hq)) _
  | @«while» sc _ site site' c b hc ht hb _ ih =>
    intro s hat hn hfine
    have hroom := hN sc s hat
    simp only [Stat.size, Block.size] at hn
    exact Emits.loop hC hc ht (by omega) hat (.while site c (.mk site' _ b)) (fun H => rfl) fun s₁ =>
      Emits.block hC hN hb ih (by omega) (hfine.mono fun q hq => List.mem_cons_of_mem _ hq) _
  | @«for» sc h i site site' init step b c hh _ hc ht _ hb _ ihi ihs ihb =>
    intro s hat hn hfine
    have hsub : ∀ q, q ∈ init.parts ++ b.parts ++ step.parts → q ∈ (Stat.for site h init c step (.mk site' i b)).parts :=
      fun q hq => List.mem_cons_of_mem _ hq
    simp only [Stat.size, Block.size] at hn
    rw [Gen.stat_for]
    refine Emits.inScope hC hN hh hat (b := fun H σ => Reference.andThen (init.exec H σ)
      (Stat.turn H (.for site h init c step (.mk site' i b)))) fun s₁ h1 => ?_
    refine (ihi s₁ h1 (by omega) (hfine.mono fun q hq => hsub q (by simp [hq]))).andThen fun s2 hs2 => ?_
    have h2 := h1.shift hs2
    have hroom := hN h s2 h2
    refine Emits.loop hC hc ht (by omega) h2 (.for site h init c step (.mk site' i b)) (fun H => rfl) fun s3 h3 => ?_
    exact (Emits.block hC hN hb ihb (by omega) (hfine.mono fun q hq => hsub q (by simp [hq])) site' h3).andThen
      fun s4 hs4 => ihs s4 (h3.shift hs4) (by omega) (hfine.mono fun q hq => hsub q (by simp [hq]))
  | seq _ ih =>
    intro s hat hn hfine
    exact Emits.stats ih hn (hfine.mono fun q hq => List.mem_cons_of_mem _ hq) hat

end

end Context

end Arm

end Wacc
