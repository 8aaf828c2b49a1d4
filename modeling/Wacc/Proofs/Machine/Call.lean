/-
  Calls of functions.

  Arguments are pushed from left to right, below a few bytes for the alignment; so the parameters of a function
  are right above its return address.
-/
import Wacc.Proofs.Arm.Arguments
import Wacc.Proofs.Machine.Activation
import Wacc.Proofs.Typing.Accepted

namespace Wacc

open Reference Arm

theorem Ty.isArray_of_isScalar {t : Ty} (h : t.isScalar = true) : t.isArray = false := by
  cases t <;> first | rfl | cases h

@[simp] theorem Program.host_const (p : Program) (const : Text → Word) (n d : Nat) :
    (p.host const n d).const = const := by cases n <;> rfl

@[simp] theorem Program.host_table (p : Program) (const : Text → Word) (n d : Nat) :
    (p.host const n d).table = p.table := by cases n <;> rfl

theorem Target.Typed.isVar {T : Table} {sc : ScopeId} {l : Target} (hl : l.Typed T sc)
    (hscalar : ∀ x v, T.var? x = some v → v.type.isScalar = true) :
    ∃ id, l = .var id ∧ id.Typed T sc ∧ id.type.isScalar = true := by
  have hid : ∀ id : Ident, id.Typed T sc → id.type.isScalar = true := by
    rintro id ⟨v, hv, ht, -⟩
    exact ht ▸ hscalar _ v hv
  induction hl with
  | @var id hi => exact ⟨id, rfl, hi, hid id hi⟩
  | @elem _ _ id _ hi hx =>
    obtain ⟨e, d, harray, -⟩ := hx.nested
    have := hid id hi
    rw [harray] at this
    cases this
  | slot _ hpair ih =>
    obtain ⟨id, rfl, -, ht⟩ := ih
    rw [Target.type] at hpair
    rw [hpair] at ht
    cases ht

namespace Arm

variable {T : Table} {sc : ScopeId} {S : System} {k k' : Core}

theorem System.does_pushStore {w : Width} {r : Reg} (h : w.bytes ≤ k.sp) :
    S.Does [.instr (.pushStore w r w.bytes)] k fun k' => k'.sp + w.bytes = k.sp ∧
      k'.mem.load w (k'.reg .sp) = w.keep (k.reg r) ∧ ∀ a : Word, k.sp ≤ a.toNat → k'.mem a = k.mem a := by
  set a := k.reg .sp - BitVec.ofNat 32 w.bytes with ha
  have hto : a.toNat + w.bytes = k.sp := by
    simp only [Core.sp] at h ⊢
    rw [ha, BitVec.toNat_sub, BitVec.toNat_ofNat]
    omega
  have hreg : (Instr.effect S.image.address k (.pushStore w r w.bytes)).reg .sp = a := by
    simp only [Instr.effect, Core.set_reg, if_true, ← ha]
  have hmem : (Instr.effect S.image.address k (.pushStore w r w.bytes)).mem = k.mem.store w a (k.reg r) := rfl
  refine .instr rfl ⟨?_, ?_, fun b hb => ?_⟩
  · rw [Core.sp, hreg, hto]
  · rw [hreg, hmem, Mem.load_store]
  · rw [hmem, Mem.store_outside] <;> omega

/-- The values `ds` were pushed for the parameters `ps`, the first of which comes after `base` bytes. -/
structure Pushed (T : Table) (ps : List VarId) (base n : Nat) (ds : List Datum) (k k' : Core) : Prop where
  sp : k'.sp + n = k.sp
  mem : ∀ a : Word, k.sp ≤ a.toNat → k'.mem a = k.mem a
  vars : ∀ x v d, T.var? x = some v → Store.ofArgs ps ds x = some d →
    k'.mem.load (Gen.widthOf v.type) (BitVec.ofInt 32 (k.sp + base - v.offset.toNat)) = d.word ∧ d.Is v.type

namespace Context

variable {C : Context} {s s' : Stage}

theorem Emits.pushValue {r : Reg} {t : Ty} :
    C.Emits T s (Gen.pushValue r t) t.size.toNat fun out =>
      out = [.instr (.pushStore (Gen.widthOf t) r (Gen.widthOf t).bytes)] := by
  rw [Gen.bytes_widthOf]
  exact Gen.wp_bind_emit.2 (Gen.wp_deepen.2 ⟨⟨rfl, rfl, fun _ h => h, fun _ _ h => h⟩, fun _ => rfl⟩)

theorem Emits.args (hfloor : C.floor = 0) (hw : T.Wf) (hscalar : ∀ x v, T.var? x = some v → v.type.isScalar = true)
    {es : List Expr} (hes : ∀ e ∈ es, e.Typed T sc) {scope : ScopeId} {ps : List VarId} {base top : Nat}
    (hlaid : T.LaidFrom scope base ps top) (hargs : List.Forall₂ (ArgumentOf T) ps es) (hat : Around T sc s) :
    C.Emits T s (Gen.args Gen.result Gen.others es) (Gen.argBytes es) fun out => ∀ (H : Host) n σ k pos tr,
      H.const = C.const → C.system.image.Has pos out → C.Live T s σ k →
      C.need + (8 * Expr.sizes es + 16) ≤ k.sp →
      C.system.Meets n ⟨k, pos, tr⟩ (Expr.runAll H σ es) fun ds s' =>
        s'.pc = pos + out.length ∧ Pushed T ps base (Gen.argBytes es) ds k s'.toCore := by
  induction hargs generalizing base s with
  | nil =>
    refine Emits.skip.weaken ?_
    rintro _ rfl H n σ k pos tr - - - -
    exact .pure ⟨rfl, rfl, fun _ _ => rfl, by rintro _ _ _ _ ⟨⟩⟩
  | @cons x e ps es hx hrest ih =>
    obtain ⟨he, hes⟩ := List.forall_mem_cons.1 hes
    obtain ⟨v, hv, hacc⟩ := hx
    obtain ⟨v', hv', -, hoff, hlaid⟩ := hlaid
    cases hv.symm.trans hv'
    have htype : e.type = v.type := Ty.eq_of_accepts hacc (hscalar x v hv)
    have hsize : (Gen.widthOf e.type).bytes = v.type.size.toNat := by rw [Gen.bytes_widthOf, htype]
    have hbytes : Gen.argBytes (e :: es) = v.type.size.toNat + Gen.argBytes es := by rw [← htype]; rfl
    have h4 := (Table.size_pos v.type).2
    have hpos := Gen.Expr.size_pos e
    refine (((Emits.runs hfloor hw he hat).seq fun s1 hs1 => Emits.pushValue.seq fun s2 hs2 =>
      ih hes hlaid ((hat.shift hs1 le_rfl).shift hs2 (by omega))).cast (by rw [hbytes, htype]; push_cast; ring)).weaken ?_
    rintro _ ⟨s1, o1, _, hs1, rfl, hexpr, s2, _, o3, hs2, rfl, rfl, hargs⟩ H n σ k pos tr hconst hhas hlive hroom
    rw [Expr.sizes] at hroom
    refine (hexpr H n σ k pos tr hconst hhas.left hlive (by omega)).bind ?_
    rintro d ⟨k1, _, tr1⟩ - ⟨rfl, hcomp⟩
    have hsp1 : k1.sp = k.sp := by rw [Core.sp, hcomp.frame.sp (by decide), Core.sp]
    refine .does (System.does_pushStore (by omega)) hhas.right.left ?_
    rintro k2 ⟨hsp2, hload₂, hmem2⟩
    have hmem2 : ∀ a : Word, k.sp ≤ a.toNat → k2.mem a = k.mem a := fun a ha =>
      (hmem2 a (by omega)).trans (hcomp.frame.mem a (.inr ha))
    have hlive₂ : C.Live T s2 σ k2 := hlive.move hw hat (hs1.trans hs2) (by rw [htype]; omega) hmem2
    refine (hargs H n σ k2 _ _ hconst hhas.right.right hlive₂ (by omega)).bind ?_
    rintro ds ⟨k3, _, tr3⟩ - ⟨rfl, hpushed⟩
    have hsp3 := hpushed.sp
    refine .pure ⟨?_, by omega, fun a ha => ?_, fun y w z hy hz => ?_⟩
    · simp only [List.length_append]
      omega
    · rw [hpushed.mem a (by omega), hmem2 a ha]
    · have haddr : ∀ u : Variable, (k2.sp + v.offset.toNat - u.offset.toNat : Int) =
          k.sp + base - u.offset.toNat := fun u => by omega
      rw [Store.ofArgs, Store.set] at hz
      by_cases hyx : y = x
      · subst hyx
        cases hv.symm.trans hy
        rw [Function.update_self, Option.some.injEq] at hz
        subst hz
        obtain ⟨m, floor, limit, hhas⟩ := hcomp.has
        obtain ⟨hkeep, his⟩ := (hhas.is (by rw [htype]; exact hscalar y v hv)).keep (by rw [htype]; exact hscalar y v hv)
        rw [htype] at hload₂ hkeep his
        refine ⟨?_, his⟩
        have hlast : BitVec.ofInt 32 (k.sp + base - v.offset.toNat) = k2.reg .sp := by
          rw [show (k.sp + base - v.offset.toNat : Int) = k2.sp by omega, BitVec.ofInt_natCast, Core.sp,
            BitVec.ofNat_toNat, BitVec.setWidth_eq]
        rw [hlast, ← hkeep, ← hcomp.value, ← hload₂]
        refine Mem.load_congr ?_ fun a ha _ => hpushed.mem a ha
        rw [Gen.bytes_widthOf]
        simp only [Core.sp] at *
        omega
      · rw [Function.update_of_ne hyx] at hz
        rw [← haddr]
        exact hpushed.vars y w z hy hz

end Context

/-! ## Functions -/

structure Passed (T : Table) (g : Func) (r : Scope) (ds : List Datum) (k : Core) : Prop where
  scope : T.scope? g.scope = some r
  roof : k.sp + r.footprint.toNat ≤ 2 ^ 32
  vars : ∀ x v d, T.var? x = some v → Store.ofArgs g.params ds x = some d →
    k.mem.load (Gen.widthOf v.type) (BitVec.ofInt 32 (k.sp + r.footprint.toNat - v.offset.toNat)) = d.word ∧
      d.Is v.type

structure Returned (g : Func) (n : Nat) (k : Core) (x : Datum) (k' : Core) : Prop where
  value : k'.reg .r0 = x.word
  is : x.Is g.result
  sp : k'.reg .sp = k.reg .sp
  mem : ∀ a : Word, k.sp + n ≤ a.toNat → k'.mem a = k.mem a

/-- Calls do what functions do, as long as there are no more than `n` turns; a call takes no more than `B` bytes
    of the stack, without the calls inside. -/
def Answers (S : System) (need : Nat) (p : Program) (const : Text → Word) (B n : Nat) : Prop :=
  ∀ m ≤ n, ∀ d g r ds k pos tr, g ∈ p.funcs →
    S.image.code[pos]? = some (.instr (.call .always (.label (.func g.name)))) → k.sp % 8 = 0 →
    need + d * B ≤ k.sp → Passed p.table g r ds k →
    S.Meets m ⟨k, pos, tr⟩ ((p.host const m d).call g.id ds) fun x s' =>
      s'.pc = pos + 1 ∧ Returned g r.footprint.toNat k x s'.toCore

theorem Answers.le {need B m n : Nat} {p : Program} {const : Text → Word} (h : Answers S need p const B n)
    (hm : m ≤ n) : Answers S need p const B m := fun l hl => h l (hl.trans hm)

namespace Context

variable {C : Context} {p : Program} {s s' : Stage} {B : Nat} {es : List Expr}

structure Hosts (C : Context) (p : Program) : Prop where
  floor : C.floor = 0
  top : C.top < 2 ^ 32
  typed : p.Typed
  vars : ∀ x v, p.table.var? x = some v → v.type.isScalar = true
  results : ∀ f g, p.table.func? f = some g → g.result.isScalar = true
  once : C.system.image.Once

structure Valued (C : Context) (T : Table) (s : Stage) (σ : Store) (t : Ty) (k : Core) (x : Datum) (k' : Core) :
    Prop where
  value : k'.reg Gen.result = x.word
  is : x.Is t
  live : C.Live T s σ k'
  stays : C.Stays T s k k'

theorem Emits.callFunc (hC : C.Hosts p) {f : FuncId} {g : Signature} (hg : p.table.func? f = some g)
    (hes : ∀ e ∈ es, e.Typed p.table sc) (hargs : List.Forall₂ (ArgumentOf p.table) g.params es)
    (hat : Around p.table sc s) (hB : s.depth + 8 * (1 + Expr.sizes es) + 64 ≤ B) :
    C.Emits p.table s (Gen.callFunc g.name es Gen.result Gen.others) 0 fun out => ∀ (n d : Nat) σ k pos tr,
      Answers C.system C.need p C.const B n → (C.need + (d * B + B) : Int) ≤ C.top → C.system.image.Has pos out →
      C.Live p.table s σ k → C.system.Meets n ⟨k, pos, tr⟩
        (do (p.host C.const n d).call f (← Expr.runAll (p.host C.const n d) σ es)) fun x s' =>
          s'.pc = pos + out.length ∧ C.Valued p.table s σ g.result k x s'.toCore := by
  have hw := hC.typed.wf
  obtain ⟨r, hr, hlaid⟩ := hC.typed.laid f g hg
  obtain ⟨g', hmem, hid, hname, hresult, hparams⟩ := Typing.mem_funcs_of_func? hC.typed hg
  have hscope : g'.scope = g.scope := by
    obtain ⟨g1, hg1, -, -, -, hscope⟩ := (hC.typed.funcs g' hmem).signature
    rw [hid, hg, Option.some.injEq] at hg1
    rw [hg1, hscope]
  have hbytes := hlaid.top_eq hargs
  have hle := Gen.argBytes_le es
  obtain ⟨h0, h7, hmod⟩ := Gen.padding_spec (s.depth + Gen.argBytes es)
  refine Gen.wp_stage.2 ?_
  show C.Emits p.table s (do
    Gen.grow (Gen.padding (s.depth + Gen.argBytes es))
    Gen.args Gen.result Gen.others es
    Gen.emit (.call .always (.label (.func g.name)))
    Gen.shrink (Gen.padding (s.depth + Gen.argBytes es) + Gen.argBytes es)
    Gen.copy Gen.result .r0) 0 _
  obtain ⟨pad, hpad⟩ := Int.eq_ofNat_of_zero_le h0
  rw [hpad] at hmod h7 ⊢
  refine ((Emits.grow.seq fun s1 hs1 => (Emits.args hC.floor hw hC.vars hes hlaid hargs
    (hat.shift hs1 (by omega))).seq fun s2 hs2 => Emits.emit.seq fun s3 hs3 => Emits.shrink.seq fun s4 hs4 =>
    Emits.copy).cast (by ring)).weaken ?_
  rintro _ ⟨s1, _, _, hs1, rfl, rfl, s2, o2, _, -, rfl, hpush, s3, _, _, -, rfl, rfl, s4, _, _, -, rfl, rfl,
    rfl⟩ n d σ k pos tr hans hneed hhas hlive
  have hdepth := hlive.depth
  have htop := C.aligned
  have hroom : C.need + d * B + (8 * (1 + Expr.sizes es) + 64) ≤ k.sp := by
    zify
    omega
  rw [Int.toNat_natCast, ← Nat.cast_add, Int.toNat_natCast] at *
  refine .does (System.does_sub pad) hhas.left fun k1 hk1 => ?_
  have hsp1 : k1.sp + pad = k.sp := by
    have hlt := (k.reg .sp).isLt
    rw [hk1]
    simp only [Core.sp] at hroom ⊢
    rw [Core.set_reg, if_pos rfl, BitVec.toNat_sub, BitVec.toNat_ofNat]
    omega
  have hmem1 : k1.mem = k.mem := by rw [hk1]; rfl
  have hlive₁ : C.Live p.table s1 σ k1 := hlive.move hw hat hs1 (by omega) fun a _ => by rw [hmem1]
  refine (hpush _ n σ k1 _ tr (Program.host_const ..) hhas.right.left hlive₁ (by omega)).bind ?_
  rintro ds ⟨k2, _, tr2⟩ - ⟨rfl, hpushed⟩
  have hsp2 : k2.sp + Gen.argBytes es = k1.sp := hpushed.sp
  have hlt := (k.reg .sp).isLt
  have hpassed : Passed p.table g' r ds k2 := by
    refine ⟨hscope ▸ hr, by simp only [Core.sp] at *; omega, fun x v z hx hz => ?_⟩
    have haddr : (k2.sp + r.footprint.toNat - v.offset.toNat : Int) = k1.sp + (0 : Nat) - v.offset.toNat := by omega
    rw [haddr]
    exact hpushed.vars x v z hx (hparams ▸ hz)
  have hcode := hhas.right.right.left.head
  rw [← hname] at hcode
  have hcall := hans n le_rfl d g' r ds k2 _ tr2 hmem hcode (by omega) (by omega) hpassed
  rw [hid] at hcall
  refine hcall.andRuns ?_
  rintro x ⟨k3, _, tr3⟩ - ⟨rfl, hret⟩
  have hsp3 : k3.reg .sp + BitVec.ofNat 32 (pad + Gen.argBytes es) = k.reg .sp := by
    apply BitVec.eq_of_toNat_eq
    simp only [Core.sp] at *
    rw [hret.sp, BitVec.toNat_add, BitVec.toNat_ofNat]
    omega
  have hmem3 : ∀ a : Word, k.sp ≤ a.toNat → k3.mem a = k.mem a := fun a ha => by
    rw [hret.mem a (by omega), hpushed.mem a (by omega), hmem1]
  have hback : C.system.Does ((Gen.stepsOf .add (pad + Gen.argBytes es)).map .instr ++
      [.instr (.mov .always Gen.result (.reg .r0))]) k3 (C.Valued p.table s σ g.result k x) := by
    refine (System.does_add _).seq ?_
    rintro _ rfl
    rw [hsp3]
    refine .instr rfl ⟨?_, hresult ▸ hret.is, hlive.move hw hat (.refl s) ?_ hmem3, ?_, fun a ha => hmem3 a ha.1⟩
    · simpa [Instr.effect, Cond.holds, Operand.value, Gen.result] using hret.value
    · simp [Instr.effect, Cond.holds, Core.sp, Gen.result]
    · simp [Instr.effect, Cond.holds, Gen.result]
  refine (hback _ tr3 hhas.right.right.right).weaken fun s' h => ⟨h.2.1, ?_, h.2.2⟩
  rw [h.1]
  simp only [List.length_append, List.length_singleton]
  omega

theorem Computed.valued {T : Table} {σ : Store} {t : Ty} {k k' : Core} {x : Datum} (h : Computed t k x k')
    (ht : t.isScalar = true) (hw : T.Wf) (hat : Around T sc s) (hlive : C.Live T s σ k) :
    C.Valued T s σ t k x k' := by
  obtain ⟨m, floor, limit, hhas⟩ := h.has
  exact ⟨h.value, hhas.is ht, hlive.frame hw hat h.frame (by decide), .frame h.frame (by decide)⟩

theorem Live.room {T : Table} {σ : Store} {k : Core} {d m : Nat} (h : C.Live T s σ k)
    (hneed : (C.need + (d * B + B) : Int) ≤ C.top) (hB : s.depth + m ≤ B) : C.need + m ≤ k.sp := by
  have hdepth := h.depth
  have hd : (0 : Int) ≤ d * B := by positivity
  omega

theorem Emits.expr (hC : C.Hosts p) {e : Expr} (he : e.Typed p.table sc) (hat : Around p.table sc s)
    (hB : s.depth + 8 * e.size + 64 ≤ B) :
    C.Emits p.table s (Gen.expr e pool) 0 fun out => ∀ (n d : Nat) σ k pos tr,
      (C.need + (d * B + B) : Int) ≤ C.top → C.system.image.Has pos out → C.Live p.table s σ k →
      C.system.Meets n ⟨k, pos, tr⟩ (e.run (p.host C.const n d) σ) fun x s' =>
        s'.pc = pos + out.length ∧ Computed e.type k x s'.toCore := by
  refine (Emits.runs hC.floor hC.typed.wf he hat).weaken ?_
  intro out hrun n d σ k pos tr hneed hhas hlive
  exact hrun _ n σ k pos tr (Program.host_const ..) hhas hlive (hlive.room hneed (by push_cast; omega))

theorem Emits.value (hC : C.Hosts p) {v : Value} (hv : v.Typed p.table sc) (hformed : v.Formed)
    (ht : v.type.isScalar = true) (hat : Around p.table sc s) (hB : s.depth + 8 * v.size + 64 ≤ B) :
    C.Emits p.table s (Gen.value v pool) 0 fun out => ∀ (n d : Nat) σ k pos tr,
      Answers C.system C.need p C.const B n → (C.need + (d * B + B) : Int) ≤ C.top → C.system.image.Has pos out →
      C.Live p.table s σ k → C.system.Meets n ⟨k, pos, tr⟩ (v.run (p.host C.const n d) σ) fun x s' =>
        s'.pc = pos + out.length ∧ C.Valued p.table s σ v.type k x s'.toCore := by
  have hw := hC.typed.wf
  cases hv with
  | item hi =>
    cases hi with
    | @expr e he =>
      refine (Emits.expr hC he hat hB).weaken ?_
      intro out hrun n d σ k pos tr _ hneed hhas hlive
      refine (hrun n d σ k pos tr hneed hhas hlive).weaken ?_
      exact fun x s' _ ⟨hpc, hx⟩ => ⟨hpc, hx.valued ht hw hat hlive⟩
    | @array span t vs _ =>
      have harray := hformed span t vs rfl
      rw [Ty.isArray_of_isScalar (show t.isScalar = true from ht)] at harray
      cases harray
  | newPair => cases ht
  | slot hp hpair =>
    obtain ⟨id, rfl, -, hid⟩ := hp.isVar hC.vars
    rw [Target.type] at hpair
    rw [hpair] at hid
    cases hid
  | call hg hes hargs =>
    refine Emits.callFunc hC hg hes hargs hat ?_
    exact hB

end Context

end Arm

end Wacc
