/-
  Code for statements keeps the stack in balance.
-/
import Wacc.Proofs.Arm.Frame
import Wacc.Proofs.Arm.Flow

namespace Wacc

mutual

def Stat.falls : Stat → Bool
  | .ret _ _ | .exit _ _ => false
  | .block b => b.falls
  | .ifElse _ _ a b => a.falls || b.falls
  | .for _ _ i _ _ _ => i.falls
  | .seq _ ss => Stat.fallsAll ss
  | _ => true

def Stat.fallsAll : List Stat → Bool
  | [] => true
  | s :: ss => s.falls && Stat.fallsAll ss

def Block.falls : Block → Bool
  | .mk _ _ b => b.falls

end

namespace Arm.Gen

variable {T : Table} {sc : ScopeId} {s s' : Stage}
  {n : Nat} {i : ScopeId} {site : Site} {f : Bool} {e : Expr} {r : Scope} {es : List (ScopeId × Int)}
  {c : Expr} {o : List Line} {x : Gen Unit}

/-- The lines leave the depth and the open scopes as they are; control gets to their end if `falls`. -/
structure Flows (s : Stage) (falls : Bool) (out : List Line) (s' : Stage) : Prop where
  depth : s'.depth = s.depth
  entry : s'.entry = s.entry
  flow : Flow s.depth s.places out (depthIf s.depth falls) s'.places

theorem Keeps.flows (h : Keeps s 0 o s') : Flows s true o s' := by
  have hd : s'.depth = s.depth := by rw [h.depth, add_zero]
  refine ⟨hd, h.entry, ?_⟩
  rw [h.places]
  exact (hd ▸ h.straight).flow _

theorem Flows.trans {f g : Bool} {o o' : List Line} {s'' : Stage} (h : Flows s f o s')
    (h' : Flows s' g o' s'') : Flows s (f && g) (o ++ o') s'' :=
  ⟨h'.depth.trans h.depth, h'.entry.trans h.entry, h.flow.seq (h.depth ▸ h'.flow)⟩

theorem Flows.nil (s : Stage) : Flows s true [] s := (Keeps.refl s).flows

structure Fits (T : Table) (n : Nat) : Prop where
  wf : T.Wf
  room : 4 + T.scopes.size * (4 * T.vars.size) + 4 * n + 32 < 2 ^ 63

def At (T : Table) (sc : ScopeId) (s : Stage) : Prop := Frames T s.entry sc s.depth

theorem At.covers (h : At T sc s) (hf : Fits T n) : Covers T s sc :=
  Frames.covers hf.wf h le_rfl

theorem Fits.below {d : Int} (hf : Fits T n) (h : Frames T es sc d) : d + 4 * n + 16 < depthLimit := by
  have hb := h.bound hf.wf
  obtain ⟨r, hr⟩ := h.scope
  have hsc : sc.toNat ≤ T.scopes.size := (Table.numbered_lt hr).2
  have hmul : (sc.toNat : Int) * (4 * T.vars.size) ≤ T.scopes.size * (4 * T.vars.size) := by
    gcongr
  have hroom : (4 + T.scopes.size * (4 * T.vars.size) + 4 * n + 32 : Int) < 2 ^ 63 := by
    exact_mod_cast hf.room
  simp only [depthLimit]
  omega

theorem At.room {m n : Nat} (h : At T sc s) (hf : Fits T n) (hm : m ≤ n) : Room s (4 * m + 16) := by
  have h4 := Frames.four_le h
  have hb := hf.below h
  exact ⟨by omega, by omega⟩

theorem At.same (h : At T sc s) (hk : Flows s f o s') : At T sc s' := by
  unfold At
  rw [hk.entry, hk.depth]
  exact h

/-! ## Single statements -/

theorem argument_keeps (he : e.Typed T sc) (h : At T sc s) (hf : Fits T n) (hn : e.size ≤ n) :
    Wp (argument e) (fun _ => Keeps s 0) T s := by
  refine ((h.covers hf).expr he pool_free ((h.room hf hn).le (by omega))).seq fun _ o1 s1 k1 => ?_
  exact copy_keeps.weaken fun _ o2 s2 k2 => k1.trans k2

theorem exit_flows (h : Room s 8) : Wp (callExtern .exit) (fun _ => Flows s false) T s := by
  obtain ⟨hp0, hp7, hmod⟩ := padding_spec s.depth
  refine wp_stage.2 ?_
  refine (grow_keeps hp0 (h.le (by omega))).seq fun _ o1 s1 k1 => ?_
  have hd := k1.depth
  have hr1 : Room s1 0 := h.after k1 hp0 (by omega)
  refine wp_bind_emit.2 ?_
  have h0 := h.nonneg
  refine (shrink_keeps hp0 (by omega) hr1).weaken fun _ o2 s2 k2 => ?_
  have hcall : Flow s1.depth s.places [.instr (.call .always (.extern_ .exit))] none s.places := by
    refine ⟨.plain (by simp [Line.isLabel]) (by simp [Line.InCode, Instr.Named, Callee.Named]) _,
      fun ps hps => ⟨ps, ?_, hps, fun _ _ => rfl⟩, fun ps _ => rfl⟩
    simp [walk, Line.walk, Instr.walk, hd, hmod, Callee.ends]
  refine ⟨by rw [k2.depth, hd]; ring, k2.entry.trans k1.entry, ?_⟩
  rw [k2.places, k1.places]
  exact (k1.straight.flow s.places).trans (hcall.stop (k2.straight.flow s.places))

theorem ret_flows (he : e.Typed T sc) (hin : T.InFunction sc) (h : At T sc s) (hf : Fits T n) (hn : e.size ≤ n) :
    Wp (ret sc e) (fun _ => Flows s false) T s := by
  refine (argument_keeps he h hf hn).seq fun _ o1 s1 k1 => ?_
  have h1 : At T sc s1 := h.same k1.flows
  have hbytes := Frames.blockBytes_frameChain hf.wf h1 hin
  have hun : unwound sc T s1 = .ok ((blockBytes T (T.frameChain sc) : Int), [], s1) := rfl
  refine (wp_bind_pure hun).2 (wp_stage.2 ?_)
  rw [if_neg (by rw [hbytes]; simp)]
  refine wp_bind_lines.2 (wp_emit.2 ?_)
  have hr := (h1.room hf hn)
  have hsteps : Straight s1.depth ((stepsOf .add (blockBytes T (T.frameChain sc) : Int).toNat).map .instr) 4 := by
    have := stepsOf_add (n := blockBytes T (T.frameChain sc)) (d := s1.depth) (by omega)
      (by have := hr.below; omega)
    rw [hbytes, sub_sub_cancel] at this
    rwa [Int.toNat_natCast]
  have hpop : Flow 4 s.places [.instr (.pop [.pc])] none s.places :=
    ⟨.plain (by simp [Line.isLabel]) (by simp [Line.InCode, Instr.Named]) _,
      fun ps hps => ⟨ps, rfl, hps, fun _ _ => rfl⟩, fun ps _ => rfl⟩
  refine ⟨k1.flows.depth, k1.entry, ?_⟩
  rw [k1.places]
  exact (k1.straight.flow _).trans ((hsteps.flow _).trans hpop)

theorem jumpUnless_keeps {l : Label} (he : e.Typed T sc) (h : At T sc s) (hf : Fits T n) (hn : e.size ≤ n) :
    Wp (jumpUnless e l)
      (fun _ out s' => s'.depth = s.depth ∧ s'.entry = s.entry ∧ s'.places = s.places ∧
        ∃ c, out = c ++ [.instr (.branch .eq l)] ∧ Straight s.depth c s.depth) T s := by
  refine ((h.covers hf).expr he pool_free ((h.room hf hn).le (by omega))).seq fun _ o1 s1 k1 => ?_
  refine (emit_keeps ⟨fun _ _ => rfl, by trivial⟩).seq fun _ o2 s2 k2 => wp_emit.2 ?_
  have k := k1.trans k2
  have hd : s2.depth = s.depth := by rw [k.depth]; ring
  refine ⟨hd, k.entry, k.places, o1 ++ o2, by rw [List.append_assoc], hd ▸ k.straight⟩

/-! ## Scopes -/

theorem footprint_eq (hr : T.scope? i = some r) : footprint i T s = .ok ((r.footprint.toNat : Int), [], s) := by
  rw [footprint, run_bind (show table T s = .ok (T, [], s) from rfl), hr]
  rfl

theorem enter_eq (hr : T.scope? i = some r) (hroom : Room s r.footprint.toNat) :
    Wp (enter i) (fun _ out s' => s'.depth = s.depth + r.footprint.toNat ∧
      s'.entry = (i, s.depth) :: s.entry ∧ s'.places = s.places ∧ Straight s.depth out s'.depth) T s := by
  refine wp_update.2 ((wp_bind_pure (footprint_eq hr)).2 ?_)
  have hroom' : Room { s with entry := (i, s.depth) :: s.entry } r.footprint.toNat :=
    ⟨hroom.nonneg, hroom.below⟩
  exact (grow_keeps (by omega) hroom').weaken fun _ _ _ k => ⟨k.depth, k.entry, k.places, k.straight⟩

theorem leave_eq {d : Int} (hr : T.scope? i = some r) (hd : s.depth = d + r.footprint.toNat)
    (hes : s.entry = (i, d) :: es) (hfilter : es.filter (fun e => e.1 != i) = es) (h0 : 0 ≤ d) (hroom : Room s 0) :
    Wp (leave i) (fun _ out s' => s'.depth = d ∧ s'.entry = es ∧ s'.places = s.places ∧
      Straight s.depth out d) T s := by
  refine (wp_bind_pure (footprint_eq hr)).2 ?_
  refine (shrink_keeps (by omega) (by omega) hroom).seq fun _ o1 s1 k1 => wp_stage.2 ?_
  have hd1 : s1.depth = d := by rw [k1.depth, hd]; ring
  have hlook : (s1.entry.lookup i).getD 0 = d := by rw [k1.entry, hes]; simp
  rw [if_neg (by rw [hlook, hd1]; simp)]
  refine ⟨(), [], _, rfl, hd1, ?_, k1.places, ?_⟩
  · simp only [k1.entry, hes, List.filter_cons, bne_self_eq_false, Bool.false_eq_true, if_false, hfilter]
  · rw [List.append_nil]; exact hd1 ▸ k1.straight

def StatFlows (T : Table) (n : Nat) (sc : ScopeId) (b : Stat) : Prop :=
  ∀ s, At T sc s → b.size ≤ n → Wp (stat b) (fun _ => Flows s b.falls) T s

theorem inScope_flows (hr : T.scope? i = some r) (hroom : Room s r.footprint.toNat)
    (hfilter : s.entry.filter (fun e => e.1 != i) = s.entry) (hx : ∀ s1, s1.depth = s.depth + r.footprint.toNat →
      s1.entry = (i, s.depth) :: s.entry → Wp x (fun _ => Flows s1 f) T s1) :
    Wp (do enter i; x; leave i) (fun _ => Flows s f) T s := by
  refine (enter_eq hr hroom).seq fun _ o1 s1 ⟨hd1, he1, hp1, hst1⟩ => ?_
  refine (hx s1 hd1 he1).seq fun _ o2 s2 hfl => ?_
  have h0 := hroom.nonneg
  have hd2 := hfl.depth.trans hd1
  have hroom₂ : Room s2 0 := ⟨by omega, by have := hroom.below; omega⟩
  refine (leave_eq hr hd2 (hfl.entry.trans he1) hfilter h0 hroom₂).weaken ?_
  rintro _ o3 s3 ⟨hd3, he3, hp3, hst3⟩
  refine ⟨hd3, he3, ?_⟩
  have hflow := hfl.flow
  rw [hp1] at hflow
  rw [hfl.depth] at hst3
  rw [hp3]
  have hlast : Flow s1.depth s2.places o3 (depthIf s.depth true) s2.places := hst3.flow _
  have := (hst1.flow s.places).trans (hflow.seq hlast)
  rwa [Bool.and_true] at this

theorem inBlock_flows (hf : Fits T n) (hb : T.IsBlock sc i) (h : At T sc s)
    (hx : ∀ s1, At T i s1 → Wp x (fun _ => Flows s1 f) T s1) :
    Wp (do enter i; x; leave i) (fun _ => Flows s f) T s := by
  obtain ⟨r, hr, hk, hp⟩ := hb
  have h4 := Frames.four_le h
  have hnext := Frames.block h hr hk hp
  have hroom : Room s r.footprint.toNat := by
    have := hf.below hnext
    exact ⟨by omega, by omega⟩
  refine inScope_flows hr hroom (Frames.filter_entry hf.wf h ⟨r, hr, hk, hp⟩) fun s1 hd he => hx s1 ?_
  unfold At
  rw [hd, he]
  exact hnext

theorem block_flows {b : Stat} (hf : Fits T n) (hb : T.IsBlock sc i) (hs : StatFlows T n i b) (hn : b.size ≤ n)
    (h : At T sc s) : Wp (block (.mk site i b)) (fun _ => Flows s b.falls) T s := by
  exact inBlock_flows hf hb h fun s1 h1 => hs s1 h1 hn

/-! ## Branches and loops -/

theorem wp_newPlace {α : Type} {f : Label → Gen α} {Q : α → List Line → Stage → Prop} :
    Wp (newPlace >>= f) Q T s ↔ Wp (f (.place s.places)) Q T { s with places := s.places + 1 } :=
  wp_bind_pure rfl

theorem wp_label {l : Label} {Q : Unit → List Line → Stage → Prop} :
    Wp (label l) Q T s ↔ Q () [.label l] s := wp_lines

theorem wp_bind_label {α : Type} {l : Label} {f : Unit → Gen α} {Q : α → List Line → Stage → Prop} :
    Wp (label l >>= f) Q T s ↔ Wp (f ()) (fun a o s' => Q a (.label l :: o) s') T s := wp_bind_lines

def loop (c : Expr) (inside : Gen Unit) : Gen Unit := do
  let top ← newPlace
  let stop ← newPlace
  label top
  jumpUnless c stop
  inside
  emit (.branch .always top)
  label stop

theorem loop_flows {inside : Gen Unit} (hf : Fits T n) (hc : c.Typed T sc) (hn : c.size ≤ n) (h : At T sc s) (hi : ∀
      s1, At T sc s1 → Wp inside (fun _ => Flows s1 f) T s1) : Wp (loop c inside) (fun _ => Flows s true) T s := by
  refine wp_newPlace.2 (wp_newPlace.2 (wp_bind_label.2 ?_))
  refine (jumpUnless_keeps (s := { s with places := s.places + 1 + 1 }) hc h hf hn).seq ?_
  rintro _ _ s1 ⟨hd1, he1, hp1, o1, rfl, hst⟩
  have h1 : At T sc s1 := by unfold At; rw [hd1, he1]; exact h
  refine (hi s1 h1).seq fun _ o2 s2 k => wp_bind_emit.2 (wp_label.2 ?_)
  refine ⟨k.depth.trans hd1, k.entry.trans he1, ?_⟩
  have hflow := k.flow
  rw [hd1, hp1] at hflow
  exact Flow.loop hst hflow

theorem ifThen_flows {yes : Gen Unit} (hf : Fits T n) (hc : c.Typed T sc) (hn : c.size ≤ n) (h : At T sc s)
    (hy : ∀ s1, At T sc s1 → Wp yes (fun _ => Flows s1 f) T s1) :
    Wp (do let stop ← newPlace; jumpUnless c stop; yes; label stop) (fun _ => Flows s true) T s := by
  refine wp_newPlace.2 ?_
  refine (jumpUnless_keeps (s := { s with places := s.places + 1 }) hc h hf hn).seq ?_
  rintro _ _ s1 ⟨hd1, he1, hp1, o1, rfl, hst⟩
  have h1 : At T sc s1 := by unfold At; rw [hd1, he1]; exact h
  refine (hy s1 h1).seq fun _ o2 s2 k => wp_label.2 ?_
  refine ⟨k.depth.trans hd1, k.entry.trans he1, ?_⟩
  have hflow := k.flow
  rw [hd1, hp1] at hflow
  exact Flow.ifThen hst hflow

theorem ifElse_flows {yes no : Gen Unit} {f g : Bool} (hf : Fits T n) (hc : c.Typed T sc) (hn : c.size ≤ n)
    (h : At T sc s) (hy : ∀ s1, At T sc s1 → Wp yes (fun _ => Flows s1 f) T s1)
    (hno : ∀ s1, At T sc s1 → Wp no (fun _ => Flows s1 g) T s1) :
    Wp (do
      let stop ← newPlace
      let other ← newPlace
      jumpUnless c other
      yes
      emit (.branch .always stop)
      label other
      no
      label stop) (fun _ => Flows s (f || g)) T s := by
  refine wp_newPlace.2 (wp_newPlace.2 ?_)
  refine (jumpUnless_keeps (s := { s with places := s.places + 1 + 1 }) hc h hf hn).seq ?_
  rintro _ _ s1 ⟨hd1, he1, hp1, o1, rfl, hst⟩
  have h1 : At T sc s1 := by unfold At; rw [hd1, he1]; exact h
  refine (hy s1 h1).seq fun _ o2 s2 k2 => wp_bind_emit.2 (wp_bind_label.2 ?_)
  refine (hno s2 (h1.same k2)).seq fun _ o3 s3 k3 => wp_label.2 ?_
  have hd2 := k2.depth.trans hd1
  refine ⟨k3.depth.trans hd2, k3.entry.trans (k2.entry.trans he1), ?_⟩
  have hflow₂ := k2.flow
  have hflow₃ := k3.flow
  rw [hd1, hp1] at hflow₂
  rw [hd2] at hflow₃
  exact Flow.ifElse hst hflow₂ hflow₃

/-! ## All statements -/

theorem reader_of_readable {t : Ty} (h : Typing.isReadable t = true) :
    ∃ r, reader? t = some r ∧ r ≠ .throwRuntime := by
  cases t with
  | int => exact ⟨.readInt, rfl, nofun⟩
  | char => exact ⟨.readChar, rfl, nofun⟩
  | string => exact ⟨.readString, rfl, nofun⟩
  | array t d => exact ⟨.readString, if_pos h, nofun⟩
  | _ => cases h

theorem printer_ne {t : Ty} : printer t ≠ .throwRuntime := by
  unfold printer
  repeat' split
  all_goals simp

theorem declare_keeps {x : VarId} {v : Variable} {name : Text} {value : Value} (hf : Fits T n)
    (hx : T.var? x = some v) (he : T.Encloses sc v.scope) (hv : value.Typed T sc) (h : At T sc s)
    (hn : value.size ≤ n) : Wp (stat (.declare site x name v.type value)) (fun _ => Keeps s 0) T s := by
  refine (value_keeps hf.wf hv pool_free (h.covers hf) (h.room hf hn)).seq fun _ o1 s1 k1 => ?_
  have hslot : HasSlot T s1 x := (h.covers hf).after k1 le_rfl x v hx he
  exact (storeVar_keeps hslot).weaken fun _ o2 s2 k2 => k1.trans k2

theorem assignment_keeps {l : Target} {v : Value} (hf : Fits T n) (hl : l.Typed T sc) (hv : v.Typed T sc)
    (h : At T sc s) (hn : l.size + v.size ≤ n) : Wp (stat (.assign site l v)) (fun _ => Keeps s 0) T s := by
  have hroom := h.room hf hn
  refine (value_keeps hf.wf hv pool_free (h.covers hf) (hroom.le (by omega))).seq fun _ o1 s1 k1 => ?_
  exact (assign_keeps hl ((h.covers hf).after k1 le_rfl) pool_free.tail
    ((hroom.same k1).le (by omega))).weaken fun _ o2 s2 k2 => k1.trans k2

theorem read_keeps {l : Target} (hf : Fits T n) (hl : l.Typed T sc) (hr : Typing.isReadable l.type = true)
    (h : At T sc s) (hn : l.size ≤ n) : Wp (stat (.read site l)) (fun _ => Keeps s 0) T s := by
  obtain ⟨r, hread, hne⟩ := reader_of_readable hr
  have hroom := h.room hf hn
  rw [stat, hread]
  refine (address_keeps hl (h.covers hf) pool_free (hroom.le (by omega))).seq fun _ o1 s1 k1 => ?_
  refine copy_keeps.seq fun _ o2 s2 k2 => ?_
  have hroom₂ := (hroom.same k1).same k2
  exact (callRoutine_keeps (fun hc => hne hc.2) (hroom₂.le (by omega))).weaken
    fun _ o3 s3 k3 => k1.trans (k2.trans k3)

theorem free_keeps (hf : Fits T n) (he : e.Typed T sc) (h : At T sc s) (hn : e.size ≤ n) :
    Wp (stat (.free site e)) (fun _ => Keeps s 0) T s := by
  refine (argument_keeps he h hf hn).seq fun _ o1 s1 k1 => ?_
  have hroom := (h.room hf hn).same k1
  split_ifs
  · refine (callRoutine_keeps (by simp) (hroom.le (by omega))).weaken fun _ o2 s2 k2 => k1.trans k2
  · refine (callExtern_keeps (by simp) (hroom.le (by omega))).weaken fun _ o2 s2 k2 => k1.trans k2

theorem print_keeps {newline : Bool} (hf : Fits T n) (he : e.Typed T sc) (h : At T sc s) (hn : e.size ≤ n) :
    Wp (stat (.print site e newline)) (fun _ => Keeps s 0) T s := by
  refine (argument_keeps he h hf hn).seq fun _ o1 s1 k1 => ?_
  have hroom := (h.room hf hn).same k1
  refine (callRoutine_keeps (fun hc => printer_ne hc.2) (hroom.le (by omega))).seq fun _ o2 s2 k2 => ?_
  split_ifs
  · have hroom₂ := hroom.same k2
    refine (callRoutine_keeps (by simp) (hroom₂.le (by omega))).weaken
      fun _ o3 s3 k3 => k1.trans (k2.trans k3)
  · exact wp_pure.2 (k1.trans (k2.trans (.refl s2)))

theorem stats_flows {ss : List Stat} (hss : ∀ b ∈ ss, StatFlows T n sc b) (h : At T sc s) (hn : Stat.sizes ss ≤ n) :
    Wp (stats ss) (fun _ => Flows s (Stat.fallsAll ss)) T s := by
  induction ss generalizing s with
  | nil => rw [stats]; exact wp_pure.2 (.nil s)
  | cons b ss ih =>
    obtain ⟨hb, hss⟩ := List.forall_mem_cons.1 hss
    rw [Stat.sizes] at hn
    refine (hb s h (by omega)).seq fun _ o1 s1 k1 => ?_
    exact (ih hss (h.same k1) (by omega)).weaken fun _ o2 s2 k2 => k1.trans k2

theorem stat_for (site : Site) (i : ScopeId) (init step : Stat) (c : Expr) (b : Block) :
    stat (.for site i init c step b) = (do
      enter i
      (do stat init; loop c (do block b; stat step))
      leave i) := by
  rw [stat]
  simp only [loop, bind_assoc]

/-- **Code for statements keeps the stack in balance.** -/
theorem stat_flows {b : Stat} (hf : Fits T n) (hb : b.Typed T sc) : StatFlows T n sc b := by
  induction hb with
  | skip => exact fun s _ _ => by rw [stat]; exact wp_pure.2 (.nil s)
  | declare hx hsc he hv _ =>
    intro s h hn
    rw [Stat.size] at hn
    exact (declare_keeps hf hx (hsc ▸ he) hv h (by omega)).weaken fun _ _ _ k => k.flows
  | assign hl hv _ =>
    intro s h hn
    rw [Stat.size] at hn
    exact (assignment_keeps hf hl hv h (by omega)).weaken fun _ _ _ k => k.flows
  | read hl hr =>
    intro s h hn
    rw [Stat.size] at hn
    exact (read_keeps hf hl hr h (by omega)).weaken fun _ _ _ k => k.flows
  | free he _ =>
    intro s h hn
    rw [Stat.size] at hn
    exact (free_keeps hf he h (by omega)).weaken fun _ _ _ k => k.flows
  | ret hs he hin =>
    intro s h hn
    rw [Stat.size] at hn
    rw [stat, hs]
    exact ret_flows he hin h hf (by omega)
  | exit he _ =>
    intro s h hn
    rw [Stat.size] at hn
    refine (argument_keeps he h hf (by omega)).seq fun _ o1 s1 k1 => ?_
    have hroom := (h.room hf (Nat.zero_le n)).same k1
    exact (exit_flows (hroom.le (by omega))).weaken fun _ o2 s2 k2 => k1.flows.trans k2
  | print he =>
    intro s h hn
    rw [Stat.size] at hn
    exact (print_keeps hf he h (by omega)).weaken fun _ _ _ k => k.flows
  | block hb _ ih =>
    intro s h hn
    simp only [Stat.size, Block.size] at hn
    exact block_flows hf hb ih (by omega) h
  | ifThen hc _ hb _ ih =>
    intro s h hn
    simp only [Stat.size, Block.size] at hn
    exact ifThen_flows hf hc (by omega) h fun s1 => block_flows hf hb ih (by omega)
  | ifElse hc _ hb _ hb' _ ih ih' =>
    intro s h hn
    simp only [Stat.size, Block.size] at hn
    exact ifElse_flows hf hc (by omega) h (fun s1 => block_flows hf hb ih (by omega))
      fun s1 => block_flows hf hb' ih' (by omega)
  | «while» hc _ hb _ ih =>
    intro s h hn
    simp only [Stat.size, Block.size] at hn
    exact loop_flows hf hc (by omega) h fun s1 => block_flows hf hb ih (by omega)
  | @«for» _ _ _ _ _ init step body _ hh _ hc _ _ hb _ ihi ihs ihb =>
    intro s h hn
    simp only [Stat.size, Block.size] at hn
    rw [stat_for]
    refine inBlock_flows hf hh h fun s1 h1 => ?_
    refine (ihi s1 h1 (by omega)).seq fun _ o1 s2 k1 => ?_
    -- control reaches the loop only if it leaves what stands before
    refine (loop_flows (f := body.falls && step.falls) hf hc (by omega) (h1.same k1) ?_).weaken ?_
    · intro s3 h3
      refine (block_flows hf hb ihb (by omega) h3).seq fun _ o s4 k => ?_
      exact (ihs s4 (h3.same k) (by omega)).weaken fun _ o' s5 k' => k.trans k'
    · intro _ o2 s4 k2
      have := k1.trans k2
      rwa [Bool.and_true] at this
  | seq _ ih =>
    intro s h hn
    exact stats_flows ih h hn

end Arm.Gen

end Wacc
