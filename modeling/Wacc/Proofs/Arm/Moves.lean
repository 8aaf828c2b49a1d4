/-
  Which programs have moves of the stack pointer that can be assembled.

  The paddings of calls are small.  What else moves the stack pointer can be read off the program: the bytes
  of its scopes, the bytes that a return gives back, and the arguments of calls with their padding.
-/
import Wacc.Proofs.Arm.Straight
import Wacc.Proofs.Compile
import Wacc.Proofs.Machine.Steps

namespace Wacc

/-! ## The moves of a program -/

def Table.room (T : Table) (i : ScopeId) : Nat := (((T.scope? i).map Scope.footprint).getD 0).toNat

open Arm.Gen (padding argBytes)

/-- The bytes that a call gives back: its arguments, and the padding that aligns the stack. -/
def Value.moves (d : Int) : Value → List Nat
  | .call _ _ _ _ es => [(padding (d + argBytes es) + argBytes es).toNat]
  | _ => []

mutual

/-- The bytes by which a statement moves the stack pointer, where `d` bytes are pushed. -/
def Stat.moves (T : Table) (d : Int) : Stat → List Nat
  | .skip _ | .read _ _ | .free _ _ | .exit _ _ | .print _ _ _ => []
  | .declare _ _ _ _ v | .assign _ _ v => v.moves d
  -- all but the return address
  | .ret _ _ => [(d - 4).toNat]
  | .block b | .ifThen _ _ b | .while _ _ b => b.moves T d
  | .ifElse _ _ yes no => yes.moves T d ++ no.moves T d
  | .for _ h init _ step b =>
    T.room h :: (init.moves T (d + T.room h) ++ (b.moves T (d + T.room h) ++ step.moves T (d + T.room h)))
  | .seq _ ss => Stat.movesAll T d ss

def Stat.movesAll (T : Table) (d : Int) : List Stat → List Nat
  | [] => []
  | s :: ss => s.moves T d ++ Stat.movesAll T d ss

def Block.moves (T : Table) (d : Int) : Block → List Nat
  | .mk _ i b => T.room i :: b.moves T (d + T.room i)

end

/-- The bytes by which a program moves the stack pointer.  Code starts with the return address pushed. -/
def Program.moves (p : Program) : List Nat :=
  (p.table.room Table.global :: p.body.moves p.table (4 + p.table.room Table.global)) ++
    p.funcs.flatMap fun f => f.body.moves p.table 4

namespace Arm

namespace Gen

variable {α β : Type} {T : Table} {sc : ScopeId}

/-! ## Steps with moves of any size -/

/-- If the step ends, the depth is as before, and the moves of the stack pointer can be assembled if those by
    `ms`, which depends on the depth, can. -/
def Moves (T : Table) (ms : Int → List Nat) (x : Gen α) : Prop :=
  ∀ s a out s', x T s = .ok (a, out, s') → s'.depth = s.depth ∧ (Encodes out ↔ ∀ n ∈ ms s.depth, Assembles n)

variable {ms ms' : Int → List Nat} {out : List Line} {s s' : Stage} {a : Unit} {x : Gen Unit} {i : ScopeId}

theorem Plain.moves {x : Gen α} (hx : Plain 0 x) : Moves T (fun _ => []) x := by
  intro s a out s' h
  obtain ⟨hd, -, he⟩ := hx T s a out s' h
  exact ⟨by rw [hd, add_zero], iff_of_true he fun _ h => nomatch h⟩

namespace Moves

variable {f : β → Gen α} {x : Gen β}

theorem after (hx : Plain 0 x) (hf : ∀ b, Moves T ms (f b)) : Moves T ms (x >>= f) := by
  intro s a out s' h
  obtain ⟨b, o, s1, o', h1, h2, rfl⟩ := bind_eq_ok h
  obtain ⟨hd1, -, he1⟩ := hx T s b o s1 h1
  obtain ⟨hd2, he2⟩ := hf b s1 a o' s' h2
  rw [add_zero] at hd1
  exact ⟨hd2.trans hd1, by rw [encodes_append, and_iff_right he1, he2, hd1]⟩

theorem andThen (hx : Moves T ms x) (hf : ∀ b, Moves T ms' (f b)) : Moves T (fun d => ms d ++ ms' d) (x >>= f) := by
  intro s a out s' h
  obtain ⟨b, o, s1, o', h1, h2, rfl⟩ := bind_eq_ok h
  obtain ⟨hd1, he1⟩ := hx s b o s1 h1
  obtain ⟨hd2, he2⟩ := hf b s1 a o' s' h2
  exact ⟨hd2.trans hd1, by rw [encodes_append, he1, he2, hd1, List.forall_mem_append]⟩

theorem andPlain (hx : Moves T ms x) (hf : ∀ b, Plain 0 (f b)) : Moves T ms (x >>= f) := by
  have h := hx.andThen fun b => (hf b).moves (T := T)
  simpa only [List.append_nil] using h

end Moves

theorem callFunc_moves (name : Text) (es : List Expr) (d : Reg) (rest : List Reg) :
    Moves T (fun n => [(padding (n + argBytes es) + argBytes es).toNat]) (callFunc name es d rest) := by
  intro s a out s' h
  obtain ⟨pushes, -, -, rfl, hpushes, hd, -⟩ := callFunc_parts h
  refine ⟨hd, ?_⟩
  have hgrow : Encodes ((stepsOf .sub (callPadding s.depth es).toNat).map .instr) :=
    stepsOf_encodes.2 (assembles_padding _)
  have hcall : Encodes [.instr (.call .always (.label (.func name)))] := encodes_singleton.2 nofun
  have hcopy : Encodes [.instr (.mov .always d (.reg .r0))] := encodes_singleton.2 nofun
  rw [callCode, ← List.singleton_append, encodes_append, encodes_append, encodes_append, encodes_append,
    and_iff_right hgrow, and_iff_right hpushes, and_iff_right hcall, and_iff_left hcopy, List.forall_mem_singleton]
  exact stepsOf_encodes

theorem value_moves {v : Value} (hv : v.Typed T sc) : Moves T v.moves (value v pool) := by
  cases hv with
  | item hv =>
    have hplain := (Law.item Plain.law hv pool).moves (T := T)
    cases hv <;> exact hplain
  | newPair ha hb =>
    refine Plain.moves (.andThen (Law.malloc Plain.law _ _) fun _ => .andThen (Law.expr Plain.law _ _) fun _ => ?_)
    exact .andThen (.store _ _ _ _) fun _ => .andThen (Law.expr Plain.law _ _) fun _ =>
      .store _ _ _ _
  | slot hp ht =>
    exact Plain.moves (.andThen (Law.address Plain.law (by decide) _ _) fun _ => .load _ _ _ _)
  | call hg has harg =>
    exact callFunc_moves _ _ _ _

/-! ## Statements -/

theorem jumpUnless_plain (e : Expr) (l : Label) : Plain 0 (jumpUnless e l) :=
  .andThen (Law.expr Plain.law e _) fun _ => .andThen (.emit (by nofun)) fun _ => .emit (by nofun)

theorem ret_moves (scope : ScopeId) (e : Expr) : Moves T (fun d => [(d - 4).toNat]) (ret scope e) := by
  refine .after (Law.argument Plain.law e) fun _ => .after (.andThen .table fun _ => .pure _) fun n => ?_
  intro s a out s' h
  rw [run_bind rfl] at h
  split_ifs at h with hn
  · cases h
  · rw [not_not] at hn
    subst hn
    obtain ⟨_, o, s1, _, ⟨⟩, ⟨⟩, rfl⟩ := bind_eq_ok h
    have hpop : Encodes [.instr (.pop [.pc])] := encodes_singleton.2 nofun
    refine ⟨rfl, ?_⟩
    rw [encodes_append, and_iff_left hpop, List.forall_mem_singleton]
    exact stepsOf_encodes

theorem enter_moves (h : enter i T s = .ok (a, out, s')) :
    s'.depth = s.depth + T.room i ∧ (Encodes out ↔ Assembles (T.room i)) := by
  cases h
  refine ⟨rfl, ?_⟩
  simp only [List.nil_append, List.append_nil]
  exact stepsOf_encodes

theorem leave_moves (h : leave i T s = .ok (a, out, s')) :
    s'.depth = s.depth - T.room i ∧ (Encodes out ↔ Assembles (T.room i)) := by
  unfold leave at h
  rw [run_bind rfl] at h
  obtain ⟨_, o, s1, o', hshrink, hrest, rfl⟩ := bind_eq_ok h
  cases hshrink
  rw [run_bind rfl] at hrest
  split_ifs at hrest
  · cases hrest
  · cases hrest
    refine ⟨rfl, ?_⟩
    simp only [List.append_nil]
    exact stepsOf_encodes

theorem within (hx : Moves T ms x) (i : ScopeId) :
    Moves T (fun d => T.room i :: ms (d + T.room i)) (do enter i; x; leave i) := by
  intro s a out s' h
  obtain ⟨_, o1, s1, _, henter, hrest, rfl⟩ := bind_eq_ok h
  obtain ⟨_, o2, s2, o3, hbody, hleave, rfl⟩ := bind_eq_ok hrest
  obtain ⟨hd1, he1⟩ := enter_moves henter
  obtain ⟨hd2, he2⟩ := hx _ _ _ _ hbody
  obtain ⟨hd3, he3⟩ := leave_moves hleave
  refine ⟨by omega, ?_⟩
  rw [encodes_append, encodes_append, he1, he2, he3, hd1, List.forall_mem_cons]
  exact and_congr_right fun hi => and_iff_left hi

theorem block_moves {b : Stat} (hb : Moves T (Stat.moves T · b) (stat b)) (site : Site) (i : ScopeId) :
    Moves T (Block.moves T · (.mk site i b)) (block (.mk site i b)) := by
  exact within hb i

theorem stats_moves {ss : List Stat} (h : ∀ b ∈ ss, Moves T (Stat.moves T · b) (stat b)) :
    Moves T (Stat.movesAll T · ss) (stats ss) := by
  induction ss with
  | nil => rw [stats]; exact Plain.moves (.pure _)
  | cons b ss ih =>
    obtain ⟨hb, hss⟩ := List.forall_mem_cons.1 h
    exact hb.andThen fun _ => ih hss

theorem loop_moves (cond : Expr) {body : Gen Unit} (hbody : Moves T ms body) :
    Moves T ms (do
      let top ← newPlace
      let stop ← newPlace
      label top
      jumpUnless cond stop
      body
      emit (.branch .always top)
      label stop) :=
  .after .newPlace fun _ => .after .newPlace fun _ => .after (.label _) fun _ =>
    .after (jumpUnless_plain _ _) fun _ => .andPlain hbody fun _ => .andThen (.emit (by nofun)) fun _ => .label _

theorem stat_moves {b : Stat} (hb : b.Typed T sc) : Moves T (Stat.moves T · b) (stat b) := by
  induction hb with
  | skip => rw [stat]; exact Plain.moves (.pure _)
  | declare _ _ _ hv => rw [stat]; exact .andPlain (value_moves hv) fun _ => Calm.storeVar Plain.calm _ _
  | assign _ hv => rw [stat]; exact .andPlain (value_moves hv) fun _ => Law.assign Plain.law _ (by decide) _ _
  | @read _ _ l =>
    rw [stat]
    refine Plain.moves ?_
    split
    · exact .fail _
    · exact .andThen (Law.address Plain.law (by decide) l _) fun _ => .andThen (.copy _ _) fun _ =>
        .callRoutine _ _
  | free =>
    refine Plain.moves (.andThen (Law.argument Plain.law _) fun _ => ?_)
    split_ifs
    · exact .callRoutine _ _
    · exact .callExtern _
  | ret => rw [stat]; exact ret_moves _ _
  | exit => rw [stat]; exact Plain.moves (.andThen (Law.argument Plain.law _) fun _ => .callExtern _)
  | print =>
    refine Plain.moves (.andThen (Law.argument Plain.law _) fun _ => .andThen (.callRoutine _ _) fun _ => ?_)
    split_ifs
    · exact .callRoutine _ _
    · exact .pure _
  | block _ _ ih => rw [stat]; exact block_moves ih _ _
  | ifThen _ _ _ _ ih =>
    exact .after .newPlace fun _ => .after (jumpUnless_plain _ _) fun _ =>
      .andPlain (block_moves ih _ _) fun _ => .label _
  | ifElse _ _ _ _ _ _ ih ih' =>
    exact .after .newPlace fun _ => .after .newPlace fun _ => .after (jumpUnless_plain _ _) fun _ =>
      .andThen (block_moves ih _ _) fun _ => .after (.emit (by rintro _ _ ⟨⟩)) fun _ => .after (.label _) fun _ =>
      .andPlain (block_moves ih' _ _) fun _ => .label _
  | «while» _ _ _ _ ih => rw [stat]; exact loop_moves _ (block_moves ih _ _)
  | @«for» _ h i _ site' _ step b c _ _ _ _ _ _ _ ihi ihs ihb =>
    have hloop := loop_moves c ((block_moves ihb site' i).andThen fun _ => ihs)
    have hall := within (ihi.andThen fun _ => hloop) h
    simp only [bind_assoc] at hall
    exact hall
  | seq _ ih => rw [stat]; exact stats_moves ih

/-! ## Programs -/

theorem pool_plain : Plain 0 (lines [.pool]) := .lines fun _ h => nomatch List.mem_singleton.1 h

theorem called_moves (hx : Moves T ms x) {l : Label} (h : (do label l; pushReg .lr; x) T s = .ok (a, out, s'))
    (hs : s.depth = 0) : Encodes out ↔ ∀ n ∈ ms 4, Assembles n := by
  obtain ⟨_, o1, s1, _, hlabel, hrest, rfl⟩ := bind_eq_ok h
  obtain ⟨_, o2, s2, o3, hpush, hbody, rfl⟩ := bind_eq_ok hrest
  obtain ⟨hd1, -, he1⟩ := Plain.label l T s _ o1 s1 hlabel
  obtain ⟨hd2, -, he2⟩ := Law.pushReg Plain.law .lr T s1 _ o2 s2 hpush
  obtain ⟨-, he3⟩ := hx s2 _ o3 s' hbody
  have hdepth : s2.depth = 4 := by omega
  rw [encodes_append, encodes_append, and_iff_right he1, and_iff_right he2, he3, hdepth]

theorem mainBody_moves {body : Stat} (hb : body.Typed T Table.global) (h : mainBody body T s = .ok (a, out, s'))
    (hs : s.depth = 0) :
    Encodes out ↔ ∀ n ∈ T.room Table.global :: body.moves T (4 + T.room Table.global), Assembles n := by
  have hbody := (within (stat_moves hb) Table.global).andPlain fun _ =>
    .andThen (.emit (i := .number .r0 0) (by nofun)) fun _ => .andThen .popReturn fun _ => pool_plain
  simp only [bind_assoc] at hbody
  exact called_moves hbody h hs

theorem function_moves {f : Func} (hf : f.Typed T) (h : function f T s = .ok (a, out, s')) :
    Encodes out ↔ ∀ n ∈ f.body.moves T 4, Assembles n := by
  have hblock : Moves T (Block.moves T · f.body) (block f.body) := by
    have hbody := stat_moves hf.body.2
    cases hb : f.body with
    | mk site i b =>
      rw [hb] at hbody
      exact block_moves hbody site i
  unfold function at h
  rw [run_bind rfl, run_bind rfl] at h
  exact called_moves (hblock.andPlain fun _ => pool_plain) h rfl

theorem functions_moves {fs : List Func} (hfs : ∀ f ∈ fs, f.Typed T) (h : functions fs T s = .ok (a, out, s')) :
    Encodes out ↔ ∀ n ∈ fs.flatMap (·.body.moves T 4), Assembles n := by
  induction fs generalizing s out with
  | nil =>
    cases h
    simp
  | cons f fs ih =>
    obtain ⟨hf, hfs⟩ := List.forall_mem_cons.1 hfs
    obtain ⟨_, o, s1, o', hrun, hrest, rfl⟩ := bind_eq_ok h
    rw [encodes_append, function_moves hf hrun, ih hfs hrest, List.flatMap_cons, List.forall_mem_append]

theorem encodes_body (r : Routine) (n : Nat) : Encodes ((r.body n).map .instr) := by
  cases r <;> simp [Encodes, Instr.Encodes, Routine.body, Routine.throwIf, Routine.printWith, Routine.readWith,
    Routine.chars, Routine.flush, Routine.enter, Routine.leave, Routine.lib]

theorem routines_encode {rs : List Routine} (h : routines rs T s = .ok (a, out, s')) : Encodes out := by
  induction rs generalizing s out with
  | nil =>
    cases h
    exact encodes_nil
  | cons r rs ih =>
    obtain ⟨_, o, s1, o', ⟨⟩, hrest, rfl⟩ := bind_eq_ok h
    refine encodes_append.2 ⟨?_, ih hrest⟩
    intro i hi
    refine encodes_body r s.consts.length i ?_
    simpa using hi

theorem program_moves {p : Program} (hp : p.Typed) {s' : Stage} (h : program p p.table {} = .ok (a, out, s')) :
    Encodes out ↔ ∀ n ∈ p.moves, Assembles n := by
  obtain ⟨_, o1, s1, o2, hmain, hrest, rfl⟩ := bind_eq_ok h
  obtain ⟨_, o2, s2, o3, hfuncs, hlast, rfl⟩ := bind_eq_ok hrest
  rw [run_bind rfl] at hlast
  rw [encodes_append, encodes_append, and_iff_left (routines_encode hlast), mainBody_moves hp.body hmain rfl,
    functions_moves hp.funcs hfuncs, Program.moves, List.forall_mem_append]

end Gen

namespace Assembly

theorem encodes_of_typed {p : Program} (hp : p.Typed) {a : Assembly} (h : ofProgram p = .ok a) :
    Encodes a.lines ↔ ∀ n ∈ p.moves, Assembles n := by
  unfold ofProgram at h
  split at h
  · cases h
  case _ u out s hrun =>
    cases h
    have hdata : Encodes (dataLines s.consts ++ [.text, .global .main]) := by
      intro i hi
      simp [dataLines, constLines] at hi
    rw [encodes_append, and_iff_right hdata, Gen.program_moves hp hrun]

/-- **The stack pointer moves by exactly the bytes that are asked for, but not every move can be assembled.**  A
    move is cut into steps that add up to it.  All of them are immediates if their rest after steps of 1024 bytes
    is below 256 or a multiple of four.  So the moves of an accepted program can be assembled if this holds for
    its scopes, its returns and its calls. -/
theorem stack_moves (f : File) (p : Program) (hlen : f.content.length < 2 ^ 32) (hp : f.program? = some p) :
    (∀ v, encodable v = true ↔ ∃ i < 16, ∃ b : BitVec 8, v.toBitVec = (b.setWidth 32).rotateRight (2 * i)) ∧
    (∀ n, ∃ ks : List Nat, ks.sum = n ∧
      (∀ op, Gen.stepsOf op n = ks.map fun k => .alu op .sp .sp (.imm k)) ∧
      (∀ (S : System) (k : Core),
        S.Does ((Gen.stepsOf .sub n).map .instr) k (· = k.set .sp (k.reg .sp - BitVec.ofNat 32 n)) ∧
        S.Does ((Gen.stepsOf .add n).map .instr) k (· = k.set .sp (k.reg .sp + BitVec.ofNat 32 n))) ∧
      (∀ k ∈ ks, 0 < k ∧ k ≤ maxStep) ∧
      ((∀ k ∈ ks, encodable k.toUInt32 = true) ↔ Assembles n)) ∧
    ∃ a, ofProgram p = .ok a ∧ (Encodes a.lines ↔ ∀ n ∈ p.moves, Assembles n) := by
  refine ⟨encodable_iff, fun n => ⟨Gen.chunks n, Gen.sum_chunks n, (Gen.stepsOf_eq · n), ?_, ?_, ?_⟩, ?_⟩
  · exact fun S k => ⟨S.does_sub n, S.does_add n⟩
  · exact fun k hk => Gen.mem_chunks hk
  · rw [← Gen.encodable_chunks]
    exact forall₂_congr fun k hk => encodable_step ⟨k, Nat.lt_succ_of_le (Gen.mem_chunks hk).2⟩
  · obtain ⟨⟨n, hn, hb⟩, -⟩ := File.bounded_of_program hlen hp
    obtain ⟨a, ha⟩ := emitted_of_bounded hb hn
    exact ⟨a, ha, encodes_of_typed hb.typed ha⟩

/-- A function with a block and two returns, and a call with five bytes of arguments. -/
def nested : File where
  id := 0
  path := lit "nested.wacc"
  flags := 0
  content := lit "begin
    int pick(char c, int n) is
      bool b = n < 2 ;
      if b then int m = n ; return m else return ord c fi
    end
    int x = 1 ;
    char c = 'a' ;
    begin
      bool b = true ;
      while b do x = call pick(c, x) ; b = x > 5 done
    end
  end"

theorem stack_moves_nested : ∃ p a, nested.program? = some p ∧ p.moves = [5, 1, 0, 6, 1, 4, 5, 0, 1] ∧
    ofProgram p = .ok a ∧ Encodes a.lines := by
  have hshape : nested.program?.any (·.moves = [5, 1, 0, 6, 1, 4, 5, 0, 1]) = true := by decide +kernel
  obtain ⟨p, hp, hshape⟩ := (Option.any_eq_true _ _).1 hshape
  have hmoves := of_decide_eq_true hshape
  obtain ⟨-, -, a, ha, hiff⟩ := stack_moves nested p (by decide +kernel) hp
  refine ⟨p, a, hp, hmoves, ha, hiff.2 ?_⟩
  rw [hmoves]
  decide

def crowded : File where
  id := 0
  path := lit "crowded.wacc"
  flags := 0
  content := lit "begin char c = 'a' ; " ++
    (List.range 64).flatMap (fun i => lit "int v" ++ decimal i ++ lit " = 0 ; ") ++ lit "print c end"

theorem crowded_not_encodes : ∃ p a, crowded.program? = some p ∧ ofProgram p = .ok a ∧
    .instr (.alu .sub .sp .sp (.imm 257)) ∈ a.lines ∧ encodable 257 = false := by
  have hrun : crowded.program?.any (fun p => (ofProgram p).toOption.any fun a =>
      .instr (.alu .sub .sp .sp (.imm 257)) ∈ a.lines) = true := by
    decide +kernel
  obtain ⟨p, hp, hrun⟩ := (Option.any_eq_true _ _).1 hrun
  obtain ⟨⟨n, hn, hb⟩, -⟩ := File.bounded_of_program (f := crowded) (by decide +kernel) hp
  obtain ⟨a, ha⟩ := emitted_of_bounded hb hn
  rw [ha] at hrun
  exact ⟨p, a, hp, ha, of_decide_eq_true hrun, by decide⟩

end Assembly

end Arm

end Wacc
