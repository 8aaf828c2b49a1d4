/-
  Code that runs straight on.

  The code of expressions, addresses and values, calls of functions apart, is made of a few kinds of steps:
  instructions that refer to nothing and hardly move the stack pointer, pushes and pops, calls of routines, and
  constants.  What holds of these kinds, and of one step after another, holds of all such code.
-/
import Wacc.Proofs.Arm.Immediates
import Wacc.Proofs.Arm.Value

namespace Wacc.Arm

def Instr.refs : Instr → List Callee
  | .address _ _ l | .branch _ l => [.label l]
  | .call _ f => [f]
  | _ => []

theorem encodes_word (op : Alu) (d r : Reg) : (Instr.alu op d r (.imm 4)).Encodes := by
  rintro _ _ ⟨⟩
  exact ⟨4, rfl, by decide⟩

namespace Gen

/-- A property of steps that do not push, which the code around the operands of an expression has. -/
structure Calm (P : {α : Type} → Gen α → Prop) : Prop where
  seq : ∀ {α β : Type} {x : Gen β} {f : β → Gen α}, P x → (∀ b, P (f b)) → P (x >>= f)
  fail : ∀ {α : Type} (f : Fault), P (Gen.fail f : Gen α)
  pure : ∀ {α : Type} (a : α), P (Pure.pure a : Gen α)
  table : P Gen.table
  stage : P Gen.stage
  quiet : ∀ {i : Instr}, i.Encodes → i.refs = [] → (∀ rs, i ≠ .push rs) → P (Gen.emit i)
  routine : ∀ c r, P (callRoutine c r)
  library : ∀ e, P (callExtern e)

namespace Calm

variable {P : {α : Type} → Gen α → Prop} (L : Calm @P)

include L

theorem slot (id : VarId) : P (Gen.slot id) := by
  refine L.seq L.table fun T => ?_
  split
  · exact L.fail _
  · refine L.seq L.stage fun s => ?_
    split
    · exact L.fail _
    · dsimp only
      split_ifs
      · exact L.seq (L.fail _) fun _ => L.pure _
      · exact L.pure _

theorem access {mk : Address → Instr} (h : ∀ a, (mk a).Encodes) (hr : ∀ a, (mk a).refs = [])
    (hp : ∀ a rs, mk a ≠ .push rs) (limit : Int) (base : Reg) (off : Int) : P (Gen.access mk limit base off) := by
  unfold Gen.access
  split_ifs
  · exact L.quiet (h _) (hr _) (hp _)
  · exact L.seq (L.quiet (by nofun) rfl (by nofun)) fun _ => L.quiet (h _) (hr _) (hp _)

theorem load (d base : Reg) (off : Int) (t : Ty) : P (Gen.load d base off t) := by
  unfold Gen.load
  split
  · exact L.access (fun _ => by nofun) (fun _ => rfl) (fun _ => by nofun) _ _ _
  · exact L.access (fun _ => by nofun) (fun _ => rfl) (fun _ => by nofun) _ _ _

theorem store (r base : Reg) (off : Int) (t : Ty) : P (Gen.store r base off t) :=
  L.access (fun _ => by nofun) (fun _ => rfl) (fun _ => by nofun) _ _ _

theorem loadVar (d : Reg) (x : VarId) : P (Gen.loadVar d x) :=
  L.seq (L.slot x) fun _ => L.load _ _ _ _

theorem storeVar (r : Reg) (x : VarId) : P (Gen.storeVar r x) :=
  L.seq (L.slot x) fun _ => L.store _ _ _ _

theorem addressOf {d : Reg} (hd : d ≠ .sp) (x : VarId) : P (Gen.addressOf d x) := by
  refine L.seq (L.slot x) fun _ => ?_
  dsimp only
  split_ifs
  · refine L.quiet (fun op k h => ?_) rfl (by nofun)
    cases h
    exact absurd rfl hd
  · exact L.seq (L.quiet (by nofun) rfl (by nofun)) fun _ => L.quiet (by nofun) rfl (by nofun)

theorem copy (d r : Reg) : P (Gen.copy d r) := L.quiet (by nofun) rfl (by nofun)

theorem apply (op : BinOp) (d l r : Reg) : P (Gen.apply op d l r) := by
  have hcompare : ∀ yes no, P (do
      Gen.emit (.cmp l (.reg r)); Gen.emit (.mov yes d (.imm 1)); Gen.emit (.mov no d (.imm 0))) := fun _ _ =>
    L.seq (L.quiet (by nofun) rfl (by nofun)) fun _ => L.seq (L.quiet (by nofun) rfl (by nofun)) fun _ => L.quiet (by nofun) rfl (by nofun)
  have hdivide : ∀ e q, P (do
      Gen.copy .r0 l; Gen.copy .r1 r; callRoutine .always .checkDivideByZero; callExtern e; Gen.copy d q) := fun _ _ =>
    L.seq (L.copy _ _) fun _ => L.seq (L.copy _ _) fun _ => L.seq (L.routine _ _) fun _ =>
      L.seq (L.library _) fun _ => L.copy _ _
  cases op with
  | add | sub => exact L.seq (L.quiet (by nofun) rfl (by nofun)) fun _ => L.routine _ _
  | mul => exact L.seq (L.quiet (by nofun) rfl (by nofun)) fun _ => L.seq (L.quiet (by nofun) rfl (by nofun)) fun _ => L.routine _ _
  | div | mod => exact hdivide _ _
  | and | or => exact L.quiet (by nofun) rfl (by nofun)
  | unknown => exact L.fail _
  | _ => exact hcompare _ _

theorem applyUnary (op : UnOp) (d : Reg) : P (Gen.applyUnary op d) := by
  cases op with
  | not =>
    refine L.quiet ?_ rfl (by nofun)
    rintro _ _ ⟨⟩
    exact ⟨1, rfl, by decide⟩
  | len => exact L.quiet (by nofun) rfl (by nofun)
  | minus =>
    refine L.seq (L.quiet ?_ rfl (by nofun)) fun _ => L.routine _ _
    rintro _ _ ⟨⟩
    exact ⟨0, rfl, by decide⟩
  | ord | chr => exact L.pure _
  | unknown => exact L.fail _

theorem step (arr i : Reg) (t : Ty) : P (Gen.step arr i t) :=
  L.seq (L.copy _ _) fun _ => L.seq (L.copy _ _) fun _ => L.seq (L.routine _ _) fun _ =>
    L.seq (L.quiet (encodes_word _ _ _) rfl (by nofun)) fun _ => L.quiet (by split <;> nofun) rfl (by nofun)

end Calm

/-- A property of steps that push a number of bytes, which straight code has. -/
structure Law (P : {α : Type} → Int → Gen α → Prop) : Prop where
  bind : ∀ {α β : Type} {j k : Int} {x : Gen β} {f : β → Gen α}, P j x → (∀ b, P (k - j) (f b)) → P k (x >>= f)
  fail : ∀ {α : Type} {k : Int} (f : Fault), P k (Gen.fail f : Gen α)
  pure : ∀ {α : Type} (a : α), P 0 (Pure.pure a : Gen α)
  table : P 0 Gen.table
  stage : P 0 Gen.stage
  lift : ∀ {α : Type} (x : Except Fault α), P 0 (Gen.lift x)
  deepen : ∀ n, P n (Gen.deepen n)
  quiet : ∀ {i : Instr}, i.Encodes → i.refs = [] → P 0 (Gen.emit i)
  routine : ∀ c r, P 0 (callRoutine c r)
  library : ∀ e, P 0 (callExtern e)
  constant : ∀ d t, P 0 (do Gen.emit (.address .always d (← stringConst t)))

namespace Law

variable {P : {α : Type} → Int → Gen α → Prop} (L : Law @P) {α β : Type} {k : Int}

include L

theorem andThen {x : Gen β} {f : β → Gen α} (hx : P 0 x) (hf : ∀ b, P k (f b)) : P k (x >>= f) :=
  L.bind hx fun b => by rw [sub_zero]; exact hf b

theorem calm : Calm fun {_} x => P 0 x :=
  ⟨L.andThen, L.fail, L.pure, L.table, L.stage, fun h hr _ => L.quiet h hr, L.routine, L.library⟩

theorem when {c : Prop} [Decidable c] {x : Gen Unit} {f : Unit → Gen α} (hx : P 0 x) (hf : P k (f ())) :
    P k (if c then x >>= f else f ()) := by
  split_ifs
  · exact L.andThen hx fun _ => hf
  · exact hf

/-! ## The stack -/

theorem pushReg (r : Reg) : P 4 (Gen.pushReg r) := L.andThen (L.quiet (by nofun) rfl) fun _ => L.deepen 4

theorem popReg (r : Reg) : P (-4) (Gen.popReg r) := L.andThen (L.quiet (by nofun) rfl) fun _ => L.deepen (-4)

theorem pushValue (r : Reg) (t : Ty) : P t.size.toNat (Gen.pushValue r t) :=
  L.andThen (L.quiet (by nofun) rfl) fun _ => L.deepen _

/-! ## Expressions -/

mutual

theorem expr (e : Expr) (rs : List Reg) : P 0 (Gen.expr e rs) := by
  match rs with
  | [] => unfold Gen.expr; exact L.fail _
  | d :: rest =>
    cases e with
    | int sp n => rw [Gen.expr]; exact L.quiet (by nofun) rfl
    | bool sp b => rw [Gen.expr]; exact L.quiet (by nofun) rfl
    | char sp c => rw [Gen.expr]; exact L.quiet (by nofun) rfl
    | str sp t => rw [Gen.expr]; exact L.constant d t
    | null sp => rw [Gen.expr]; exact L.quiet (by nofun) rfl
    | var id => rw [Gen.expr]; exact L.calm.loadVar d id.var
    | elem sp t id is =>
      rw [Gen.expr]
      exact L.andThen (L.calm.loadVar d id.var) fun _ => L.andThen (indices _ _ is d rest) fun _ =>
        L.calm.load _ _ _ _
    | unary sp t op e => rw [Gen.expr]; exact L.andThen (expr e _) fun _ => L.calm.applyUnary op d
    | binary sp t op l r =>
      match rest with
      | [] =>
        rw [Gen.expr]
        exact L.andThen (expr r _) fun _ => L.bind (L.pushReg d) fun _ => L.andThen (expr l _) fun _ =>
          L.bind (L.popReg _) fun _ => L.calm.apply op _ _ _
      | e :: rest =>
        rw [Gen.expr]
        split_ifs
        · exact L.andThen (expr l _) fun _ => L.andThen (expr r _) fun _ => L.calm.apply op _ _ _
        · exact L.andThen (expr r _) fun _ => L.andThen (expr l _) fun _ => L.calm.apply op _ _ _

theorem indices (array : Ty) (done : Nat) (is : List Expr) (arr : Reg) (rest : List Reg) :
    P 0 (Gen.indices array done is arr rest) := by
  match is, rest with
  | [], _ => rw [Gen.indices]; exact L.pure _
  | i :: is, [] =>
    rw [Gen.indices]
    exact L.bind (L.pushReg arr) fun _ => L.andThen (expr i _) fun _ => L.andThen (L.calm.copy _ _) fun _ =>
      L.bind (L.popReg arr) fun _ => L.andThen (L.lift _) fun t => L.andThen (L.calm.step _ _ t) fun _ =>
      L.when (L.quiet (by nofun) rfl) (indices array _ is arr _)
  | i :: is, r :: rest =>
    rw [Gen.indices]
    exact L.andThen (expr i _) fun _ => L.andThen (L.lift _) fun t => L.andThen (L.calm.step _ _ t) fun _ =>
      L.when (L.quiet (by nofun) rfl) (indices array _ is arr _)

end

/-! ## Places and values -/

theorem address {d : Reg} (hd : d ≠ .sp) (l : Target) (rest : List Reg) : P 0 (Gen.address l (d :: rest)) := by
  induction l with
  | var id => rw [Gen.address]; exact L.calm.addressOf hd id.var
  | elem sp t id is =>
    rw [Gen.address]
    exact L.andThen (L.calm.loadVar d id.var) fun _ => L.indices _ _ is d rest
  | slot sp t snd pair ih =>
    have hcheck : P 0 (do
        Gen.copy .r0 d
        callRoutine .always .checkNullPointer
        if snd then Gen.emit (.alu .add d d (.imm slotSize))) := by
      refine L.andThen (L.calm.copy _ _) fun _ => L.andThen (L.routine _ _) fun _ => ?_
      split_ifs
      · exact L.quiet (encodes_word _ _ _) rfl
      · exact L.pure _
    cases pair with
    | var id =>
      rw [Gen.address]
      exact L.andThen (L.calm.loadVar d id.var) fun _ => hcheck
    | elem | slot =>
      rw [Gen.address]
      · exact L.andThen ih fun _ => L.andThen (L.calm.load _ _ _ _) fun _ => hcheck
      all_goals rintro _ ⟨⟩

theorem assign (r : Reg) {d : Reg} (hd : d ≠ .sp) (l : Target) (rest : List Reg) :
    P 0 (Gen.assign r l (d :: rest)) := by
  cases l with
  | var id => rw [Gen.assign]; exact L.calm.storeVar r _; rintro ⟨⟩
  | elem | slot =>
    rw [Gen.assign]
    · exact L.andThen (L.address hd _ _) fun _ => L.calm.store _ _ _ _
    all_goals rintro _ ⟨⟩

theorem malloc (d : Reg) (size : Nat) : P 0 (Gen.malloc d size) :=
  L.andThen (L.quiet (by nofun) rfl) fun _ => L.andThen (L.library _) fun _ => L.calm.copy _ _

theorem elemSize (t : Ty) : P 0 (Gen.elemSize t) := by
  unfold Gen.elemSize
  split
  · exact L.andThen (L.lift _) fun _ => L.pure _
  · exact L.pure _

theorem args (d : Reg) (rest : List Reg) (es : List Expr) : P (argBytes es) (Gen.args d rest es) := by
  induction es with
  | nil => rw [Gen.args]; exact L.pure _
  | cons e es ih =>
    have hbytes : (argBytes (e :: es) : Int) - e.type.size.toNat = argBytes es := by simp [argBytes]
    rw [Gen.args]
    exact L.andThen (L.expr e _) fun _ => L.bind (L.pushValue _ _) fun _ => hbytes ▸ ih

variable {T : Table} {sc : ScopeId}

mutual

theorem item {v : Value} (hv : v.Item T sc) (rs : List Reg) : P 0 (Gen.value v rs) := by
  match v, hv, rs with
  | .expr e, _, rs => rw [Gen.value]; exact L.expr e rs
  | .array sp t vs, .array hvs, arr :: tmp :: rest =>
    rw [Gen.value]
    exact L.andThen (L.elemSize t) fun size => L.andThen (L.malloc _ _) fun _ =>
      L.andThen (elements hvs size 0 arr tmp rest) fun _ => L.andThen (L.quiet (by nofun) rfl) fun _ => L.quiet (by nofun) rfl
  | .array _ _ _, _, [] | .array _ _ _, _, [_] =>
    rw [Gen.value]
    · exact L.fail _
    all_goals nofun

theorem elements {vs : List Value} (hvs : ∀ v ∈ vs, v.Item T sc) (size i : Nat) (arr tmp : Reg)
    (rest : List Reg) : P 0 (Gen.elements size i vs arr tmp rest) := by
  match vs, hvs with
  | [], _ => rw [Gen.elements]; exact L.pure _
  | v :: vs, hvs =>
    obtain ⟨hv, hvs⟩ := List.forall_mem_cons.1 hvs
    have htail : P 0 (do
        Gen.store tmp arr (4 + i * size : Nat) v.type
        Gen.elements size (i + 1) vs arr tmp rest) :=
      L.andThen (L.calm.store _ _ _ _) fun _ => elements hvs size _ arr tmp rest
    have hplain : P 0 (do
        Gen.value v (tmp :: rest)
        Gen.store tmp arr (4 + i * size : Nat) v.type
        Gen.elements size (i + 1) vs arr tmp rest) := L.andThen (item hv _) fun _ => htail
    match v, rest with
    | .array _ _ _, [] =>
      rw [Gen.elements]
      exact L.bind (L.pushReg _) fun _ => L.andThen (item hv _) fun _ => L.andThen (L.calm.copy _ _) fun _ =>
        L.bind (L.popReg _) fun _ => htail
    | .expr _, [] | _, _ :: _ =>
      rw [Gen.elements]
      · exact hplain
      all_goals nofun

end

/-! ## Statements -/

theorem argument (e : Expr) : P 0 (Gen.argument e) := L.andThen (L.expr e _) fun _ => L.calm.copy _ _

end Law

/-! ## Steps whose moves can be assembled -/

theorem assembles_padding (d : Int) : Assembles (padding d).toNat := by
  obtain ⟨-, h, -⟩ := padding_spec d
  exact assembles_of_lt (by omega)

/-- If the step ends, the stack is `k` bytes deeper, the scopes are as before and the moves of the stack pointer can
    be assembled. -/
def Plain {α : Type} (k : Int) (x : Gen α) : Prop :=
  ∀ T s a out s', x T s = .ok (a, out, s') → s'.depth = s.depth + k ∧ s'.entry = s.entry ∧ Encodes out

namespace Plain

variable {α β : Type} {j k : Int} {g : Stage → Stage} {f : β → Gen α}

theorem deeper {x : Gen β} (hx : Plain j x) (hf : ∀ b, Plain (k - j) (f b)) : Plain k (x >>= f) := by
  intro T s a out s' h
  obtain ⟨b, o, s1, o', h1, h2, rfl⟩ := bind_eq_ok h
  obtain ⟨hd1, hs1, he1⟩ := hx T s b o s1 h1
  obtain ⟨hd2, hs2, he2⟩ := hf b T s1 a o' s' h2
  exact ⟨by rw [hd2, hd1, add_assoc, add_sub_cancel], hs2.trans hs1, encodes_append.2 ⟨he1, he2⟩⟩

theorem andThen {x : Gen β} (hx : Plain 0 x) (hf : ∀ b, Plain k (f b)) : Plain k (x >>= f) :=
  deeper hx fun b => by rw [sub_zero]; exact hf b

theorem fail (f : Fault) : Plain k (Gen.fail f : Gen α) := fun _ _ _ _ _ h => nomatch h

theorem still {x : Gen α} (h : ∀ T s, ∃ a, x T s = .ok (a, [], s)) : Plain 0 x := by
  intro T s a out s' hrun
  obtain ⟨b, hb⟩ := h T s
  cases hb.symm.trans hrun
  exact ⟨(add_zero _).symm, rfl, encodes_nil⟩

theorem pure (a : α) : Plain 0 (Pure.pure a) := still fun _ _ => ⟨a, rfl⟩

theorem table : Plain 0 Gen.table := still fun T _ => ⟨T, rfl⟩

theorem stage : Plain 0 Gen.stage := still fun _ s => ⟨s, rfl⟩

theorem lift (x : Except Fault α) : Plain 0 (Gen.lift x) := by
  cases x with
  | error e => exact fail e
  | ok a => exact pure a

theorem update (hg : ∀ s, (g s).depth = s.depth + k ∧ (g s).entry = s.entry) : Plain k (Gen.update g) := by
  rintro T s _ _ _ ⟨⟩
  exact ⟨(hg s).1, (hg s).2, encodes_nil⟩

theorem keep (hg : ∀ s, (g s).depth = s.depth ∧ (g s).entry = s.entry) : Plain 0 (Gen.update g) :=
  update fun s => by rw [add_zero]; exact hg s

theorem deepen (n : Int) : Plain n (Gen.deepen n) := .update fun _ => ⟨rfl, rfl⟩

theorem lines {ls : List Line} (h : Encodes ls) : Plain 0 (Gen.lines ls) := by
  rintro T s _ _ _ ⟨⟩
  exact ⟨(add_zero _).symm, rfl, h⟩

theorem emit {i : Instr} (h : i.Encodes) : Plain 0 (Gen.emit i) := .lines (encodes_singleton.2 h)

theorem label (l : Label) : Plain 0 (Gen.label l) := .lines fun _ h => nomatch List.mem_singleton.1 h

theorem newPlace : Plain 0 Gen.newPlace :=
  andThen stage fun _ => andThen (keep fun _ => ⟨rfl, rfl⟩) fun _ => pure _

theorem grow {n : Int} (h : Assembles n.toNat) : Plain n (Gen.grow n) :=
  .andThen (.lines (stepsOf_encodes.2 h)) fun _ => deepen n

theorem shrink {n : Int} (h : Assembles n.toNat) : Plain (-n) (Gen.shrink n) :=
  .andThen (.lines (stepsOf_encodes.2 h)) fun _ => deepen _

theorem callOut (c : Cond) (f : Callee) : Plain 0 (Gen.callOut c f) := by
  refine .andThen .stage fun s => ?_
  have hpad := assembles_padding s.depth
  refine .deeper (.grow hpad) fun _ => .andThen (.emit (by nofun)) fun _ => ?_
  rw [zero_sub]
  exact .shrink hpad

theorem callRoutine (c : Cond) (r : Routine) : Plain 0 (Gen.callRoutine c r) :=
  .andThen (.keep fun _ => ⟨rfl, rfl⟩) fun _ => callOut _ _

theorem callExtern (e : Extern) : Plain 0 (Gen.callExtern e) := callOut _ _

theorem stringConst (t : Text) : Plain 0 (Gen.stringConst t) := by
  refine .andThen .stage fun s => ?_
  split
  · exact .pure _
  · exact .andThen (.keep fun _ => ⟨rfl, rfl⟩) fun _ => .pure _

theorem law : Law Plain where
  bind := .deeper
  fail := .fail
  pure := .pure
  table := .table
  stage := .stage
  lift := .lift
  deepen := .deepen
  quiet h _ := .emit h
  routine := .callRoutine
  library := .callExtern
  constant _ t := .andThen (.stringConst t) fun _ => .emit (by nofun)

theorem calm : Calm fun {_} => Plain 0 := Law.calm law

theorem copy (d r : Reg) : Plain 0 (Gen.copy d r) := Calm.copy calm d r

theorem load (d base : Reg) (off : Int) (t : Ty) : Plain 0 (Gen.load d base off t) := Calm.load calm d base off t

theorem store (r base : Reg) (off : Int) (t : Ty) : Plain 0 (Gen.store r base off t) := Calm.store calm r base off t

theorem popReturn : Plain 0 Gen.popReturn := by
  refine .andThen .stage fun s => ?_
  split_ifs
  · exact .andThen (.fail _) fun _ => .emit (by nofun)
  · exact .emit (by nofun)

end Plain

/-! ## Calls of functions -/

def callPadding (depth : Int) (es : List Expr) : Int := padding (depth + argBytes es)

/-- The code of a call makes room for the padding, pushes the arguments, branches, and takes both back at once. -/
def callCode (name : Text) (es : List Expr) (d : Reg) (depth : Int) (pushes : List Line) : List Line :=
  (stepsOf .sub (callPadding depth es).toNat).map .instr ++ (pushes ++
    .instr (.call .always (.label (.func name))) ::
      ((stepsOf .add (callPadding depth es + argBytes es).toNat).map .instr ++ [.instr (.mov .always d (.reg .r0))]))

theorem callFunc_parts {T : Table} {s s' : Stage} {name : Text} {es : List Expr} {d : Reg} {rest : List Reg}
    {out : List Line} (h : callFunc name es d rest T s = .ok ((), out, s')) :
    ∃ pushes s1, args d rest es T { s with depth := s.depth + callPadding s.depth es } = .ok ((), pushes, s1) ∧
      out = callCode name es d s.depth pushes ∧ Encodes pushes ∧ s'.depth = s.depth ∧ s'.entry = s.entry := by
  unfold callFunc at h
  rw [run_bind rfl] at h
  obtain ⟨_, o1, s1, _, ⟨⟩, h1, rfl⟩ := bind_eq_ok h
  obtain ⟨_, o2, s2, _, hargs, h2, rfl⟩ := bind_eq_ok h1
  obtain ⟨_, o3, s3, _, ⟨⟩, h3, rfl⟩ := bind_eq_ok h2
  obtain ⟨_, o4, s4, o5, ⟨⟩, ⟨⟩, rfl⟩ := bind_eq_ok h3
  obtain ⟨hd, he, henc⟩ := Law.args Plain.law d rest es T _ _ o2 s2 hargs
  refine ⟨o2, s2, hargs, by simp [callCode, callPadding, argBytes], henc, ?_, he⟩
  change s2.depth + -(callPadding s.depth es + argBytes es) = s.depth
  rw [show s2.depth = s.depth + callPadding s.depth es + argBytes es from hd]
  ring

end Gen

end Wacc.Arm
