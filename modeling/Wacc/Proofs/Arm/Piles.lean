/-
  What lies on top of the stack while code is generated.

  Inside a statement values, padding and arguments are pushed on top of a stack and taken away again.
-/
import Wacc.Proofs.Arm.Noted
import Wacc.Proofs.Arm.Straight

namespace Wacc.Arm

/-! ## Steps that move the stack only -/

namespace Gen

variable {α : Type} {n : Int}

def Deepens (n : Int) (x : Gen α) : Prop :=
  ∀ T s a out s', x T s = .ok (a, out, s') → s'.depth = s.depth + n ∧ s'.entry = s.entry

theorem Plain.deepens {x : Gen α} (hx : Plain n x) : Deepens n x := fun T s a out s' hrun =>
  ⟨(hx T s a out s' hrun).1, (hx T s a out s' hrun).2.1⟩

theorem lines_deepens (ls : List Line) : Deepens 0 (lines ls) := by
  rintro T s _ _ _ ⟨⟩
  exact ⟨(add_zero _).symm, rfl⟩

theorem grow_deepens (n : Int) : Deepens n (grow n) := by
  rintro T s _ _ _ ⟨⟩
  exact ⟨rfl, rfl⟩

theorem shrink_deepens (n : Int) : Deepens (-n) (shrink n) := by
  rintro T s _ _ _ ⟨⟩
  exact ⟨rfl, rfl⟩

end Gen

/-! ## Bytes on top of a stack -/

def Held.isTemporary : Held → Bool
  | .value | .padding | .argument => true
  | .link | .vars _ => false

/-- The question was asked and answered with temporary bytes on top of a stack. -/
structure Lookup.On (T : Table) (q : Lookup) (s : Stage) (h : List Held) : Prop where
  answered : ∃ r, Gen.slot q.var T q.stage = .ok r
  entry : q.stage.entry = s.entry
  top : ∃ top, q.held = top ++ h ∧ q.stage.depth = s.depth + top.length ∧ ∀ o ∈ top, o.isTemporary = true

structure Pile (k : List Held) (s₀ : Stage) (h₀ : List Held) (s : Stage) (h : List Held) : Prop where
  depth : s.depth = s₀.depth + k.length
  entry : s.entry = s₀.entry
  held : h = k ++ h₀
  plain : ∀ o ∈ k, o.isTemporary = true

namespace Noted

open Gen (Plain argBytes)

variable {α β : Type} {T : Table} {s : Stage} {h k k' k'' : List Held}

/-- The step finds the bytes `k` on top of a stack and leaves `k'` there; what it asks for in between is
    asked on top of that stack. -/
def Piles (T : Table) (k k' : List Held) (x : Noted α) (y : Gen α) : Prop :=
  ∀ s₀ h₀ s h, Pile k s₀ h₀ s h →
    Follows x y T s h fun _ s' h' ls => Pile k' s₀ h₀ s' h' ∧ ∀ q ∈ ls, q.On T s₀ h₀

namespace Piles

variable {x : Noted α} {y : Gen α}

theorem bind {f : α → Noted β} {g : α → Gen β} (hx : Piles T k k' x y) (hf : ∀ a, Piles T k' k'' (f a) (g a)) :
    Piles T k k'' (x >>= f) (y >>= g) := by
  intro s0 h0 s h hp
  refine (hx s0 h0 s h hp).bind fun a s1 h1 ls hp1 => ?_
  exact (hf a s0 h0 s1 h1 hp1.1).weaken fun b s2 h2 more hp2 =>
    ⟨hp2.1, List.forall_mem_append.2 ⟨hp1.2, hp2.2⟩⟩

theorem ite {c : Prop} [Decidable c] {x' : Noted α} {y' : Gen α} (hx : Piles T k k' x y) (hx' : Piles T k k' x' y') :
    Piles T k k' (if c then x else x') (if c then y else y') := by
  split_ifs
  · exact hx
  · exact hx'

theorem steady (hy : y.Deepens 0) : Piles T k k (Noted.plain y) y := by
  intro s0 h0 s h hp
  refine .plain fun a out s' hrun => ⟨?_, nofun⟩
  obtain ⟨hd, he⟩ := hy _ _ _ _ _ hrun
  exact ⟨by rw [hd, add_zero, hp.depth], he.trans hp.entry, hp.held, hp.plain⟩

theorem plain (hy : y.Plain 0) : Piles T k k (Noted.plain y) y := steady hy.deepens

theorem lines (ls : List Line) : Piles T k k (Noted.plain (Gen.lines ls)) (Gen.lines ls) :=
  steady (Gen.lines_deepens ls)

theorem emit (i : Instr) : Piles T k k (Noted.plain (Gen.emit i)) (Gen.emit i) := lines _

theorem fail (f : Fault) : Piles T k k (Noted.plain (Gen.fail f : Gen α)) (Gen.fail f) := plain (.fail f)

theorem load (d base : Reg) (off : Int) (t : Ty) :
    Piles T k k (Noted.plain (Gen.load d base off t)) (Gen.load d base off t) := plain (.load d base off t)

theorem store (r base : Reg) (off : Int) (t : Ty) :
    Piles T k k (Noted.plain (Gen.store r base off t)) (Gen.store r base off t) := plain (.store r base off t)

theorem apply (op : BinOp) (d l r : Reg) :
    Piles T k k (Noted.plain (Gen.apply op d l r)) (Gen.apply op d l r) := plain (Plain.calm.apply op d l r)

theorem pure (a : α) : Piles T k k (Pure.pure a : Noted α) (Pure.pure a) := by
  rintro s0 h0 s h hp _ _ _ ⟨⟩
  exact ⟨h, [], rfl, hp, nofun⟩

theorem push {y : Gen Unit} {n : Nat} {o : Held} (hy : y.Deepens n) (ho : o.isTemporary = true) :
    Piles T k (List.replicate n o ++ k) (Noted.hold y (List.replicate n o ++ ·)) y := by
  intro s0 h0 s h hp
  refine .hold fun out s' hrun => ⟨?_, nofun⟩
  obtain ⟨hd, he⟩ := hy _ _ _ _ _ hrun
  refine ⟨?_, he.trans hp.entry, by rw [hp.held, List.append_assoc], ?_⟩
  · rw [hd, hp.depth, List.length_append, List.length_replicate]
    push_cast
    ring
  · refine List.forall_mem_append.2 ⟨fun o' ho' => ?_, hp.plain⟩
    rw [List.eq_of_mem_replicate ho']
    exact ho

theorem pop {y : Gen Unit} {n : Nat} (hy : y.Deepens (-n)) (hn : k'.length = n) :
    Piles T (k' ++ k) k (Noted.hold y (List.drop n)) y := by
  intro s0 h0 s h hp
  refine .hold fun out s' hrun => ⟨?_, nofun⟩
  obtain ⟨hd, he⟩ := hy _ _ _ _ _ hrun
  refine ⟨?_, he.trans hp.entry, ?_, (List.forall_mem_append.1 hp.plain).2⟩
  · rw [hd, hp.depth, List.length_append, hn]
    push_cast
    ring
  · rw [hp.held, List.append_assoc, ← hn, List.drop_left]

theorem pushReg (r : Reg) :
    Piles T k (List.replicate 4 .value ++ k) (Noted.pushReg r .value) (Gen.pushReg r) :=
  push (Plain.law.pushReg r).deepens rfl

theorem popReg (r : Reg) : Piles T (List.replicate 4 .value ++ k) k (Noted.popReg r) (Gen.popReg r) :=
  pop (Plain.law.popReg r).deepens rfl

theorem slot (id : VarId) : Piles T k k (Noted.slot id) (Gen.slot id) := by
  intro s0 h0 s h hp a out s' hrun
  obtain ⟨hd, he⟩ := (Plain.calm.slot id).deepens T s a out s' hrun
  refine ⟨h, [⟨id, s, h⟩], ?_, ⟨by rw [hd, add_zero, hp.depth], he.trans hp.entry, hp.held, hp.plain⟩, ?_⟩
  · show (Gen.stage >>= fun s => Gen.slot id >>= fun r => Pure.pure (r, h, [(⟨id, s, h⟩ : Lookup)])) T s = _
    rw [Gen.run_bind rfl, run_return hrun]
  · intro q hq
    obtain rfl := List.mem_singleton.1 hq
    exact ⟨⟨_, hrun⟩, hp.entry, k, hp.held, hp.depth, hp.plain⟩

end Piles

/-! ## Expressions, places and values -/

theorem loadVar_piles (d : Reg) (id : VarId) : Piles T k k (loadVar d id) (Gen.loadVar d id) :=
  .bind (.slot id) fun _ => .load _ _ _ _

theorem storeVar_piles (r : Reg) (id : VarId) : Piles T k k (storeVar r id) (Gen.storeVar r id) :=
  .bind (.slot id) fun _ => .store _ _ _ _

theorem addressOf_piles (d : Reg) (id : VarId) : Piles T k k (addressOf d id) (Gen.addressOf d id) :=
  .bind (.slot id) fun _ => .ite (.emit _) (.bind (.emit _) fun _ => .emit _)

mutual

theorem expr_piles (e : Expr) (rs : List Reg) (k : List Held) : Piles T k k (expr e rs) (Gen.expr e rs) := by
  cases rs with
  | nil => rw [expr, Gen.expr]; exact .fail _
  | cons d rest =>
    cases e with
    | str s t =>
      rw [expr, Gen.expr]
      exact .bind (.plain (.stringConst t)) fun _ => .emit _
    | var id => rw [expr, Gen.expr]; exact loadVar_piles d id.var
    | elem s t id is =>
      rw [expr, Gen.expr]
      exact .bind (loadVar_piles d id.var) fun _ => .bind (indices_piles id.type 0 is d rest k) fun _ =>
        .load _ _ _ _
    | unary s t op e =>
      rw [expr, Gen.expr]
      exact .bind (expr_piles e (d :: rest) k) fun _ => .plain (Plain.calm.applyUnary op d)
    | binary s t op l r =>
      cases rest with
      | nil =>
        rw [expr, Gen.expr]
        exact .bind (expr_piles r [d] k) fun _ => .bind (.pushReg d) fun _ => .bind (expr_piles l [d] _) fun _ =>
          .bind (.popReg scratch) fun _ => .apply _ _ _ _
      | cons e rest =>
        rw [expr, Gen.expr]
        refine .ite ?_ ?_
        · exact .bind (expr_piles l _ k) fun _ => .bind (expr_piles r _ k) fun _ => .apply _ _ _ _
        · exact .bind (expr_piles r _ k) fun _ => .bind (expr_piles l _ k) fun _ => .apply _ _ _ _
    | _ => rw [expr, Gen.expr]; exact .emit _

theorem indices_piles (array : Ty) (done : Nat) (is : List Expr) (arr : Reg) (rest : List Reg) (k : List Held) :
    Piles T k k (indices array done is arr rest) (Gen.indices array done is arr rest) := by
  cases is with
  | nil => rw [indices, Gen.indices]; exact .pure ()
  | cons i is =>
    have hload : ∀ rs, Piles T k k (do
        if !is.isEmpty then Gen.emit (.load .word arr (.offset arr 0))
        indices array (done + 1) is arr rs) (do
        if !is.isEmpty then Gen.emit (.load .word arr (.offset arr 0))
        Gen.indices array (done + 1) is arr rs) := fun rs =>
      .ite (.bind (.emit _) fun _ => indices_piles array (done + 1) is arr rs k)
        (indices_piles array (done + 1) is arr rs k)
    cases rest with
    | nil =>
      rw [indices, Gen.indices]
      exact .bind (.pushReg arr) fun _ => .bind (expr_piles i [arr] _) fun _ => .bind (.emit _) fun _ =>
        .bind (.popReg arr) fun _ => .bind (.plain (.lift _)) fun _ =>
        .bind (.plain (Plain.calm.step _ _ _)) fun _ => hload []
    | cons r rest =>
      rw [indices, Gen.indices]
      exact .bind (expr_piles i _ k) fun _ => .bind (.plain (.lift _)) fun _ =>
        .bind (.plain (Plain.calm.step _ _ _)) fun _ => hload (r :: rest)

end

theorem address_piles (l : Target) (rs : List Reg) : Piles T k k (address l rs) (Gen.address l rs) := by
  cases rs with
  | nil => rw [address, Gen.address]; exact .fail _
  | cons d rest =>
    induction l with
    | var id => rw [address, Gen.address]; exact addressOf_piles d id.var
    | elem s t id is =>
      rw [address, Gen.address]
      exact .bind (loadVar_piles d id.var) fun _ => indices_piles id.type 0 is d rest k
    | slot s t snd pair ih =>
      have hcheck : Piles T k k (do
          Gen.copy .r0 d
          Gen.callRoutine .always .checkNullPointer
          if snd then Gen.emit (.alu .add d d (.imm Gen.slotSize)) : Noted Unit) (do
          Gen.copy .r0 d
          Gen.callRoutine .always .checkNullPointer
          if snd then Gen.emit (.alu .add d d (.imm Gen.slotSize))) :=
        .bind (.emit _) fun _ => .bind (.plain (.callRoutine _ _)) fun _ => .ite (.emit _) (.pure ())
      cases pair with
      | var id =>
        rw [address, Gen.address]
        exact .bind (loadVar_piles d id.var) fun _ => hcheck
      | elem | slot =>
        rw [address, Gen.address]
        · exact .bind ih fun _ => .bind (.load _ _ _ _) fun _ => hcheck
        all_goals rintro _ ⟨⟩

theorem assign_piles (r : Reg) (l : Target) (rs : List Reg) : Piles T k k (assign r l rs) (Gen.assign r l rs) := by
  cases rs with
  | nil => rw [assign, Gen.assign]; exact .fail _
  | cons d rest =>
    cases l with
    | var id => exact storeVar_piles r id.var
    | elem | slot => exact .bind (address_piles _ _) fun _ => .store _ _ _ _

theorem args_piles (d : Reg) (rest : List Reg) (es : List Expr) (k : List Held) :
    Piles T k (List.replicate (argBytes es) .argument ++ k) (args d rest es) (Gen.args d rest es) := by
  induction es generalizing k with
  | nil => rw [args, Gen.args]; exact .pure ()
  | cons e es ih =>
    rw [args, Gen.args]
    refine .bind (expr_piles e _ k) fun _ => .bind (.push (Plain.law.pushValue d e.type).deepens rfl) fun _ => ?_
    have hrest := ih (List.replicate e.type.size.toNat .argument ++ k)
    rw [← List.append_assoc, List.replicate_append_replicate] at hrest
    rw [argBytes, List.foldr_cons, Nat.add_comm]
    exact hrest

theorem callFunc_piles (name : Text) (es : List Expr) (d : Reg) (rest : List Reg) :
    Piles T k k (callFunc name es d rest) (Gen.callFunc name es d rest) := by
  refine .bind (.plain .stage) fun s => ?_
  obtain ⟨hpad, -, -⟩ := Gen.padding_spec (s.depth + argBytes es)
  obtain ⟨n, hn⟩ := Int.eq_ofNat_of_zero_le hpad
  have hgrow : Piles T k (List.replicate n .padding ++ k) (grow n) (Gen.grow n) := by
    have := Piles.push (T := T) (k := k) (Gen.grow_deepens n) (o := .padding) rfl
    simpa only [grow, Int.toNat_natCast] using this
  have hshrink : Piles T ((List.replicate (argBytes es) .argument ++ List.replicate n .padding) ++ k) k
      (shrink ((n : Int) + argBytes es)) (Gen.shrink ((n : Int) + argBytes es)) := by
    have hlen : (List.replicate (argBytes es) Held.argument ++ List.replicate n Held.padding).length =
        n + argBytes es := by simp [Nat.add_comm]
    have hx : Gen.Deepens (-((n + argBytes es : Nat) : Int)) (Gen.shrink ((n : Int) + argBytes es)) := by
      push_cast
      exact Gen.shrink_deepens _
    have := Piles.pop (T := T) (k := k) hx hlen
    simpa only [shrink, ← Nat.cast_add, Int.toNat_natCast] using this
  show Piles T k k (do
    grow (Gen.padding (s.depth + argBytes es))
    args d rest es
    Gen.emit (.call .always (.label (.func name)))
    shrink (Gen.padding (s.depth + argBytes es) + argBytes es)
    Gen.copy d .r0) (do
    Gen.grow (Gen.padding (s.depth + argBytes es))
    Gen.args d rest es
    Gen.emit (.call .always (.label (.func name)))
    Gen.shrink (Gen.padding (s.depth + argBytes es) + argBytes es)
    Gen.copy d .r0)
  rw [hn]
  refine hgrow.bind fun _ => .bind (args_piles d rest es _) fun _ => .bind (.emit _) fun _ => ?_
  rw [← List.append_assoc]
  exact hshrink.bind fun _ => .emit _

mutual

theorem value_piles (v : Value) (rs : List Reg) (k : List Held) : Piles T k k (value v rs) (Gen.value v rs) := by
  cases v with
  | expr e => rw [value, Gen.value]; exact expr_piles e rs k
  | array s t vs =>
    match rs with
    | [] | [_] =>
      rw [value, Gen.value]
      · exact .fail _
      all_goals nofun
    | arr :: tmp :: rest =>
      rw [value, Gen.value]
      exact .bind (.plain (Plain.law.elemSize t)) fun _ => .bind (.plain (Plain.law.malloc _ _)) fun _ =>
        .bind (elements_piles _ 0 vs arr tmp rest k) fun _ => .bind (.emit _) fun _ => .emit _
  | newPair s a b =>
    match rs with
    | [] | [_] =>
      rw [value, Gen.value]
      · exact .fail _
      all_goals nofun
    | cell :: tmp :: rest =>
      rw [value, Gen.value]
      exact .bind (.plain (Plain.law.malloc _ _)) fun _ => .bind (expr_piles a _ k) fun _ =>
        .bind (.store _ _ _ _) fun _ => .bind (expr_piles b _ k) fun _ => .store _ _ _ _
  | slot s t snd pair =>
    cases rs with
    | nil =>
      rw [value, Gen.value]
      · exact .fail _
      all_goals nofun
    | cons d rest =>
      rw [value, Gen.value]
      exact .bind (address_piles _ _) fun _ => .load _ _ _ _
  | call s t f name es =>
    cases rs with
    | nil =>
      rw [value, Gen.value]
      · exact .fail _
      all_goals nofun
    | cons d rest => rw [value, Gen.value]; exact callFunc_piles name es d rest

theorem elements_piles (size i : Nat) (vs : List Value) (arr tmp : Reg) (rest : List Reg) (k : List Held) :
    Piles T k k (elements size i vs arr tmp rest) (Gen.elements size i vs arr tmp rest) := by
  cases vs with
  | nil => rw [elements, Gen.elements]; exact .pure ()
  | cons v vs =>
    have htail : Piles T k k (do
        Gen.store tmp arr (4 + i * size : Nat) v.type
        elements size (i + 1) vs arr tmp rest) (do
        Gen.store tmp arr (4 + i * size : Nat) v.type
        Gen.elements size (i + 1) vs arr tmp rest) :=
      .bind (.store _ _ _ _) fun _ => elements_piles size (i + 1) vs arr tmp rest k
    cases rest with
    | nil =>
      cases v with
      | array s t es =>
        rw [elements, Gen.elements]
        exact .bind (.pushReg arr) fun _ => .bind (value_piles _ _ _) fun _ => .bind (.emit _) fun _ =>
          .bind (.popReg arr) fun _ => htail
      | _ =>
        rw [elements, Gen.elements]
        · exact .bind (value_piles _ _ k) fun _ => htail
        all_goals nofun
    | cons r rest =>
      rw [elements, Gen.elements]
      · exact .bind (value_piles v _ k) fun _ => htail
      all_goals nofun

end

end Noted

end Wacc.Arm
