/-
  Code generation does not look at spans.
-/
import Wacc.Arm.Program
import Wacc.Proofs.Ast.Respan

namespace Wacc.Arm

/-- A choice of a table with other spans for every table. -/
structure Respanning (φ : Span → Span) where
  table : Table → Table
  respans : ∀ T : Table, T.Respans φ (table T)

variable {α β : Type} {φ : Span → Span} (σ : Respanning φ)

namespace Gen

def respan (x : Gen α) : Gen α := fun T s => x (σ.table T) s

/-! ## Steps -/

@[simp] theorem respan_pure (a : α) : respan σ (pure a) = pure a := rfl

@[simp] theorem respan_bind (x : Gen β) (f : β → Gen α) : respan σ (x >>= f) = x.respan σ >>= fun b => (f b).respan σ := rfl

theorem respan_table_bind (f : Table → Gen α) : respan σ (table >>= f) = table >>= fun T => (f (σ.table T)).respan σ := rfl

@[simp] theorem respan_ite (c : Prop) [Decidable c] (x y : Gen α) :
    respan σ (if c then x else y) = if c then x.respan σ else y.respan σ := apply_ite ..

@[simp] theorem respan_fail (f : Fault) : respan σ (fail f : Gen α) = fail f := rfl

@[simp] theorem respan_stage : respan σ stage = stage := rfl

@[simp] theorem respan_update (f : Stage → Stage) : respan σ (update f) = update f := rfl

@[simp] theorem respan_lift (x : Except Fault α) : respan σ (lift x) = lift x := rfl

@[simp] theorem respan_lines (ls : List Line) : respan σ (lines ls) = lines ls := rfl

@[simp] theorem respan_emit (i : Instr) : respan σ (emit i) = emit i := rfl

@[simp] theorem respan_label (l : Label) : respan σ (label l) = label l := rfl

@[simp] theorem respan_newPlace : respan σ newPlace = newPlace := by simp [newPlace]

@[simp] theorem respan_stringConst (t : Text) : respan σ (stringConst t) = stringConst t := by
  simp only [stringConst, respan_bind, respan_stage]
  refine congrArg (stage >>= ·) (funext fun s => ?_)
  cases s.shared.lookup t <;> simp

@[simp] theorem respan_useRoutine (r : Routine) : respan σ (useRoutine r) = useRoutine r := rfl

@[simp] theorem respan_moveStack (op : Alu) (n : Int) : respan σ (moveStack op n) = moveStack op n := rfl

@[simp] theorem respan_deepen (n : Int) : respan σ (deepen n) = deepen n := rfl

@[simp] theorem respan_grow (n : Int) : respan σ (grow n) = grow n := by simp [grow]

@[simp] theorem respan_shrink (n : Int) : respan σ (shrink n) = shrink n := by simp [shrink]

@[simp] theorem respan_pushReg (r : Reg) : respan σ (pushReg r) = pushReg r := by simp [pushReg]

@[simp] theorem respan_popReg (r : Reg) : respan σ (popReg r) = popReg r := by simp [popReg]

@[simp] theorem respan_footprint (sc : ScopeId) : respan σ (footprint sc) = footprint sc := by
  rw [footprint, respan_table_bind]
  refine congrArg (table >>= ·) (funext fun T => ?_)
  have hscope := congrArg (Option.map Scope.footprint) ((σ.respans T).scope? sc)
  rw [Option.map_map, Option.map_map] at hscope
  show (pure _ : Gen Int) = pure _
  rw [show ((σ.table T).scope? sc).map Scope.footprint = (T.scope? sc).map Scope.footprint from hscope]

@[simp] theorem respan_enter (sc : ScopeId) : respan σ (enter sc) = enter sc := by simp [enter]

@[simp] theorem respan_leave (sc : ScopeId) : respan σ (leave sc) = leave sc := by simp [leave]

@[simp] theorem respan_popReturn : respan σ popReturn = popReturn := by simp [popReturn]

@[simp] theorem respan_slot (x : VarId) : respan σ (slot x) = slot x := by
  simp only [slot, respan_table_bind, (σ.respans _).var?]
  refine congrArg (table >>= ·) (funext fun T => ?_)
  cases T.var? x with
  | none => rfl
  | some v =>
    refine congrArg (stage >>= ·) (funext fun s => ?_)
    dsimp only [Variable.respan]
    cases s.entry.lookup v.scope with
    | none => rfl
    | some base => exact (respan_ite ..)

@[simp] theorem respan_access (mk : Address → Instr) (limit : Int) (base : Reg) (off : Int) :
    respan σ (access mk limit base off) = access mk limit base off := by simp [access]

@[simp] theorem respan_load (d base : Reg) (off : Int) (t : Ty) : respan σ (load d base off t) = load d base off t := by
  unfold load
  cases widthOf t <;> simp

@[simp] theorem respan_store (r base : Reg) (off : Int) (t : Ty) : respan σ (store r base off t) = store r base off t := by
  simp [store]

@[simp] theorem respan_loadVar (d : Reg) (x : VarId) : respan σ (loadVar d x) = loadVar d x := by simp [loadVar]

@[simp] theorem respan_storeVar (r : Reg) (x : VarId) : respan σ (storeVar r x) = storeVar r x := by simp [storeVar]

@[simp] theorem respan_addressOf (d : Reg) (x : VarId) : respan σ (addressOf d x) = addressOf d x := by simp [addressOf]

@[simp] theorem respan_pushValue (r : Reg) (t : Ty) : respan σ (pushValue r t) = pushValue r t := by simp [pushValue]

@[simp] theorem respan_callOut (c : Cond) (f : Callee) : respan σ (callOut c f) = callOut c f := by simp [callOut]

@[simp] theorem respan_callRoutine (c : Cond) (r : Routine) : respan σ (callRoutine c r) = callRoutine c r := by
  simp [callRoutine]

@[simp] theorem respan_callExtern (e : Extern) : respan σ (callExtern e) = callExtern e := by simp [callExtern]

@[simp] theorem respan_copy (d r : Reg) : respan σ (copy d r) = copy d r := rfl

/-! ## Expressions -/

@[simp] theorem respan_apply (op : BinOp) (d l r : Reg) : respan σ (apply op d l r) = apply op d l r := by
  cases op <;> simp [apply, conditions?]

@[simp] theorem respan_applyUnary (op : UnOp) (d : Reg) : respan σ (applyUnary op d) = applyUnary op d := by
  cases op <;> simp [applyUnary]

theorem respanAll_eq_nil {es : List Expr} : Expr.respanAll φ es = [] ↔ es = [] := by
  rw [Expr.respanAll_eq, List.map_eq_nil_iff]

@[simp] theorem respan_step (arr i : Reg) (elem : Ty) : respan σ (step arr i elem) = step arr i elem := by simp [step]

end Gen

mutual

@[simp] theorem weight_respan : ∀ e : Expr, weight (e.respan φ) = weight e
  | .elem _ _ _ is => by rw [Expr.respan, weight, weight, weightMax_respan is]
  | .unary _ _ _ e => by rw [Expr.respan, weight, weight, weight_respan e]
  | .binary _ _ _ l r => by rw [Expr.respan, weight, weight, weight_respan l, weight_respan r]
  | .int _ _ | .bool _ _ | .char _ _ | .str _ _ | .null _ | .var _ => rfl

theorem weightMax_respan : ∀ es : List Expr, weightMax (Expr.respanAll φ es) = weightMax es
  | [] => rfl
  | e :: es => by rw [Expr.respanAll, weightMax, weightMax, weight_respan e, weightMax_respan es]

end

namespace Gen

mutual

theorem expr_respan : ∀ (e : Expr) (pool : List Reg), respan σ (expr (e.respan φ) pool) = expr e pool
  | e, [] => by cases e <;> rfl
  | .int _ n, d :: _ => rfl
  | .bool _ b, d :: _ => rfl
  | .char _ c, d :: _ => rfl
  | .str _ s, d :: _ => by simp [Expr.respan, expr]
  | .null _, d :: _ => rfl
  | .var id, d :: _ => by simp [Expr.respan, expr, Ident.respan]
  | .elem _ t id is, d :: rest => by
    simp [Expr.respan, expr, Ident.respan, indices_respan id.type 0 is d rest]
  | .unary _ _ op e, d :: rest => by simp [Expr.respan, expr, expr_respan e (d :: rest)]
  | .binary _ _ op l r, [d] => by simp [Expr.respan, expr, expr_respan l [d], expr_respan r [d]]
  | .binary _ _ op l r, d :: e :: rest => by
    simp [Expr.respan, expr, expr_respan l (d :: e :: rest), expr_respan r (e :: rest), expr_respan r (d :: e :: rest),
      expr_respan l (e :: rest)]

theorem indices_respan (array : Ty) (done : Nat) : ∀ (is : List Expr) (arr : Reg) (rest : List Reg),
    respan σ (indices array done (Expr.respanAll φ is) arr rest) = indices array done is arr rest
  | [], _, _ => rfl
  | i :: is, arr, [] => by
    simp [Expr.respanAll, indices, respanAll_eq_nil, expr_respan i [arr], indices_respan array (done + 1) is arr []]
  | i :: is, arr, r :: rest => by
    simp [Expr.respanAll, indices, respanAll_eq_nil, expr_respan i (r :: rest),
      indices_respan array (done + 1) is arr (r :: rest)]

end

/-! ## Places and values -/

@[simp] theorem respan_elemAddress (id : Ident) (is : List Expr) (d : Reg) (rest : List Reg) :
    respan σ (elemAddress (id.respan φ) (is.map (Expr.respan φ)) d rest) = elemAddress id is d rest := by
  simp [elemAddress, Ident.respan, ← Expr.respanAll_eq, indices_respan]

theorem address_slot {p : Target} (hp : ∀ id, p ≠ .var id) (span : Span) (t : Ty) (snd : Bool) (d : Reg)
    (rest : List Reg) : address (.slot span t snd p) (d :: rest) = (do
      address p (d :: rest)
      load d d 0 p.type
      copy .r0 d
      callRoutine .always .checkNullPointer
      if snd then emit (.alu .add d d (.imm slotSize))) := by
  cases p with
  | var id => exact absurd rfl (hp id)
  | elem => rfl
  | slot => rfl

theorem address_respan (p : Target) (pool : List Reg) : respan σ (address (p.respan φ) pool) = address p pool := by
  cases pool with
  | nil => cases p <;> rfl
  | cons d rest =>
    induction p with
    | var id => simp [Target.respan, address, Ident.respan]
    | elem => simp [Target.respan, address]
    | slot _ t snd pair ih =>
      rw [Target.respan]
      by_cases hvar : ∃ id, pair = .var id
      · obtain ⟨id, rfl⟩ := hvar
        simp [Target.respan, address, Ident.respan]
      · have hpair : ∀ id, pair ≠ .var id := fun id h => hvar ⟨id, h⟩
        have hmoved : ∀ id, (pair.respan φ) ≠ .var id := by
          intro id
          cases pair with
          | var x => exact absurd rfl (hpair x)
          | _ => rintro ⟨⟩
        rw [address_slot hpair, address_slot hmoved]
        simp [ih]

theorem assign_respan (r : Reg) (p : Target) (pool : List Reg) : respan σ (assign r (p.respan φ) pool) = assign r p pool := by
  cases pool with
  | nil => cases p <;> rfl
  | cons d rest =>
    cases p with
    | var id => simp [Target.respan, assign, Ident.respan]
    | elem span t id is =>
      have haddress := address_respan σ (.elem span t id is) (d :: rest)
      simp only [Target.respan, assign, respan_bind] at haddress ⊢
      rw [haddress]
      simp [Target.type]
    | slot span t snd pair =>
      have haddress := address_respan σ (.slot span t snd pair) (d :: rest)
      simp only [Target.respan, assign, respan_bind] at haddress ⊢
      rw [haddress]
      simp [Target.type]

@[simp] theorem respan_malloc (d : Reg) (size : Nat) : respan σ (malloc d size) = malloc d size := by simp [malloc]

@[simp] theorem respan_elemSize (t : Ty) : respan σ (elemSize t) = elemSize t := by cases t <;> simp [elemSize]

theorem args_respan (d : Reg) (rest : List Reg) (es : List Expr) :
    respan σ (args d rest (es.map (Expr.respan φ))) = args d rest es := by
  induction es with
  | nil => rfl
  | cons e es ih => simp [args, expr_respan, ih]

theorem callFunc_respan (name : Text) (es : List Expr) (d : Reg) (rest : List Reg) :
    respan σ (callFunc name (es.map (Expr.respan φ)) d rest) = callFunc name es d rest := by
  simp [callFunc, args_respan, List.foldr_map]

mutual

theorem value_respan : ∀ (v : Value) (pool : List Reg), respan σ (value (v.respan φ) pool) = value v pool
  | .expr e, pool => by
    rw [Value.respan, value, value]
    exact expr_respan σ e pool
  | .array _ t vs, arr :: tmp :: rest => by
    have hlength : (Value.respanAll φ vs).length = vs.length := by rw [Value.respanAll_eq, List.length_map]
    simp [Value.respan, value, hlength, fun size => elements_respan size 0 vs arr tmp rest]
  | .array _ _ _, [] | .array _ _ _, [_] => rfl
  | .newPair _ a b, cell :: tmp :: rest => by simp [Value.respan, value, expr_respan]
  | .newPair _ _ _, [] | .newPair _ _ _, [_] => rfl
  | .slot span t snd pair, d :: rest => by
    have haddress := address_respan σ (.slot span t snd pair) (d :: rest)
    rw [Target.respan] at haddress
    rw [Value.respan, value, value, respan_bind, haddress]
    simp
  | .slot _ _ _ _, [] => rfl
  | .call _ _ _ name es, d :: rest => by
    rw [Value.respan, value, value]
    exact callFunc_respan σ name es d rest
  | .call _ _ _ _ _, [] => rfl

theorem elements_respan (size : Nat) : ∀ (i : Nat) (vs : List Value) (arr tmp : Reg) (rest : List Reg),
    respan σ (elements size i (Value.respanAll φ vs) arr tmp rest) = elements size i vs arr tmp rest
  | _, [], _, _, _ => rfl
  | i, v :: vs, arr, tmp, [] => by
    have hvs := elements_respan size (i + 1) vs arr tmp []
    have hvalue := value_respan v [tmp]
    cases v with
    | array span t us =>
      have harray := value_respan (.array span t us) [arr, tmp]
      simp only [Value.respan] at harray
      simp only [Value.respanAll, Value.respan, elements, respan_bind, harray, hvs, respan_pushReg, respan_copy, respan_popReg,
        respan_store, Value.type]
    | _ =>
      simp only [Value.respan] at hvalue
      simp only [Value.respanAll, Value.respan, elements, respan_bind, hvalue, hvs, respan_store, Value.type, Expr.type_respan]
  | i, v :: vs, arr, tmp, r :: rest => by
    have hvs := elements_respan size (i + 1) vs arr tmp (r :: rest)
    have hvalue := value_respan v (tmp :: r :: rest)
    have hplain (w : Value) (ws : List Value) : elements size i (w :: ws) arr tmp (r :: rest) = (do
        value w (tmp :: r :: rest)
        store tmp arr (4 + i * size : Nat) w.type
        elements size (i + 1) ws arr tmp (r :: rest)) := by cases w <;> rfl
    simp only [Value.respanAll, hplain, respan_bind, hvalue, hvs, respan_store, Value.type_respan]

end

/-! ## Statements -/

theorem argument_respan (e : Expr) : respan σ (argument (e.respan φ)) = argument e := by simp [argument, expr_respan]

theorem jumpUnless_respan (c : Expr) (l : Label) : respan σ (jumpUnless (c.respan φ) l) = jumpUnless c l := by
  simp [jumpUnless, expr_respan]

@[simp] theorem respan_unwound (sc : ScopeId) : respan σ (unwound sc) = unwound sc := by
  rw [unwound, respan_table_bind]
  refine congrArg (table >>= ·) (funext fun T => ?_)
  have hblocks (ids : List ScopeId) :
      ((ids.filterMap fun id => ((σ.table T).scope? id).filter (·.kind == .block)).map Scope.bare) =
        (ids.filterMap fun id => (T.scope? id).filter (·.kind == .block)).map Scope.bare := by
    rw [List.map_filterMap, List.map_filterMap]
    refine congrArg (List.filterMap · ids) (funext fun id => ?_)
    have hscope := congrArg (Option.filter (·.kind == .block)) ((σ.respans T).scope? id)
    rwa [Option.filter_map, Option.filter_map] at hscope
  have hsum := congrArg (List.foldr (fun (s : Scope) n => s.footprint.toNat + n) 0) (hblocks (T.frameChain sc))
  rw [List.foldr_map, List.foldr_map] at hsum
  rw [(σ.respans T).frameChain]
  exact congrArg (fun n : Nat => (pure (n : Int) : Gen Int)) hsum

theorem ret_respan (sc : ScopeId) (e : Expr) : respan σ (ret sc (e.respan φ)) = ret sc e := by
  simp [ret, argument_respan]

mutual

theorem stat_respan : ∀ s : Stat, respan σ (stat (s.respan φ)) = stat s
  | .skip _ => rfl
  | .seq _ ss => by
    rw [Stat.respan, stat, stat]
    exact stats_respan ss
  | .declare _ x _ _ v => by simp [Stat.respan, stat, value_respan]
  | .assign _ p v => by simp [Stat.respan, stat, value_respan, assign_respan]
  | .read _ p => by
    simp only [Stat.respan, stat, Target.type_respan]
    cases reader? p.type with
    | none => rfl
    | some r => simp [address_respan]
  | .free _ e => by simp [Stat.respan, stat, argument_respan]
  | .ret site e => by
    rw [Stat.respan, stat, stat]
    exact ret_respan σ site.scope e
  | .exit _ e => by simp [Stat.respan, stat, argument_respan]
  | .print _ e newline => by simp [Stat.respan, stat, argument_respan]
  | .block b => by
    rw [Stat.respan, stat, stat]
    exact block_respan b
  | .ifThen _ c a => by simp [Stat.respan, stat, jumpUnless_respan, block_respan a]
  | .ifElse _ c a b => by simp [Stat.respan, stat, jumpUnless_respan, block_respan a, block_respan b]
  | .while _ c b => by simp [Stat.respan, stat, jumpUnless_respan, block_respan b]
  | .for _ header i c s b => by
    simp [Stat.respan, stat, jumpUnless_respan, stat_respan i, stat_respan s, block_respan b]

theorem stats_respan : ∀ ss : List Stat, respan σ (stats (Stat.respanAll φ ss)) = stats ss
  | [] => rfl
  | s :: ss => by simp [Stat.respanAll, stats, stat_respan s, stats_respan ss]

theorem block_respan : ∀ b : Block, respan σ (block (b.respan φ)) = block b
  | .mk _ i s => by simp [Block.respan, block, stat_respan s]

end

/-! ## Programs -/

theorem mainBody_respan (s : Stat) : respan σ (mainBody (s.respan φ)) = mainBody s := by simp [mainBody, stat_respan]

theorem function_respan (f : Func) : respan σ (function (f.respan φ)) = function f := by
  simp [function, Func.respan, block_respan]

theorem functions_respan (fs : List Func) : respan σ (functions (fs.map (Func.respan φ))) = functions fs := by
  induction fs with
  | nil => rfl
  | cons f fs ih => simp [functions, function_respan, ih]

@[simp] theorem respan_routine (r : Routine) : respan σ (routine r) = routine r := by simp [routine]

@[simp] theorem respan_routines (rs : List Routine) : respan σ (routines rs) = routines rs := by
  induction rs with
  | nil => rfl
  | cons r rs ih => simp [routines, ih]

theorem program_respan (p : Program) (T : Table) : respan σ (program (p.respan φ T)) = program p := by
  simp [program, Program.respan, mainBody_respan, functions_respan]

end Gen

open scoped Classical in
/-- **The assembly of a program does not depend on its spans.** -/
theorem Assembly.ofProgram_respan {φ : Span → Span} {p : Program} {T : Table} (h : p.table.Respans φ T) :
    ofProgram (p.respan φ T) = ofProgram p := by
  let σ : Respanning φ :=
    { table := fun U => if U = p.table then T else U.respan φ
      respans := fun U => by
        split_ifs with hU
        · exact hU ▸ h
        · exact U.respans_respan φ }
  have hprogram := congrFun (congrFun (Gen.program_respan σ p T) p.table) {}
  rw [Gen.respan, show σ.table p.table = T from if_pos rfl] at hprogram
  rw [ofProgram, show (p.respan φ T).table = T from rfl, hprogram, ofProgram]

end Wacc.Arm
