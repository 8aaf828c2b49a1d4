/-
  Typing does not look at spans.

  A tree with other spans is typed as the tree is, but for the spans of what comes out.
-/
import Wacc.Proofs.Ast.Respan
import Wacc.Proofs.Typing.Program

namespace Wacc

variable {ρ : Respan} {φ : Span → Span}

/-! ## Trees -/

namespace Tree

mutual

def respan (φ : Span → Span) : Tree → Tree
  | .missing => .missing
  | .node k text s cs => .node k text (φ s) (respanAll φ cs)

def respanAll (φ : Span → Span) : List Tree → List Tree
  | [] => []
  | c :: cs => respan φ c :: respanAll φ cs

end

@[simp] theorem respan_node (k : NodeKind) (text : Text) (s : Span) (cs : List Tree) :
    (node k text s cs).respan φ = .node k text (φ s) (cs.map (respan φ)) := by
  have hall : respanAll φ cs = cs.map (respan φ) := by
    induction cs with
    | nil => rw [respanAll, List.map_nil]
    | cons c cs ih => rw [respanAll, List.map_cons, ih]
  rw [respan, hall]

@[simp] theorem kind_respan (t : Tree) : (t.respan φ).kind = t.kind := by
  cases t <;> simp [respan, kind]

@[simp] theorem text_respan (t : Tree) : (t.respan φ).text = t.text := by
  cases t <;> simp [respan, text]

@[simp] theorem children_respan (t : Tree) : (t.respan φ).children = t.children.map (respan φ) := by
  cases t with
  | missing => rw [respan]; rfl
  | node => rw [respan_node]; rfl

@[simp] theorem child_respan (t : Tree) (i : Int) : (t.respan φ).child i = (t.child i).respan φ := by
  cases i with
  | ofNat n =>
    simp only [child, children_respan, List.getElem?_map]
    cases t.children[n]? with
    | none => simp [respan]
    | some c => rfl
  | negSucc n => simp [child, respan]

theorem IsIdent.span_respan {t : Tree} (h : t.IsIdent) : (t.respan φ).span = φ t.span := by
  cases h
  rw [respan_node]
  rfl

theorem IsStat.span_respan {t : Tree} (h : t.IsStat) : (t.respan φ).span = φ t.span := by
  cases h <;> rw [respan_node] <;> rfl

end Tree

namespace Typing

open Checked (map_respan bind_respan bind2_respan map2_respan map3_respan map4_respan all_respan)

variable {α β α' β' : Type} {T T' U U' : Table} {sc : ScopeId}

theorem map_bind {f : α → α'} {g : β → β'} (x : Except Fault α) {k : α → Except Fault β}
    {k' : α' → Except Fault β'} (hk : ∀ a, k' (f a) = (k a).map g) : (x.map f >>= k') = (x >>= k).map g := by
  cases x with
  | error => rfl
  | ok a => exact hk a

/-! ## Expressions -/

theorem intLit_respan (text : Text) (span : Span) :
    intLit text (ρ.span span) = (intLit text span).respan ρ (Expr.respan ρ.span) := by
  unfold intLit
  cases integer? text with
  | none => simp
  | some n =>
    dsimp only
    split_ifs <;> simp [Expr.respan]

theorem expectType_respan (want : Ty) (role : Role) (c : Checked Expr) :
    expectType want role (c.respan ρ (Expr.respan ρ.span)) = (expectType want role c).respan ρ (Expr.respan ρ.span) := by
  refine bind_respan c fun e => ?_
  rw [Expr.type_respan, Expr.span_respan]
  split_ifs <;> simp

theorem element_respan (span : Span) (array : Checked Ident) (is : List (Checked Expr)) :
    element (ρ.span span) (array.respan ρ (Ident.respan ρ.span)) (is.map (Checked.respan ρ (Expr.respan ρ.span))) =
      (element span array is).map (Checked.respan ρ fun e => (e.1, e.2.1.respan ρ.span, e.2.2.map (Expr.respan ρ.span))) := by
  have hall : Checked.all ((is.map (Checked.respan ρ (Expr.respan ρ.span))).map (expectType .int .index)) =
      (Checked.all (is.map (expectType .int .index))).respan ρ (List.map (Expr.respan ρ.span)) := by
    rw [← all_respan, List.map_map, List.map_map]
    exact congrArg Checked.all (List.map_congr_left fun c _ => expectType_respan ..)
  unfold element
  rw [hall]
  cases array with
  | bad d ds =>
    show Except.ok _ = Except.ok _
    simp
  | ok id =>
    cases Checked.all (is.map (expectType .int .index)) with
    | bad d ds => rfl
    | ok is =>
      obtain ⟨s, type, name, x⟩ := id
      cases type with
      | array e depth =>
        simp only [Checked.respan_ok, Ident.respan, List.length_map]
        split_ifs
        · simp [Except.map]
        · cases (Ty.array e depth).nested is.length.toUInt32 <;> rfl
      | _ => simp [Ident.respan, Except.map]

theorem applyUnary_respan (span : Span) (op : UnOp) (rule : UnRule) (c : Checked Expr) :
    applyUnary (ρ.span span) op rule (c.respan ρ (Expr.respan ρ.span)) =
      (applyUnary span op rule c).respan ρ (Expr.respan ρ.span) := by
  refine bind_respan c fun e => ?_
  rw [Expr.type_respan, Expr.span_respan]
  split_ifs <;> simp [Expr.respan]

theorem applyBinary_respan (span : Span) (op : BinOp) (rule : BinRule) (l r : Checked Expr) :
    applyBinary (ρ.span span) op rule (l.respan ρ (Expr.respan ρ.span)) (r.respan ρ (Expr.respan ρ.span)) =
      (applyBinary span op rule l r).respan ρ (Expr.respan ρ.span) := by
  have hoperand (c : Checked Expr) :
      binaryOperand op rule (c.respan ρ (Expr.respan ρ.span)) = (binaryOperand op rule c).respan ρ (Expr.respan ρ.span) := by
    refine bind_respan c fun e => ?_
    rw [Expr.type_respan, Expr.span_respan]
    split_ifs <;> simp
  rw [applyBinary, hoperand, hoperand]
  refine bind2_respan _ _ fun l r => ?_
  rw [Expr.type_respan, Expr.type_respan]
  split_ifs <;> simp [Expr.respan]

section
variable (h : T.Respans ρ.span T')
include h

theorem ident_respan (name : Text) (span : Span) :
    ident T' sc name (ρ.span span) = (ident T sc name span).respan ρ (Ident.respan ρ.span) := by
  unfold ident
  rw [h.lookup]
  cases T.lookup sc name with
  | none => simp
  | some x =>
    dsimp only
    rw [h.var?]
    cases T.var? x with
    | none => simp
    | some v => rfl

omit h in
theorem exprs_respan {ns : List Tree}
    (hns : ∀ n ∈ ns, expr T' sc (n.respan ρ.span) = (expr T sc n).map (Checked.respan ρ (Expr.respan ρ.span))) :
    exprs T' sc (ns.map (Tree.respan ρ.span)) = (exprs T sc ns).map (List.map (Checked.respan ρ (Expr.respan ρ.span))) := by
  induction ns with
  | nil => rfl
  | cons n ns ih =>
    obtain ⟨hn, hns⟩ := List.forall_mem_cons.1 hns
    rw [List.map_cons, exprs, exprs, hn, ih hns]
    exact map_bind _ fun c => map_bind _ fun cs => rfl

theorem expr_respan {n : Tree} (hn : n.IsExpr) :
    expr T' sc (n.respan ρ.span) = (expr T sc n).map (Checked.respan ρ (Expr.respan ρ.span)) := by
  induction hn with
  | @int text span =>
    rw [Tree.respan_node]
    exact congrArg Except.ok (intLit_respan text span)
  | bool | null => rw [Tree.respan_node]; rfl
  | char hc => rw [Tree.respan_node]; simp only [expr, hc]; rfl
  | str hs => rw [Tree.respan_node]; simp only [expr, hs]; rfl
  | ident hi =>
    obtain @⟨text, span, -⟩ := hi
    rw [Tree.respan_node]
    simp only [expr, ident_respan h]
    exact congrArg Except.ok (map_respan _ fun _ => rfl)
  | @elem text span name i is hname hi his ihi ihis =>
    rw [Tree.respan_node, List.map_cons, expr, expr, exprs_respan (List.forall_mem_cons.2 ⟨ihi, ihis⟩),
      Tree.text_respan, hname.span_respan, ident_respan h]
    refine map_bind _ fun is => ?_
    rw [element_respan]
    refine map_bind _ fun e => congrArg Except.ok (map_respan e fun a => ?_)
    exact congrArg (Expr.elem _ a.1 (a.2.1.respan ρ.span)) (Expr.respanAll_eq ρ.span a.2.2).symm
  | paren _ ih =>
    rw [Tree.respan_node, List.map_singleton, expr, expr]
    exact ih
  | @unary text span op c hop hc ih =>
    rw [Tree.respan_node, List.map_singleton, expr, expr, hop]
    dsimp only
    cases op.rule? with
    | none => rfl
    | some rule =>
      rw [ih]
      exact map_bind _ fun c => congrArg Except.ok (applyUnary_respan span op rule c)
  | @binary text span op l r hop hl hr ihl ihr =>
    rw [Tree.respan_node, List.map_cons, List.map_singleton, expr, expr, hop]
    dsimp only
    cases op.rule? with
    | none => rfl
    | some rule =>
      rw [ihl, ihr]
      exact map_bind _ fun l => map_bind _ fun r => congrArg Except.ok (applyBinary_respan span op rule l r)

end

/-! ## Types, places and values -/

theorem type_respan {n : Tree} (h : n.IsType) : type (n.respan ρ.span) = type n := by
  induction h with
  | base | bare => rw [Tree.respan_node]; rfl
  | array _ ih => rw [Tree.respan_node, List.map_singleton, type, type, ih]
  | pair _ _ iha ihb => rw [Tree.respan_node, List.map_cons, List.map_singleton, type, type, iha, ihb]

theorem slot_respan (span : Span) (word : Text) (c : Checked Target) :
    slot (ρ.span span) word (c.respan ρ (Target.respan ρ.span)) =
      (slot span word c).respan ρ fun e => (e.1, e.2.1, e.2.2.respan ρ.span) := by
  refine bind_respan c fun p => ?_
  rw [Target.type_respan, Target.span_respan]
  cases p.type <;> simp

theorem arrayOf_respan (span : Span) (vs : List Value) :
    arrayOf (ρ.span span) (vs.map (Value.respan ρ.span)) = (arrayOf span vs).respan ρ (Value.respan ρ.span) := by
  have hjoin (elem : Ty) (v : Value) :
      joinElement elem (v.respan ρ.span) = Prod.map id (List.map ρ.problem) (joinElement elem v) := by
    unfold joinElement
    rw [Value.type_respan, Value.span_respan]
    dsimp only
    split_ifs <;> simp
  have hjoins (elem : Ty) (vs : List Value) :
      joinElements elem (vs.map (Value.respan ρ.span)) = Prod.map id (List.map ρ.problem) (joinElements elem vs) := by
    induction vs generalizing elem with
    | nil => rfl
    | cons v vs ih => simp [joinElements, hjoin, ih]
  cases vs with
  | nil => rfl
  | cons v vs =>
    simp only [List.map_cons, arrayOf, Value.type_respan, hjoins, Prod.map_fst, Prod.map_snd, id_eq]
    rw [← Checked.check_respan, Checked.respan_ok, Value.respan, Value.respanAll_eq, List.map_cons]

section
variable (h : T.Respans ρ.span T')
include h

theorem target_respan {n : Tree} (hn : n.IsTarget) :
    target T' sc (n.respan ρ.span) = (target T sc n).map (Checked.respan ρ (Target.respan ρ.span)) := by
  induction hn with
  | ident hi =>
    obtain @⟨text, span, -⟩ := hi
    rw [Tree.respan_node]
    simp only [target, ident_respan h]
    exact congrArg Except.ok (map_respan _ fun _ => rfl)
  | @elem text span name i is hname hi his =>
    rw [Tree.respan_node, List.map_cons, target, target, exprs_respan (List.forall_mem_cons.2 ⟨expr_respan h hi,
      fun j hj => expr_respan h (his j hj)⟩), Tree.text_respan, hname.span_respan, ident_respan h]
    refine map_bind _ fun is => ?_
    rw [element_respan]
    exact map_bind _ fun e => congrArg Except.ok (map_respan e fun _ => rfl)
  | @slot text span c hc ih =>
    rw [Tree.respan_node, List.map_singleton, target, target, ih]
    refine map_bind _ fun c => congrArg Except.ok ?_
    rw [slot_respan]
    exact map_respan _ fun _ => rfl

omit h in
theorem items_respan {ns : List Tree}
    (hns : ∀ n ∈ ns, item T' sc (n.respan ρ.span) = (item T sc n).map (Checked.respan ρ (Value.respan ρ.span))) :
    items T' sc (ns.map (Tree.respan ρ.span)) = (items T sc ns).map (List.map (Checked.respan ρ (Value.respan ρ.span))) := by
  induction ns with
  | nil => rfl
  | cons n ns ih =>
    obtain ⟨hn, hns⟩ := List.forall_mem_cons.1 hns
    rw [List.map_cons, items, items, hn, ih hns]
    exact map_bind _ fun c => map_bind _ fun cs => rfl

theorem item_respan {n : Tree} (hn : n.IsItem) :
    item T' sc (n.respan ρ.span) = (item T sc n).map (Checked.respan ρ (Value.respan ρ.span)) := by
  induction hn with
  | expr hn =>
    have hexpr := @expr_respan _ _ _ sc h _ hn
    obtain ⟨k, text, span, cs, rfl, hk⟩ := IsExpr.not_arrayLit hn
    rw [Tree.respan_node] at hexpr
    rw [Tree.respan_node, item_expr hk, item_expr hk, hexpr]
    exact map_bind _ fun c => congrArg Except.ok (map_respan c fun _ => rfl)
  | @array text span cs hcs ih =>
    rw [Tree.respan_node, item, item, items_respan ih]
    refine map_bind _ fun cs => congrArg Except.ok ?_
    rw [all_respan]
    exact bind_respan _ fun vs => arrayOf_respan span vs

theorem matchArguments_respan (func : Text) (ps : List VarId) (as : List (Checked Expr)) :
    matchArguments T' func ps (as.map (Checked.respan ρ (Expr.respan ρ.span))) =
      (matchArguments T func ps as).map (Checked.respan ρ (Expr.respan ρ.span)) := by
  induction ps generalizing as with
  | nil => rfl
  | cons p ps ih =>
    cases as with
    | nil => rfl
    | cons a as =>
      rw [List.map_cons, matchArguments, matchArguments, List.map_cons, ih, h.var?]
      cases T.var? p with
      | none => rfl
      | some v => exact congrArg (· :: _) (expectType_respan ..)

theorem call_respan (span : Span) {name : Tree} (hname : name.IsIdent) (args : List (Checked Expr)) :
    call T' (ρ.span span) (name.respan ρ.span) (args.map (Checked.respan ρ (Expr.respan ρ.span))) =
      (call T span name args).respan ρ (Value.respan ρ.span) := by
  unfold call
  rw [Tree.text_respan, hname.span_respan, h.lookupFunc, all_respan, List.length_map]
  cases T.lookupFunc name.text with
  | none => exact Checked.refuse_respan ..
  | some id =>
    simp only [Option.bind_some, h.func?, Option.map_map]
    cases T.func? id with
    | none => exact Checked.refuse_respan ..
    | some f =>
      simp only [Option.map_some, Function.comp_apply, Signature.respan]
      split_ifs
      · exact Checked.refuse_respan ..
      · rw [matchArguments_respan h, all_respan]
        exact map_respan _ fun _ => rfl

theorem value_respan {n : Tree} (hn : n.IsValue) :
    value T' sc (n.respan ρ.span) = (value T sc n).map (Checked.respan ρ (Value.respan ρ.span)) := by
  cases hn with
  | item hn =>
    -- an item has none of the kinds below
    have hvalue (T : Table) : value T sc n = item T sc n ∧ value T sc (n.respan ρ.span) = item T sc (n.respan ρ.span) := by
      cases hn with
      | expr hn =>
        cases hn with
        | ident hi =>
          cases hi
          rw [Tree.respan_node]
          exact ⟨rfl, rfl⟩
        | _ =>
          rw [Tree.respan_node]
          exact ⟨rfl, rfl⟩
      | array =>
        rw [Tree.respan_node]
        exact ⟨rfl, rfl⟩
    rw [(hvalue T).1, (hvalue T').2]
    exact item_respan h hn
  | newPair ha hb =>
    rw [Tree.respan_node, List.map_cons, List.map_singleton, value, value, expr_respan h ha, expr_respan h hb]
    exact map_bind _ fun a => map_bind _ fun b => congrArg Except.ok (map2_respan a b fun _ _ => rfl)
  | slot hc =>
    rw [Tree.respan_node, List.map_singleton, value, value, target_respan h hc]
    refine map_bind _ fun c => congrArg Except.ok ?_
    rw [slot_respan]
    exact map_respan _ fun _ => rfl
  | call hname hargs =>
    rw [Tree.respan_node, List.map_cons, List.map_singleton, value, value, Tree.respan_node, Tree.children,
      Tree.children, exprs_respan fun n hn => expr_respan h (hargs n hn)]
    exact map_bind _ fun args => congrArg Except.ok (call_respan h _ hname args)

end

/-! ## Tables that grow -/

/-- The numbers that the names of a table have were given to variables, even if the numbers have run out. -/
def Known (T : Table) : Prop :=
  ∀ s ∈ T.scopes, ∀ p ∈ s.names, ∃ i < T.vars.size, p.2 = (i + 1).toUInt32

def entries (T : Table) : Nat := T.vars.size + T.funcs.size

structure Onwards (T U : Table) : Prop where
  known : Known U
  entries : entries T ≤ entries U

theorem Known.modifyScope (h : Known T) (id : ScopeId) {f : Scope → Scope}
    (hf : ∀ s, ∀ p ∈ (f s).names, p ∈ s.names ∨ ∃ i < T.vars.size, p.2 = (i + 1).toUInt32) :
    Onwards T (T.modifyScope id f) := by
  unfold Table.modifyScope
  cases Table.index? id with
  | none => exact ⟨h, le_rfl⟩
  | some i =>
    refine ⟨fun s hs p hp => ?_, le_rfl⟩
    obtain ⟨j, hj⟩ := Array.mem_iff_getElem?.1 hs
    simp only [Array.getElem?_modify] at hj
    split_ifs at hj
    · obtain ⟨s, hs', rfl⟩ := Option.map_eq_some_iff.1 hj
      exact (hf s p hp).elim (h s (Array.mem_of_getElem? hs') p) fun h => h
    · exact h s (Array.mem_of_getElem? hj) p hp

theorem Known.newScope (h : Known T) (kind : ScopeKind) (parent : ScopeId) (span : Span) (f : FuncId) :
    Onwards T (T.newScope kind parent span f).2 := by
  have hpush : Known { T with scopes := T.scopes.push { kind, parent, span, func := f } } := by
    intro s hs p hp
    obtain hs | rfl := Array.mem_push.1 hs
    · exact h s hs p hp
    · cases hp
  have hadd := hpush.modifyScope parent
    (f := fun s => { s with children := s.children ++ [(T.scopes.size + 1).toUInt32] }) fun _ _ => .inl
  exact ⟨hadd.known, hadd.entries⟩

theorem Known.declareIn (h : Known T) (id : ScopeId) (s : Scope) (name : Text) (type : Ty) (span : Span)
    (param : Bool) : Onwards T (T.declareIn id s name type span param).2 := by
  unfold Table.declareIn
  cases s.names.lookup name with
  | some old => exact ⟨h, le_rfl⟩
  | none =>
    have hpush (v : Variable) : Onwards T { T with vars := T.vars.push v } := by
      refine ⟨fun s hs p hp => ?_, by simp only [Typing.entries, Array.size_push]; omega⟩
      obtain ⟨i, hi, hid⟩ := h s hs p hp
      exact ⟨i, by simp only [Array.size_push]; omega, hid⟩
    have hadd := (hpush { name, type, scope := id, offset := s.footprint + type.size, span, param }).known.modifyScope id
      (f := fun s' => { s' with
        vars := s'.vars ++ [(T.vars.size + 1).toUInt32], footprint := s.footprint + type.size,
        names := s'.names ++ [(name, (T.vars.size + 1).toUInt32)] }) fun s p hp => ?_
    · exact ⟨hadd.known, (hpush _).entries.trans hadd.entries⟩
    · refine (List.mem_append.1 hp).imp_right fun hp => ⟨T.vars.size, by simp, ?_⟩
      rw [List.mem_singleton.1 hp]

theorem Known.declare (h : Known T) {name : Text} {type : Ty} {span : Span} {d : Table.Declared}
    (hd : T.declare sc name type span = .ok (d, U)) : Onwards T U := by
  unfold Table.declare at hd
  cases hs : T.scope? sc with
  | none => rw [hs] at hd; cases hd
  | some s =>
    rw [hs] at hd
    have := h.declareIn sc s name type span false
    rwa [Except.ok.inj hd] at this

theorem Known.bindParam (h : Known T) {f : FuncId} {name : Text} {type : Ty} {span : Span} {d : Table.Declared}
    (hd : T.bindParam f name type span = .ok (d, U)) : Onwards T U := by
  have hmodify (V : Table) (g : Signature → Signature) (hV : Onwards T V) : Onwards T (V.modifyFunc f g) := by
    unfold Table.modifyFunc
    cases Table.index? f with
    | none => exact hV
    | some i => exact ⟨hV.known, by have := hV.entries; simpa [Typing.entries] using this⟩
  unfold Table.bindParam at hd
  cases hg : T.func? f with
  | none => rw [hg] at hd; cases hd
  | some g =>
    cases hs : T.scope? g.scope with
    | none => simp only [hg, hs] at hd; cases hd
    | some s =>
      have hin := h.declareIn g.scope s name type span true
      simp only [hg, hs] at hd
      split_ifs at hd
      · cases hd
        exact hmodify _ _ hin
      · cases hd
        exact hin

theorem Known.declareFunc (h : Known T) (name : Text) (result : Ty) (span : Span) :
    Onwards T (T.declareFunc name result span).2 := by
  unfold Table.declareFunc
  cases T.lookupFunc name with
  | some old => exact ⟨h, le_rfl⟩
  | none =>
    obtain ⟨hknown, hle⟩ := h.newScope .function Table.global span (T.funcs.size + 1).toUInt32
    refine ⟨hknown, hle.trans ?_⟩
    simp only [Typing.entries, Array.size_push]
    omega

/-! ## Runs -/

/-- No numbers have run out, or it does not show where they have: nothing stands in the place of what is
    missing. -/
def Clear (ρ : Respan) (T : Table) : Prop := ρ.span {} = {} ∨ entries T + 1 < 2 ^ 32

theorem Onwards.clear (h : Onwards T U) (hc : Clear ρ U) : Clear ρ T := 
  hc.imp_right fun hlt => (Nat.add_le_add_right h.entries 1).trans_lt hlt

/-- What `y` does from `T'` is what `x` does from `T`; `f` gives the outcome its other spans. -/
structure FollowsFrom (ρ : Respan) (f : α → α') (x : Typing α) (y : Typing α') (T T' : Table) : Prop where
  error : ∀ e, x T = .error e → ρ.span {} = {} → y T' = .error e
  later : ∀ a U, x T = .ok (a, U) → Onwards T U
  ok : ∀ a U, x T = .ok (a, U) → Clear ρ U → ∃ U', y T' = .ok (f a, U') ∧ U.Respans ρ.span U'

def Follows (ρ : Respan) (f : α → α') (x : Typing α) (y : Typing α') : Prop :=
  ∀ T T', Known T → T.Respans ρ.span T' → FollowsFrom ρ f x y T T'

section
variable {f : α → α'} {g : β → β'}

theorem FollowsFrom.pure {a : α} {a' : α'} (hT : Known T) (ht : T.Respans ρ.span T') (h : Clear ρ T → a' = f a) :
    FollowsFrom ρ f (Pure.pure a) (Pure.pure a') T T' := by
  refine ⟨by rintro _ ⟨⟩, ?_, ?_⟩
  · rintro _ _ ⟨⟩
    exact ⟨hT, le_rfl⟩
  · rintro _ _ ⟨⟩ hc
    exact ⟨T', by rw [h hc]; rfl, ht⟩

theorem FollowsFrom.bind {x : Typing α} {y : Typing α'} {k : α → Typing β} {l : α' → Typing β'}
    (h : FollowsFrom ρ f x y T T')
    (hk : ∀ a U U', x T = .ok (a, U) → Known U → U.Respans ρ.span U' → FollowsFrom ρ g (k a) (l (f a)) U U') :
    FollowsFrom ρ g (x >>= k) (y >>= l) T T' := by
  have hrun {γ : Type} (z : Typing γ) {δ : Type} (m : γ → Typing δ) (V : Table) :
      (z >>= m) V = z V >>= fun r => m r.1 r.2 := rfl
  cases hx : x T with
  | error e =>
    have hfails : (x >>= k) T = .error e := by rw [hrun, hx]; rfl
    refine ⟨fun e' he hempty => ?_, fun a U ha => ?_, fun a U ha => ?_⟩
    · cases hfails.symm.trans he
      rw [hrun, h.error e hx hempty]
      rfl
    · cases hfails.symm.trans ha
    · cases hfails.symm.trans ha
  | ok r =>
    obtain ⟨a, U⟩ := r
    have hlater := h.later a U hx
    have hstep (U' : Table) (hU : U.Respans ρ.span U') := hk a U U' hx hlater.known hU
    have hself := hstep _ (U.respans_respan ρ.span)
    refine ⟨fun e he hempty => ?_, fun b V hb => ?_, fun b V hb hc => ?_⟩
    · obtain ⟨U', hy, hU⟩ := h.ok a U hx (.inl hempty)
      rw [hrun, hx] at he
      rw [hrun, hy]
      exact (hstep U' hU).error e he hempty
    · rw [hrun, hx] at hb
      have := hself.later b V hb
      exact ⟨this.known, hlater.entries.trans this.entries⟩
    · rw [hrun, hx] at hb
      obtain ⟨U', hy, hU⟩ := h.ok a U hx ((hself.later b V hb).clear hc)
      rw [hrun, hy]
      exact (hstep U' hU).ok b V hb hc

theorem FollowsFrom.lift {x : Except Fault α} {y : Except Fault α'} (hT : Known T) (ht : T.Respans ρ.span T')
    (h : y = x.map f) : FollowsFrom ρ f (x : Typing α) (y : Typing α') T T' := by
  subst h
  cases x with
  | error e => exact ⟨by rintro _ ⟨⟩ -; rfl, by rintro _ _ ⟨⟩, by rintro _ _ ⟨⟩⟩
  | ok a => exact .pure hT ht fun _ => rfl

/-- A step that puts another table in the place of the table. -/
theorem FollowsFrom.put {k : Typing β} {l : Typing β'} (h : Onwards T U) (hk : FollowsFrom ρ g k l U U') :
    FollowsFrom ρ g (set U >>= fun _ => k) (set U' >>= fun _ => l) T T' :=
  ⟨hk.error, fun b V hb => ⟨(hk.later b V hb).known, h.entries.trans (hk.later b V hb).entries⟩, hk.ok⟩

theorem FollowsFrom.step {op op' : Except Fault (Table.Declared × Table)} {k : Table.Declared × Table → Typing β}
    {l : Table.Declared × Table → Typing β'} (hop : op' = op.map fun r => (r.1, U'))
    (hk : ∀ d U, op = .ok (d, U) → Onwards T U ∧ FollowsFrom ρ g (k (d, U)) (l (d, U')) U U') :
    FollowsFrom ρ g (do let r ← (op : Typing _); set r.2; k r) (do let r ← (op' : Typing _); set r.2; l r) T T' := by
  subst hop
  cases op with
  | error e => exact ⟨by rintro _ ⟨⟩ -; rfl, by rintro _ _ ⟨⟩, by rintro _ _ ⟨⟩⟩
  | ok r => exact .put (hk r.1 r.2 rfl).1 (hk r.1 r.2 rfl).2

namespace Follows

theorem pure {a : α} {a' : α'} (h : a' = f a) : Follows ρ f (Pure.pure a) (Pure.pure a') :=
  fun _ _ hT ht => .pure hT ht fun _ => h

theorem bind {x : Typing α} {y : Typing α'} {k : α → Typing β} {l : α' → Typing β'} (h : Follows ρ f x y)
    (hk : ∀ a, Follows ρ g (k a) (l (f a))) : Follows ρ g (x >>= k) (y >>= l) :=
  fun T T' hT ht => (h T T' hT ht).bind fun a U U' _ hU hU' => hk a U U' hU hU'

theorem get {k : Table → Typing β} {l : Table → Typing β'}
    (h : ∀ T T', Known T → T.Respans ρ.span T' → FollowsFrom ρ g (k T) (l T') T T') :
    Follows ρ g (MonadState.get >>= k) (MonadState.get >>= l) :=
  fun T T' hT ht => ⟨(h T T' hT ht).error, (h T T' hT ht).later, (h T T' hT ht).ok⟩

theorem query {x : Table → Except Fault α} {y : Table → Except Fault α'}
    (h : ∀ T T' : Table, T.Respans ρ.span T' → y T' = (x T).map f) : Follows ρ f (Typing.query x) (Typing.query y) :=
  get fun T T' hT ht => .lift hT ht (h T T' ht)

theorem mapM {as : List α} {k : α → Typing β} {l : α' → Typing β'} (h : ∀ a ∈ as, Follows ρ g (k a) (l (f a))) :
    Follows ρ (List.map g) (as.mapM k) ((as.map f).mapM l) := by
  induction as with
  | nil => exact pure rfl
  | cons a as ih =>
    obtain ⟨ha, has⟩ := List.forall_mem_cons.1 h
    rw [List.map_cons, List.mapM_cons, List.mapM_cons]
    exact ha.bind fun b => (ih has).bind fun bs => pure rfl

end Follows

end

theorem lift_type {n : Tree} (h : n.IsType) : Follows ρ id (type n : Typing Ty) (type (n.respan ρ.span) : Typing Ty) := by
  refine fun T T' hT ht => .lift hT ht ?_
  rw [type_respan h]
  cases type n <;> rfl

theorem query_respan {n : Tree} (h : n.IsExpr) (sc : ScopeId) : Follows ρ (Checked.respan ρ (Expr.respan ρ.span))
    (query fun t => expr t sc n) (query fun t => expr t sc (n.respan ρ.span)) :=
  .query fun _ _ ht => expr_respan ht h

theorem newBlock_respan (hT : Known T) (ht : T.Respans ρ.span T') {span : Span} {i i' : ScopeId}
    (hb : T.newBlock sc span = (i, U)) (hb' : T'.newBlock sc (ρ.span span) = (i', U')) :
    i' = i ∧ Onwards T U ∧ U.Respans ρ.span U' := by
  obtain ⟨hid, hnew⟩ := ht.newBlock sc span (ρ.span span)
  have hlater : Onwards T (T.newBlock sc span).2 := hT.newScope .block sc span 0
  rw [hb, hb'] at hid hnew
  rw [hb] at hlater
  exact ⟨hid, hlater, hnew⟩

theorem inBlock_respan (sc : ScopeId) (span : Span) {body body' : ScopeId → Typing (Checked Stat)}
    (h : ∀ i, Follows ρ (Checked.respan ρ (Stat.respan ρ.span)) (body i) (body' i)) :
    Follows ρ (Checked.respan ρ (Block.respan ρ.span)) (inBlock sc span body) (inBlock sc (ρ.span span) body') := by
  refine .get fun T T' hT ht => ?_
  rcases hb : T.newBlock sc span with ⟨i, U⟩
  rcases hb' : T'.newBlock sc (ρ.span span) with ⟨i', U'⟩
  obtain ⟨rfl, hlater, hU⟩ := newBlock_respan hT ht hb hb'
  refine .put hlater ((h i' U U' hlater.known hU).bind fun c V V' _ hV hV' => ?_)
  exact .pure hV hV' fun _ => map_respan c fun s => rfl

/-! ## Statements -/

theorem var?_of_taken {name : Text} {type : Ty} {span : Span} {d : Table.Declared} (hT : Known T)
    (hd : T.declare sc name type span = .ok (d, U)) (hf : d.fresh = false) (hsmall : entries U + 1 < 2 ^ 32) :
    ∃ v, U.var? d.id = some v := by
  simp only [Table.declare] at hd
  cases hs : T.scope? sc with
  | none => rw [hs] at hd; cases hd
  | some s =>
    simp only [hs, Except.ok.injEq, Table.declareIn] at hd
    cases hn : s.names.lookup name with
    | none =>
      rw [hn] at hd
      cases hd
      cases hf
    | some old =>
      rw [hn] at hd
      cases hd
      obtain ⟨before, after, hnames, -⟩ := List.lookup_eq_some_iff.1 hn
      obtain ⟨i, -, hi⟩ := Table.numbered_eq_some.1 hs
      obtain ⟨j, hj, rfl⟩ := hT s (Array.mem_of_getElem? hi) (name, old) (by simp [hnames])
      simp only [entries] at hsmall
      have hnum : (j + 1).toUInt32.toNat = j + 1 := Table.toNat_number (by omega)
      have hbounds : 0 < (j + 1).toUInt32.toNat ∧ (j + 1).toUInt32.toNat ≤ T.vars.size := by omega
      exact Table.numbered_of_lt hbounds.1 hbounds.2

theorem declare_respan (site : Site) (written : Ty) {name : Tree} (hname : name.IsIdent) (c : Checked Value) :
    Follows ρ (Checked.respan ρ (Stat.respan ρ.span)) (declare site written name c)
      (declare (site.respan ρ.span) written (name.respan ρ.span) (c.respan ρ (Value.respan ρ.span))) := by
  unfold declare
  rw [Tree.text_respan, hname.span_respan]
  refine .get fun T T' hT ht => ?_
  have hagain (type : Ty) {d : Table.Declared} {U U' : Table} (hU : U.Respans ρ.span U') (hc : Clear ρ U)
      (hd : T.declare site.scope name.text type name.span = .ok (d, U)) (p : Problem) (m : Text) :
      (if d.fresh then [] else [(p.diagnostic (ρ.span name.span)).withNote (((U'.var? d.id).map (·.span)).getD {}) m]) =
        (if d.fresh then [] else [(p.diagnostic name.span).withNote (((U.var? d.id).map (·.span)).getD {}) m]).map
          ρ.problem := by
    split_ifs with hf
    · rfl
    · rw [hU.var?]
      cases hv : U.var? d.id with
      | some v => simp [Variable.respan]
      | none =>
        obtain hempty | hsmall := hc
        · simp [hempty]
        · obtain ⟨v, hv'⟩ := var?_of_taken hT hd (Bool.eq_false_of_not_eq_true hf) hsmall
          cases hv.symm.trans hv'
  cases c with
  | bad e es =>
    simp only [Checked.respan_bad]
    obtain ⟨U', hd', hres⟩ := ht.declare site.scope name.text written name.span
    refine .step hd' fun d U hd => ?_
    refine ⟨hT.declare hd, .pure (hT.declare hd).known (hres d U hd) fun hc => ?_⟩
    rw [← Checked.check_respan, List.map_append, ← hagain written (hres d U hd) hc hd]
    rfl
  | ok v =>
    simp only [Checked.respan_ok, Value.type_respan, Value.span_respan]
    obtain ⟨U', hd', hres⟩ := ht.declare site.scope name.text (written.refine v.type) name.span
    refine .step hd' fun d U hd => ?_
    refine ⟨hT.declare hd, .pure (hT.declare hd).known (hres d U hd) fun hc => ?_⟩
    rw [← Checked.check_respan, List.map_append, ← hagain _ (hres d U hd) hc hd]
    congr 2
    split_ifs <;> simp

theorem assign_respan (site : Site) (l : Checked Target) (v : Checked Value) :
    assign (site.respan ρ.span) (l.respan ρ (Target.respan ρ.span)) (v.respan ρ (Value.respan ρ.span)) =
      (assign site l v).respan ρ (Stat.respan ρ.span) := by
  refine bind2_respan l v fun l v => ?_
  rw [Target.type_respan, Value.type_respan]
  split_ifs <;> simp [Stat.respan, Site.respan]

theorem read_respan (site : Site) (l : Checked Target) :
    read (site.respan ρ.span) (l.respan ρ (Target.respan ρ.span)) = (read site l).respan ρ (Stat.respan ρ.span) := by
  refine bind_respan l fun l => ?_
  rw [Target.type_respan, Target.span_respan]
  split_ifs <;> simp [Stat.respan]

theorem wordStat_respan (h : T.Respans ρ.span T') {k : NodeKind} (hk : Tree.isWord k = true) (site : Site)
    (c : Checked Expr) : wordStat T' (site.respan ρ.span) k (c.respan ρ (Expr.respan ρ.span)) =
      (wordStat T site k c).respan ρ (Stat.respan ρ.span) := by
  cases k <;> simp only [Tree.isWord, Bool.false_eq_true] at hk <;> unfold wordStat
  · refine bind_respan c fun e => ?_
    rw [Expr.type_respan, Expr.span_respan]
    split_ifs <;> simp [Stat.respan]
  · unfold ret
    rw [h.enclosingFunc]
    change (if T.enclosingFunc site.scope = 0 then _ else _) = _
    split_ifs
    · exact Checked.refuse_respan ..
    · exact map_respan c fun _ => rfl
  · rw [expectType_respan]
    exact map_respan _ fun _ => rfl
  · exact map_respan c fun _ => rfl
  · exact map_respan c fun _ => rfl

theorem unreachable?_respan (inFunc : Bool) {cs : List Tree} (hcs : ∀ n ∈ cs, (n.respan ρ.span).span = ρ.span n.span) :
    (unreachable? inFunc (cs.map (Tree.respan ρ.span))).toList = (unreachable? inFunc cs).toList.map ρ.problem := by
  induction cs with
  | nil => rfl
  | cons n cs ih =>
    cases cs with
    | nil => rfl
    | cons next rest =>
      have hterminal : terminal? inFunc (n.respan ρ.span) = terminal? inFunc n := by
        rw [terminal?, terminal?, Tree.kind_respan]
      rw [List.map_cons, List.map_cons, unreachable?, unreachable?, hterminal, hcs next (by simp)]
      cases terminal? inFunc n with
      | none => exact ih fun m hm => hcs m (List.mem_cons_of_mem n hm)
      | some word => simp

theorem stats_respan {ns : List Tree}
    (h : ∀ n ∈ ns, ∀ sc, Follows ρ (Checked.respan ρ (Stat.respan ρ.span)) (stat sc n) (stat sc (n.respan ρ.span)))
    (sc : ScopeId) : Follows ρ (List.map (Checked.respan ρ (Stat.respan ρ.span))) (stats sc ns)
      (stats sc (ns.map (Tree.respan ρ.span))) := by
  induction ns with
  | nil => exact .pure rfl
  | cons n ns ih =>
    obtain ⟨hn, hns⟩ := List.forall_mem_cons.1 h
    rw [List.map_cons, stats, stats]
    exact (hn sc).bind fun c => (ih hns).bind fun cs => .pure rfl

theorem stat_respan {n : Tree} (h : n.IsStat) (sc : ScopeId) :
    Follows ρ (Checked.respan ρ (Stat.respan ρ.span)) (stat sc n) (stat sc (n.respan ρ.span)) := by
  induction h generalizing sc with
  | skip =>
    rw [Tree.respan_node, stat, stat]
    exact .pure rfl
  | @declare text span t name v ht hname hv =>
    simp only [Tree.respan_node, List.map_cons, List.map_nil, stat]
    exact (lift_type ht).bind fun written => (Follows.query fun _ _ hr => value_respan hr hv).bind fun c =>
      declare_respan ⟨span, sc⟩ written hname c
  | @assign text span l v hl hv =>
    simp only [Tree.respan_node, List.map_cons, List.map_nil, stat]
    exact (Follows.query fun _ _ hr => target_respan hr hl).bind fun l =>
      (Follows.query fun _ _ hr => value_respan hr hv).bind fun v => .pure (assign_respan ⟨span, sc⟩ l v)
  | @read text span l hl =>
    simp only [Tree.respan_node, List.map_cons, List.map_nil, stat]
    exact (Follows.query fun _ _ hr => target_respan hr hl).bind fun l => .pure (read_respan ⟨span, sc⟩ l)
  | @word k text span e hk he =>
    have hword {T T' : Table} (ht : T.Respans ρ.span T') := wordStat_respan ht hk ⟨span, sc⟩
    have hquery := query_respan (ρ := ρ) he sc
    rw [Tree.respan_node, List.map_singleton]
    cases k <;> try cases hk
    all_goals rw [stat, stat]
    · exact hquery.bind fun c => .pure (hword (Table.empty_respans ρ.span) c)
    · exact .get fun T T' hT ht => (hquery T T' hT ht).bind fun c U U' _ hU hU' => .pure hU hU' fun _ => hword ht c
    all_goals exact hquery.bind fun c => .pure (hword (Table.empty_respans ρ.span) c)
  | @ifThen text span c a hc ha iha =>
    simp only [Tree.respan_node, List.map_cons, List.map_nil, stat, ha.span_respan]
    refine (query_respan hc sc).bind fun c => (inBlock_respan sc a.span fun i => iha i).bind fun a => .pure ?_
    rw [expectType_respan]
    exact map2_respan _ a fun _ _ => rfl
  | @ifElse text span c a b hc ha hb iha ihb =>
    simp only [Tree.respan_node, List.map_cons, List.map_nil, stat, ha.span_respan, hb.span_respan]
    refine (query_respan hc sc).bind fun c => (inBlock_respan sc a.span fun i => iha i).bind fun a =>
      (inBlock_respan sc b.span fun i => ihb i).bind fun b => .pure ?_
    rw [expectType_respan]
    exact map3_respan _ a b fun _ _ _ => rfl
  | @«while» text span c b hc hb ih =>
    simp only [Tree.respan_node, List.map_cons, List.map_nil, stat, hb.span_respan]
    refine (query_respan hc sc).bind fun c => (inBlock_respan sc b.span fun i => ih i).bind fun b => .pure ?_
    rw [expectType_respan]
    exact map2_respan _ b fun _ _ => rfl
  | @«for» text span i c s b hi hc hs hb ihi ihs ihb =>
    simp only [Tree.respan_node, List.map_cons, List.map_nil, stat, hb.span_respan]
    refine .get fun T T' hT ht => ?_
    rcases hnew : T.newBlock sc span with ⟨j, U⟩
    rcases hnew' : T'.newBlock sc (ρ.span span) with ⟨j', U'⟩
    obtain ⟨rfl, hlater, hU⟩ := newBlock_respan hT ht hnew hnew'
    refine .put hlater ((?_ : Follows ρ _ _ _) U U' hlater.known hU)
    refine (ihi j').bind fun i => (query_respan hc j').bind fun c => (ihs j').bind fun s =>
      (inBlock_respan j' b.span fun k => ihb k).bind fun b => .pure ?_
    rw [expectType_respan]
    exact map4_respan i _ s b fun _ _ _ _ => rfl
  | @block text span b hb ih =>
    simp only [Tree.respan_node, List.map_cons, List.map_nil, stat, hb.span_respan]
    exact (inBlock_respan sc b.span fun i => ih i).bind fun b => .pure (map_respan b fun _ => rfl)
  | @seq text span ss hss ih =>
    simp only [Tree.respan_node, stat]
    refine .get fun T T' hT ht => (stats_respan ih sc T T' hT ht).bind fun cs U U' _ hU hU' => .pure hU hU' fun _ => ?_
    rw [ht.enclosingFunc, unreachable?_respan _ fun n hn => (hss n hn).span_respan, all_respan, ← Checked.check_respan]
    exact congrArg (Checked.check · _) (map_respan _ fun ss => Stat.sequence_respan ρ.span ⟨span, sc⟩ ss)

/-! ## Programs -/

theorem params_respan (id : FuncId) (func : Text) {ps : List Tree} (h : ∀ p ∈ ps, p.IsParam) :
    Follows ρ (List.map ρ.problem) (params id func ps) (params id func (ps.map (Tree.respan ρ.span))) := by
  induction ps with
  | nil => exact .pure rfl
  | cons p ps ih =>
    obtain ⟨hp, hps⟩ := List.forall_mem_cons.1 h
    obtain ⟨hty, hname⟩ : (p.child 0).IsType ∧ (p.child 1).IsIdent := by
      obtain ⟨hty, hname⟩ := hp
      exact ⟨hty, hname⟩
    rw [List.map_cons, params, params]
    simp only [Tree.child_respan, Tree.text_respan, hname.span_respan]
    refine (lift_type hty).bind fun written => .get fun T T' hT ht => ?_
    obtain ⟨U', hd', hres⟩ := ht.bindParam id (p.child 1).text written (p.child 1).span
    refine .step hd' fun d U hd => ⟨hT.bindParam hd, ?_⟩
    refine (ih hps U U' (hT.bindParam hd).known (hres d U hd)).bind fun ds V V' _ hV hV' => .pure hV hV' fun _ => ?_
    rw [List.map_append]
    congr 1
    split_ifs <;> simp

def Header.respan (ρ : Respan) (h : Header) : Header := ⟨h.id, h.problems.map ρ.problem⟩

theorem func?_of_lookupFunc {name : Text} {id : FuncId} (h : T.lookupFunc name = some id)
    (hsmall : entries T + 1 < 2 ^ 32) : ∃ g, T.func? id = some g := by
  obtain ⟨i, hi, rfl⟩ := Option.map_eq_some_iff.1 h
  have hlt : i < T.funcs.size := by simpa using (List.findIdx?_eq_some_iff_getElem.1 hi).1
  simp only [entries] at hsmall
  have hnum : (i + 1).toUInt32.toNat = i + 1 := Table.toNat_number (by omega)
  exact Table.numbered_of_lt (by omega) (by omega)

theorem header_respan {n : Tree} (h : n.IsFunc) :
    Follows ρ (Header.respan ρ) (header n) (header (n.respan ρ.span)) := by
  obtain ⟨hty, hname, hps⟩ : (n.child 0).IsType ∧ (n.child 1).IsIdent ∧ ∀ p ∈ (n.child 2).children, p.IsParam := by
    obtain ⟨hty, hname, hps, -⟩ := h
    exact ⟨hty, hname, hps⟩
  unfold header
  simp only [Tree.child_respan, Tree.text_respan, hname.span_respan, Tree.children_respan]
  generalize n.child 1 = name at hname
  refine (lift_type hty).bind fun result => .get fun T T' hT ht => ?_
  have hlater := hT.declareFunc name.text result name.span
  obtain ⟨hid, hU⟩ := ht.declareFunc name.text result name.span
  have htaken (hf : ¬ (T.declareFunc name.text result name.span).1.fresh = true) :
      (T.declareFunc name.text result name.span).2.lookupFunc name.text =
        some (T.declareFunc name.text result name.span).1.id := by
    unfold Table.declareFunc at hf ⊢
    cases hn : T.lookupFunc name.text with
    | none => rw [hn] at hf; exact absurd rfl hf
    | some old => exact hn
  rcases hd : T.declareFunc name.text result name.span with ⟨d, U⟩
  rcases hd' : T'.declareFunc name.text result (ρ.span name.span) with ⟨d', U'⟩
  simp only [hd, hd'] at htaken hlater hU hid
  subst hid
  refine .put hlater ?_
  simp only [id_eq, hd']
  split_ifs with hf
  · exact (params_respan d'.id name.text hps U U' hlater.known hU).bind fun ds V V' _ hV hV' =>
      .pure hV hV' fun _ => rfl
  · refine .pure hlater.known hU fun hc => ?_
    rw [hU.func?]
    cases hg : U.func? d'.id with
    | some g => simp [Header.respan, Signature.respan]
    | none =>
      obtain hempty | hsmall := hc
      · simp [Header.respan, hempty]
      · obtain ⟨g, hg'⟩ := func?_of_lookupFunc (htaken hf) hsmall
        cases hg.symm.trans hg'

theorem func_respan {n : Tree} (h : n.IsFunc) (x : Header) :
    Follows ρ (Checked.respan ρ (Func.respan ρ.span)) (func n x) (func (n.respan ρ.span) (x.respan ρ)) := by
  obtain ⟨hb, hspan⟩ : (n.child 3).IsStat ∧ (n.respan ρ.span).span = ρ.span n.span := by
    obtain ⟨-, -, -, hb⟩ := h
    rw [Tree.respan_node]
    exact ⟨hb, rfl⟩
  obtain ⟨id?, ds⟩ := x
  unfold func
  simp only [Tree.child_respan, hb.span_respan, hspan]
  refine .get fun T T' hT ht => ?_
  have hfound : (id?.bind fun id => (T'.func? id).map fun f => (id, f)) =
      (id?.bind fun id => (T.func? id).map fun f => (id, f)).map fun r => (r.1, r.2.respan ρ.span) := by
    cases id? <;> simp [ht.func?, Function.comp_def]
  simp only [Header.respan, hfound]
  cases id?.bind fun id => (T.func? id).map fun f => (id, f) with
  | none =>
    cases ds with
    | nil => exact ⟨by rintro _ ⟨⟩ -; rfl, by rintro _ _ ⟨⟩, by rintro _ _ ⟨⟩⟩
    | cons => exact .pure hT ht fun _ => rfl
  | some r =>
    refine (inBlock_respan r.2.scope (n.child 3).span (fun i => stat_respan hb i) T T' hT ht).bind
      fun c U U' _ hU hU' => .pure hU hU' fun _ => ?_
    rw [← Checked.check_respan]
    exact congrArg (Checked.check · _) (map_respan c fun _ => rfl)

/-- The typed functions and the typed body of a program, before the table is read off. -/
def parts (fs : List Tree) (main : Tree) : Typing (List (Checked Func) × Checked Stat) := do
  let headers ← fs.mapM header
  let funcs ← (fs.zip headers).mapM fun r => func r.1 r.2
  let body ← stat Table.global main
  return (funcs, body)

theorem parts_respan {fs : List Tree} {main : Tree} (hfs : ∀ f ∈ fs, f.IsFunc) (hmain : main.IsStat) :
    Follows ρ (Prod.map (List.map (Checked.respan ρ (Func.respan ρ.span))) (Checked.respan ρ (Stat.respan ρ.span)))
      (parts fs main) (parts (fs.map (Tree.respan ρ.span)) (main.respan ρ.span)) := by
  refine (Follows.mapM fun f hf => header_respan (hfs f hf)).bind fun headers => ?_
  rw [show (fs.map (Tree.respan ρ.span)).zip (headers.map (Header.respan ρ)) =
    (fs.zip headers).map (Prod.map (Tree.respan ρ.span) (Header.respan ρ)) from List.zip_map ..]
  refine (Follows.mapM fun r hr => func_respan (hfs r.1 (List.of_mem_zip hr).1) r.2).bind fun funcs => ?_
  exact (stat_respan hmain _).bind fun body => .pure rfl

theorem check_eq_parts (text : Text) (span : Span) (fs : List Tree) (main : Tree) :
    check (.node .program text span (fs ++ [main])) = parts fs main .empty >>= fun r => pure
      (Checked.map2 (fun funcs body => { funcs, body, table := r.2, span : Program }) (Checked.all r.1.1) r.1.2,
        r.2) := by
  change StateT.run _ _ = StateT.run (parts fs main) .empty >>= _
  simp only [program, parts, List.getLast?_concat, List.dropLast_concat, StateT.run_bind, StateT.run_pure,
    StateT.run_get, bind_assoc, pure_bind]

theorem check_table {n : Tree} (h : n.IsProgram) {p : Program} (hc : check n = .ok (.ok p, T)) : p.table = T := by
  obtain @⟨text, span, fs, main, -, -⟩ := h
  rw [check_eq_parts] at hc
  cases hx : parts fs main .empty with
  | error e => rw [hx] at hc; cases hc
  | ok r =>
    rw [hx] at hc
    obtain ⟨hvalue, rfl⟩ := Prod.mk.inj (Except.ok.inj hc)
    revert hvalue
    cases Checked.all r.1.1 <;> cases r.1.2 <;> rintro ⟨⟩
    rfl

/-- **Typing does not look at spans.**  With other spans a tree gives the same program, the same table and the
    same problems, with other spans. -/
theorem check_respan {n : Tree} (h : n.IsProgram) :
    (∀ e, check n = .error e → ρ.span {} = {} → check (n.respan ρ.span) = .error e) ∧
      ∀ c T, check n = .ok (c, T) → Clear ρ T → ∃ T', T.Respans ρ.span T' ∧
        check (n.respan ρ.span) = .ok (c.respan ρ (Program.respan ρ.span T'), T') := by
  obtain @⟨text, span, fs, main, hfs, hmain⟩ := h
  have hparts := parts_respan (ρ := ρ) hfs hmain .empty .empty (by simp [Known, Table.empty])
    (Table.empty_respans ρ.span)
  rw [Tree.respan_node, List.map_append, List.map_singleton, check_eq_parts, check_eq_parts]
  cases hx : parts fs main .empty with
  | error e' =>
    refine ⟨?_, by rintro _ _ ⟨⟩⟩
    rintro e ⟨⟩ hempty
    rw [hparts.error e' hx hempty]
    rfl
  | ok r =>
    refine ⟨by rintro _ ⟨⟩, ?_⟩
    rintro _ _ ⟨⟩ hc
    obtain ⟨T', hy, hT'⟩ := hparts.ok r.1 r.2 hx hc
    refine ⟨T', hT', ?_⟩
    rw [hy]
    refine congrArg (fun c => Except.ok (c, T')) ?_
    dsimp only [Prod.map]
    rw [all_respan]
    exact map2_respan (Checked.all r.1.1) r.1.2 fun _ _ => rfl

end Typing

end Wacc
