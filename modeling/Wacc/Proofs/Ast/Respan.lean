/-
  Programs at other places.

  Spans say where something stands and nothing else.  Other spans leave a program, its table and its
  problems as they are otherwise, and what is done with a table does not look at them.
-/
import Mathlib.Tactic.SplitIfs
import Wacc.Typing.Problem

namespace Wacc

/-- Other spans, and other problems for them. -/
structure Respan where
  span : Span → Span
  problem : Diagnostic → Diagnostic
  diagnostic : ∀ (p : Problem) (s : Span), problem (p.diagnostic s) = p.diagnostic (span s)
  withNote : ∀ (p : Problem) (s t : Span) (m : Text),
    problem ((p.diagnostic s).withNote t m) = (p.diagnostic (span s)).withNote (span t) m

attribute [simp] Respan.diagnostic Respan.withNote

def Diagnostic.respan (f : Span → Span) (d : Diagnostic) : Diagnostic :=
  { d with span := f d.span, notes := d.notes.map fun n => { n with span := f n.span } }

/-- No spans at all. -/
def Respan.away : Respan where
  span _ := {}
  problem := Diagnostic.respan fun _ => {}
  diagnostic _ _ := rfl
  withNote _ _ _ _ := rfl

/-! ## Checked values -/

namespace Checked

variable (ρ : Respan) {α β γ δ α' β' γ' δ' : Type} {f : α → α'} {g : β → β'} {h : γ → γ'} {i : δ → δ'}

def respan (f : α → α') : Checked α → Checked α'
  | .ok a => .ok (f a)
  | .bad d ds => .bad (ρ.problem d) (ds.map ρ.problem)

variable {ρ}

@[simp] theorem respan_ok (a : α) : (Checked.ok a).respan ρ f = .ok (f a) := rfl

@[simp] theorem respan_bad (d : Diagnostic) (ds : List Diagnostic) :
    (Checked.bad d ds).respan ρ f = .bad (ρ.problem d) (ds.map ρ.problem) := rfl

@[simp] theorem respan_fails (p : Problem) (s : Span) : (p.fails s).respan ρ f = p.fails (ρ.span s) := by
  simp [Problem.fails, fail]

@[simp] theorem problems_respan (c : Checked α) : (c.respan ρ f).problems = c.problems.map ρ.problem := by
  cases c <;> rfl

theorem map_respan (c : Checked α) {k : α → β} {k' : α' → β'} (hk : ∀ a, k' (f a) = g (k a)) :
    (c.respan ρ f).map k' = (c.map k).respan ρ g := by
  cases c with
  | ok a => exact congrArg Checked.ok (hk a)
  | bad => rfl

theorem bind_respan (c : Checked α) {k : α → Checked β} {k' : α' → Checked β'}
    (hk : ∀ a, k' (f a) = (k a).respan ρ g) : (c.respan ρ f).bind k' = (c.bind k).respan ρ g := by
  cases c with
  | ok a => exact hk a
  | bad => rfl

theorem bind2_respan (a : Checked α) (b : Checked β) {k : α → β → Checked γ} {k' : α' → β' → Checked γ'}
    (hk : ∀ x y, k' (f x) (g y) = (k x y).respan ρ h) :
    bind2 (a.respan ρ f) (b.respan ρ g) k' = (bind2 a b k).respan ρ h := by
  cases a with
  | ok x =>
    cases b with
    | ok y => exact hk x y
    | bad => rfl
  | bad d ds => simp [bind2]

theorem map2_respan (a : Checked α) (b : Checked β) {k : α → β → γ} {k' : α' → β' → γ'}
    (hk : ∀ x y, k' (f x) (g y) = h (k x y)) :
    map2 k' (a.respan ρ f) (b.respan ρ g) = (map2 k a b).respan ρ h :=
  bind2_respan a b fun x y => congrArg Checked.ok (hk x y)

theorem map3_respan (a : Checked α) (b : Checked β) (c : Checked γ) {k : α → β → γ → δ} {k' : α' → β' → γ' → δ'}
    (hk : ∀ x y z, k' (f x) (g y) (h z) = i (k x y z)) :
    map3 k' (a.respan ρ f) (b.respan ρ g) (c.respan ρ h) = (map3 k a b c).respan ρ i := by
  cases a <;> cases b <;> cases c <;> simp [map3, map2, bind2, problems, hk]

theorem map4_respan {ε ε' : Type} {e : ε → ε'} (a : Checked α) (b : Checked β) (c : Checked γ) (d : Checked δ)
    {k : α → β → γ → δ → ε} {k' : α' → β' → γ' → δ' → ε'}
    (hk : ∀ x y z w, k' (f x) (g y) (h z) (i w) = e (k x y z w)) :
    map2 (fun l w => l w) (map3 k' (a.respan ρ f) (b.respan ρ g) (c.respan ρ h)) (d.respan ρ i) =
      (map2 (fun l w => l w) (map3 k a b c) d).respan ρ e := by
  cases a <;> cases b <;> cases c <;> cases d <;> simp [map3, map2, bind2, problems, hk]

theorem all_respan (cs : List (Checked α)) : all (cs.map (respan ρ f)) = (all cs).respan ρ (List.map f) := by
  induction cs with
  | nil => rfl
  | cons c cs ih =>
    rw [List.map_cons, all, all, ih]
    exact map2_respan c (all cs) fun _ _ => rfl

@[simp] theorem check_respan (c : Checked α) (ds : List Diagnostic) :
    (c.respan ρ f).check (ds.map ρ.problem) = (c.check ds).respan ρ f := by
  cases ds with
  | nil => rfl
  | cons => cases c <;> simp [check]

@[simp] theorem refuse_respan (c : Checked α) (p : Problem) (s : Span) :
    (c.respan ρ f).refuse (p.diagnostic (ρ.span s)) = (c.refuse (p.diagnostic s)).respan ρ g := by
  cases c <;> simp [refuse]

end Checked

/-! ## Expressions, places and values -/

variable (φ : Span → Span)

def Ident.respan (id : Ident) : Ident := { id with span := φ id.span }

namespace Expr

mutual

def respan : Expr → Expr
  | .int s n => .int (φ s) n
  | .bool s b => .bool (φ s) b
  | .char s c => .char (φ s) c
  | .str s t => .str (φ s) t
  | .null s => .null (φ s)
  | .var id => .var (id.respan φ)
  | .elem s t id is => .elem (φ s) t (id.respan φ) (respanAll is)
  | .unary s t op e => .unary (φ s) t op (respan e)
  | .binary s t op l r => .binary (φ s) t op (respan l) (respan r)

def respanAll : List Expr → List Expr
  | [] => []
  | e :: es => respan e :: respanAll es

end

theorem respanAll_eq (es : List Expr) : respanAll φ es = es.map (respan φ) := by
  induction es with
  | nil => rfl
  | cons e es ih => rw [respanAll, ih, List.map_cons]

@[simp] theorem type_respan (e : Expr) : (e.respan φ).type = e.type := by cases e <;> rfl

@[simp] theorem span_respan (e : Expr) : (e.respan φ).span = φ e.span := by cases e <;> rfl

end Expr

namespace Target

def respan : Target → Target
  | .var id => .var (id.respan φ)
  | .elem s t id is => .elem (φ s) t (id.respan φ) (is.map (Expr.respan φ))
  | .slot s t snd p => .slot (φ s) t snd (respan p)

@[simp] theorem type_respan (p : Target) : (p.respan φ).type = p.type := by cases p <;> rfl

@[simp] theorem span_respan (p : Target) : (p.respan φ).span = φ p.span := by cases p <;> rfl

end Target

namespace Value

mutual

def respan : Value → Value
  | .expr e => .expr (e.respan φ)
  | .array s t vs => .array (φ s) t (respanAll vs)
  | .newPair s a b => .newPair (φ s) (a.respan φ) (b.respan φ)
  | .slot s t snd p => .slot (φ s) t snd (p.respan φ)
  | .call s t func name es => .call (φ s) t func name (es.map (Expr.respan φ))

def respanAll : List Value → List Value
  | [] => []
  | v :: vs => respan v :: respanAll vs

end

theorem respanAll_eq (vs : List Value) : respanAll φ vs = vs.map (respan φ) := by
  induction vs with
  | nil => rfl
  | cons v vs ih => rw [respanAll, ih, List.map_cons]

@[simp] theorem type_respan (v : Value) : (v.respan φ).type = v.type := by cases v <;> simp [respan, type]

@[simp] theorem span_respan (v : Value) : (v.respan φ).span = φ v.span := by cases v <;> simp [respan, span]

end Value

/-! ## Statements and functions -/

def Site.respan (s : Site) : Site := { s with span := φ s.span }

mutual

def Stat.respan : Stat → Stat
  | .skip s => .skip (s.respan φ)
  | .declare s x name t v => .declare (s.respan φ) x name t (v.respan φ)
  | .assign s p v => .assign (s.respan φ) (p.respan φ) (v.respan φ)
  | .read s p => .read (s.respan φ) (p.respan φ)
  | .free s e => .free (s.respan φ) (e.respan φ)
  | .ret s e => .ret (s.respan φ) (e.respan φ)
  | .exit s e => .exit (s.respan φ) (e.respan φ)
  | .print s e newline => .print (s.respan φ) (e.respan φ) newline
  | .block b => .block b.respan
  | .ifThen s c a => .ifThen (s.respan φ) (c.respan φ) a.respan
  | .ifElse s c a b => .ifElse (s.respan φ) (c.respan φ) a.respan b.respan
  | .while s c b => .while (s.respan φ) (c.respan φ) b.respan
  | .for s header i c t b => .for (s.respan φ) header i.respan (c.respan φ) t.respan b.respan
  | .seq s ss => .seq (s.respan φ) (Stat.respanAll ss)

def Stat.respanAll : List Stat → List Stat
  | [] => []
  | s :: ss => s.respan :: Stat.respanAll ss

def Block.respan : Block → Block
  | .mk s i b => .mk (s.respan φ) i b.respan

end

namespace Stat

theorem respanAll_eq (ss : List Stat) : respanAll φ ss = ss.map (respan φ) := by
  induction ss with
  | nil => rfl
  | cons s ss ih => rw [respanAll, ih, List.map_cons]

theorem sequence_respan (site : Site) (ss : List Stat) :
    sequence (site.respan φ) (ss.map (respan φ)) = (sequence site ss).respan φ := by
  have hflatten (s : Stat) : (s.respan φ).flatten = s.flatten.map (respan φ) := by
    cases s <;> simp [respan, flatten, respanAll_eq]
  simp [sequence, respan, respanAll_eq, List.flatMap_map, List.map_flatMap, hflatten]

end Stat

def Func.respan (f : Func) : Func := { f with body := f.body.respan φ, span := φ f.span }

/-! ## Tables -/

def Scope.bare (s : Scope) : Scope := { s with span := {} }

def Variable.respan (v : Variable) : Variable := { v with span := φ v.span }

def Signature.respan (f : Signature) : Signature := { f with span := φ f.span }

namespace Table

/-- Scopes have spans that nothing looks at, so it does not matter what becomes of them. -/
structure Respans (T T' : Table) : Prop where
  scopes : T'.scopes.map Scope.bare = T.scopes.map Scope.bare
  vars : T'.vars = T.vars.map (Variable.respan φ)
  funcs : T'.funcs = T.funcs.map (Signature.respan φ)

def respan (T : Table) : Table :=
  { scopes := T.scopes.map Scope.bare, vars := T.vars.map (Variable.respan φ), funcs := T.funcs.map (Signature.respan φ) }

theorem respans_respan (T : Table) : T.Respans φ (T.respan φ) :=
  ⟨by rw [respan, Array.map_map]; rfl, rfl, rfl⟩

namespace Respans

variable {φ} {T T' : Table} (h : T.Respans φ T')
include h

theorem size : T'.scopes.size = T.scopes.size := by simpa using congrArg Array.size h.scopes

theorem scope? (id : ScopeId) : (T'.scope? id).map Scope.bare = (T.scope? id).map Scope.bare := by
  simp only [Table.scope?]
  cases index? id with
  | none => rfl
  | some i => simpa using congrArg (·[i]?) h.scopes

theorem var? (id : VarId) : T'.var? id = (T.var? id).map (Variable.respan φ) := by
  simp only [Table.var?, h.vars]
  cases index? id with
  | none => rfl
  | some i => exact Array.getElem?_map

theorem func? (id : FuncId) : T'.func? id = (T.func? id).map (Signature.respan φ) := by
  simp only [Table.func?, h.funcs]
  cases index? id with
  | none => rfl
  | some i => exact Array.getElem?_map

/-! ### Looking outwards -/

theorem outwards (last : Scope → Bool) (hlast : ∀ s, last s.bare = last s) (fuel : Nat) (id : ScopeId) :
    (T'.outwards last fuel id).map (fun r => (r.1, r.2.bare)) =
      (T.outwards last fuel id).map fun r => (r.1, r.2.bare) := by
  induction fuel generalizing id with
  | zero => rfl
  | succ fuel ih =>
    have hs := h.scope? id
    rw [Table.outwards, Table.outwards]
    cases ht : T.scope? id with
    | none =>
      rw [ht, Option.map_none, Option.map_eq_none_iff] at hs
      rw [hs]
    | some s =>
      rw [ht, Option.map_some, Option.map_eq_some_iff] at hs
      obtain ⟨s', hs', hbare⟩ := hs
      have hsame : last s' = last s := by rw [← hlast, hbare, hlast]
      have hparent : s'.parent = s.parent := (congrArg Scope.parent hbare :)
      simp only [hs', List.map_cons, hbare, hsame, hparent]
      split_ifs
      · rfl
      · rw [ih]

theorem lookup (sc : ScopeId) (name : Text) : T'.lookup sc name = T.lookup sc name := by
  have hvisible := h.outwards (·.kind == .function) (fun _ => rfl) T.scopes.size sc
  have hsome := congrArg (List.findSome? fun r : ScopeId × Scope => r.2.names.lookup name) hvisible
  rw [List.findSome?_map, List.findSome?_map] at hsome
  rw [Table.lookup, visible, h.size]
  exact hsome

theorem enclosingFunc (sc : ScopeId) : T'.enclosingFunc sc = T.enclosingFunc sc := by
  have hvisible := h.outwards (·.kind == .function) (fun _ => rfl) T.scopes.size sc
  have hfind := congrArg (fun l : List (ScopeId × Scope) => (l.find? fun r => r.2.kind == .function).map (·.2.func))
    hvisible
  simp only [List.find?_map, Option.map_map] at hfind
  have hfunc (U : Table) (l : List (ScopeId × Scope)) (hl : U.visible sc = l) :
      U.enclosingFunc sc = ((l.find? fun r => r.2.kind == .function).map (·.2.func)).getD 0 := by
    rw [Table.enclosingFunc, hl]
    cases l.find? fun r => r.2.kind == .function <;> rfl
  rw [hfunc T' _ (by rw [visible, h.size]), hfunc T _ rfl]
  exact congrArg (·.getD 0) hfind

theorem frameChain (sc : ScopeId) : T'.frameChain sc = T.frameChain sc := by
  have hchain := congrArg (List.map Prod.fst) <| h.outwards
    (fun s => s.kind == .function || s.kind == .global) (fun _ => rfl) T.scopes.size sc
  rw [List.map_map, List.map_map] at hchain
  rw [Table.frameChain, h.size]
  exact hchain

theorem lookupFunc (name : Text) : T'.lookupFunc name = T.lookupFunc name := by
  rw [Table.lookupFunc, h.funcs, Array.toList_map, List.findIdx?_map]
  rfl

/-! ### Declaring -/

theorem modifyScope (id : ScopeId) {f : Scope → Scope} (hf : ∀ s s', s'.bare = s.bare → (f s').bare = (f s).bare) :
    (T.modifyScope id f).Respans φ (T'.modifyScope id f) := by
  simp only [Table.modifyScope]
  cases index? id with
  | none => exact h
  | some i =>
    refine ⟨Array.ext_getElem? fun j => ?_, h.vars, h.funcs⟩
    have hj : T'.scopes[j]?.map Scope.bare = T.scopes[j]?.map Scope.bare := by
      simpa using congrArg (·[j]?) h.scopes
    simp only [Array.getElem?_map, Array.getElem?_modify]
    split_ifs
    · cases hs : T.scopes[j]? <;> cases hs' : T'.scopes[j]? <;> simp_all only [Option.map_some, Option.map_none,
        Option.some.injEq, reduceCtorEq]
      exact hf _ _ hj
    · exact hj

theorem modifyFunc (id : FuncId) {f : Signature → Signature} (hf : ∀ g, f (g.respan φ) = (f g).respan φ) :
    (T.modifyFunc id f).Respans φ (T'.modifyFunc id f) := by
  simp only [Table.modifyFunc]
  cases index? id with
  | none => exact h
  | some i =>
    refine ⟨h.scopes, h.vars, Array.ext_getElem? fun j => ?_⟩
    simp only [h.funcs, Array.getElem?_modify, Array.getElem?_map]
    split_ifs <;> cases T.funcs[j]? <;> simp [hf]

theorem newScope (kind : ScopeKind) (parent : ScopeId) (s s' : Span) (func : FuncId) :
    (T'.newScope kind parent s' func).1 = (T.newScope kind parent s func).1 ∧
      (T.newScope kind parent s func).2.Respans φ (T'.newScope kind parent s' func).2 := by
  have hpush : Respans φ { T with scopes := T.scopes.push { kind, parent, span := s, func } }
      { T' with scopes := T'.scopes.push { kind, parent, span := s', func } } := by
    refine ⟨?_, h.vars, h.funcs⟩
    rw [Array.map_push, Array.map_push, h.scopes]
    rfl
  simp only [Table.newScope, h.size]
  refine ⟨trivial, hpush.modifyScope parent fun s s' hs => ?_⟩
  simp only [Scope.bare, Scope.mk.injEq] at hs ⊢
  simp [hs]

theorem newBlock (parent : ScopeId) (s s' : Span) : (T'.newBlock parent s').1 = (T.newBlock parent s).1 ∧
    (T.newBlock parent s).2.Respans φ (T'.newBlock parent s').2 := h.newScope ..

theorem declareIn (id : ScopeId) {s s' : Scope} (hs : s'.bare = s.bare) (name : Text) (type : Ty) (span : Span)
    (param : Bool) :
    (T'.declareIn id s' name type (φ span) param).1 = (T.declareIn id s name type span param).1 ∧
      (T.declareIn id s name type span param).2.Respans φ (T'.declareIn id s' name type (φ span) param).2 := by
  have hnames : s'.names = s.names := (congrArg Scope.names hs :)
  have hfoot : s'.footprint = s.footprint := (congrArg Scope.footprint hs :)
  unfold Table.declareIn
  rw [hnames]
  cases s.names.lookup name with
  | some old => exact ⟨rfl, h⟩
  | none =>
    have hpush (offset : UInt32) : Respans φ { T with vars := T.vars.push { name, type, scope := id, offset, span, param } }
        { T' with vars := T'.vars.push { name, type, scope := id, offset, span := φ span, param } } :=
      ⟨h.scopes, by rw [h.vars, Array.map_push]; rfl, h.funcs⟩
    have hsize : T'.vars.size = T.vars.size := by rw [h.vars, Array.size_map]
    simp only [hfoot, hsize]
    refine ⟨trivial, (hpush _).modifyScope id fun s s' hs => ?_⟩
    simp only [Scope.bare, Scope.mk.injEq] at hs ⊢
    simp [hs]

theorem declare (sc : ScopeId) (name : Text) (type : Ty) (span : Span) :
    ∃ U', T'.declare sc name type (φ span) = (T.declare sc name type span).map (fun r => (r.1, U')) ∧
      ∀ d U, T.declare sc name type span = .ok (d, U) → U.Respans φ U' := by
  have hs := h.scope? sc
  simp only [Table.declare]
  cases ht : T.scope? sc with
  | none =>
    rw [ht, Option.map_none, Option.map_eq_none_iff] at hs
    exact ⟨T', by rw [hs]; rfl, by rintro _ _ ⟨⟩⟩
  | some s =>
    rw [ht, Option.map_some, Option.map_eq_some_iff] at hs
    obtain ⟨s', hs', hbare⟩ := hs
    obtain ⟨heq, hin⟩ := h.declareIn sc hbare name type span false
    refine ⟨(T'.declareIn sc s' name type (φ span) false).2, by rw [hs', Except.map, ← heq], fun d U hd => ?_⟩
    rwa [Except.ok.inj hd] at hin

theorem declareFunc (name : Text) (result : Ty) (span : Span) :
    (T'.declareFunc name result (φ span)).1 = (T.declareFunc name result span).1 ∧
      (T.declareFunc name result span).2.Respans φ (T'.declareFunc name result (φ span)).2 := by
  have hsize : T'.funcs.size = T.funcs.size := by rw [h.funcs, Array.size_map]
  unfold Table.declareFunc
  rw [h.lookupFunc]
  cases T.lookupFunc name with
  | some old => exact ⟨rfl, h⟩
  | none =>
    obtain ⟨hid, hnew⟩ := h.newScope .function global span (φ span) (T.funcs.size + 1).toUInt32
    simp only [hsize, hid]
    exact ⟨trivial, hnew.scopes, hnew.vars, by rw [hnew.funcs, Array.map_push]; rfl⟩

theorem bindParam (f : FuncId) (name : Text) (type : Ty) (span : Span) :
    ∃ U', T'.bindParam f name type (φ span) = (T.bindParam f name type span).map (fun r => (r.1, U')) ∧
      ∀ d U, T.bindParam f name type span = .ok (d, U) → U.Respans φ U' := by
  simp only [Table.bindParam, h.func?]
  cases T.func? f with
  | none => exact ⟨T', rfl, by rintro _ _ ⟨⟩⟩
  | some g =>
    have hs := h.scope? g.scope
    simp only [Option.map_some, Signature.respan]
    cases ht : T.scope? g.scope with
    | none =>
      rw [ht, Option.map_none, Option.map_eq_none_iff] at hs
      exact ⟨T', by rw [hs]; rfl, by rintro _ _ ⟨⟩⟩
    | some s =>
      rw [ht, Option.map_some, Option.map_eq_some_iff] at hs
      obtain ⟨s', hs', hbare⟩ := hs
      obtain ⟨heq, hin⟩ := h.declareIn g.scope hbare name type span true
      simp only [hs', heq]
      split_ifs
      · exact ⟨_, rfl, by rintro _ _ ⟨⟩; exact hin.modifyFunc f fun _ => rfl⟩
      · exact ⟨_, rfl, by rintro _ _ ⟨⟩; exact hin⟩

end Respans

theorem empty_respans : Table.empty.Respans φ .empty := ⟨rfl, by simp [empty], by simp [empty]⟩

end Table

def Program.respan (T : Table) (p : Program) : Program :=
  { funcs := p.funcs.map (Func.respan φ), body := p.body.respan φ, table := T, span := φ p.span }

end Wacc
