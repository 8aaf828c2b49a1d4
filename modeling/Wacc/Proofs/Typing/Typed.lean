/-
  Well-typed programs.

  The predicates of this file say what a program with resolved names means against its symbol table:
  every name stands for a variable of a scope around, every operator has operands of its families,
  every block has a scope of its own.  `sc` is always the scope in which the construct stands.
-/
import Wacc.Proofs.Table.Enclosing
import Wacc.Typing.Program

namespace Wacc

variable {T T' : Table} {sc : ScopeId} {x : VarId} {is : List Expr}

/-! ## Expressions -/

def Ident.Typed (T : Table) (sc : ScopeId) (id : Ident) : Prop :=
  ∃ v, T.var? id.var = some v ∧ v.type = id.type ∧ T.Encloses sc v.scope

/-- Between one and as many indices as the array has dimensions lead to an element of type `t`. -/
structure IndexedBy (array : Ty) (n : Nat) (t : Ty) : Prop where
  pos : 0 < n
  nested : ∃ e d, array = .array e d ∧ n ≤ d.toNat ∧ array.nested n.toUInt32 = .ok t

def BinRule.Fits (r : BinRule) (a b : Ty) : Prop :=
  r.operands.accepts a = true ∧ r.operands.accepts b = true ∧
    (r.sameType = true → a.accepts b = true ∨ b.accepts a = true)

inductive Expr.Typed (T : Table) (sc : ScopeId) : Expr → Prop
  | int {span n} : Typing.fits n = true → Typed T sc (.int span n)
  | bool {span b} : Typed T sc (.bool span b)
  | char {span c} : Typed T sc (.char span c)
  | str {span s} : Typed T sc (.str span s)
  | null {span} : Typed T sc (.null span)
  | var {id} : id.Typed T sc → Typed T sc (.var id)
  | elem {span t id is} :
    id.Typed T sc → IndexedBy id.type is.length t → (∀ i ∈ is, Typed T sc i) →
      (∀ i ∈ is, i.type = .int) → Typed T sc (.elem span t id is)
  | unary {span op r e} :
    op.rule? = some r → Typed T sc e → r.operand.accepts e.type = true →
      Typed T sc (.unary span r.result op e)
  | binary {span op rule l r} :
    op.rule? = some rule → Typed T sc l → Typed T sc r → rule.Fits l.type r.type →
      Typed T sc (.binary span rule.result op l r)

theorem Ident.Typed.mono (h : T.Grows T') {id : Ident} (hi : id.Typed T sc) : id.Typed T' sc := by
  obtain ⟨v, hv, ht, he⟩ := hi
  exact ⟨v, h.vars _ v hv, ht, he.mono h⟩

theorem Expr.Typed.mono (h : T.Grows T') {e : Expr} (he : e.Typed T sc) : e.Typed T' sc := by
  induction he with
  | int hn => exact .int hn
  | bool => exact .bool
  | char => exact .char
  | str => exact .str
  | null => exact .null
  | var hi => exact .var (hi.mono h)
  | elem hi hx _ ht ih => exact .elem (hi.mono h) hx ih ht
  | unary ho _ hr ih => exact .unary ho ih hr
  | binary ho _ _ hr ihl ihr => exact .binary ho ihl ihr hr

/-! ## Places and values -/

inductive Target.Typed (T : Table) (sc : ScopeId) : Target → Prop
  | var {id} : id.Typed T sc → Typed T sc (.var id)
  | elem {span t id is} :
    id.Typed T sc → IndexedBy id.type is.length t → (∀ i ∈ is, i.Typed T sc) →
      (∀ i ∈ is, i.type = .int) → Typed T sc (.elem span t id is)
  | slot {span a b snd p} :
    Typed T sc p → p.type = .pair a b → Typed T sc (.slot span (if snd then b else a) snd p)

/-- A well-typed element of an array literal: an expression or an array literal. -/
inductive Value.Item (T : Table) (sc : ScopeId) : Value → Prop
  | expr {e} : e.Typed T sc → Item T sc (.expr e)
  | array {span t vs} :
    (∀ v ∈ vs, Item T sc v) → Item T sc (.array span t vs)

def ArgumentOf (T : Table) (p : VarId) (a : Expr) : Prop :=
  ∃ v, T.var? p = some v ∧ v.type.accepts a.type = true

inductive Value.Typed (T : Table) (sc : ScopeId) : Value → Prop
  | item {v} : v.Item T sc → Typed T sc v
  | newPair {span a b} : a.Typed T sc → b.Typed T sc → Typed T sc (.newPair span a b)
  | slot {span a b snd p} :
    p.Typed T sc → p.type = .pair a b → Typed T sc (.slot span (if snd then b else a) snd p)
  | call {span f g args} :
    T.func? f = some g → (∀ a ∈ args, a.Typed T sc) → List.Forall₂ (ArgumentOf T) g.params args →
      Typed T sc (.call span g.result f g.name args)

theorem Target.Typed.mono (h : T.Grows T') {l : Target} (hl : l.Typed T sc) : l.Typed T' sc := by
  induction hl with
  | var hi => exact .var (hi.mono h)
  | elem hi hx his ht => exact .elem (hi.mono h) hx (fun i hm => (his i hm).mono h) ht
  | slot _ hp ih => exact .slot ih hp

theorem Value.Item.mono (h : T.Grows T') {v : Value} (hv : v.Item T sc) : v.Item T' sc := by
  induction hv with
  | expr he => exact .expr (he.mono h)
  | array _ ih => exact .array ih

theorem Value.Typed.mono (h : T.Grows T') (hf : T'.funcs = T.funcs) {v : Value} (hv : v.Typed T sc) :
    v.Typed T' sc := by
  cases hv with
  | item hi => exact .item (hi.mono h)
  | newPair ha hb => exact .newPair (ha.mono h) (hb.mono h)
  | slot hp ht => exact .slot (hp.mono h) ht
  | call hg has harg =>
    refine .call (by rw [Table.func?_eq, hf]; exact hg) (fun a ha => (has a ha).mono h) (harg.imp ?_)
    rintro p a ⟨v, hv, ha⟩
    exact ⟨v, h.vars p v hv, ha⟩

/-! ## Statements -/

def Table.InFunction (T : Table) (sc : ScopeId) : Prop :=
  ∃ o s, T.Encloses sc o ∧ T.scope? o = some s ∧ s.kind = .function

inductive Stat.Typed (T : Table) : ScopeId → Stat → Prop
  | skip {sc site} : Typed T sc (.skip site)
  | declare {sc site x v name value} :
    T.var? x = some v → v.scope = sc → T.Encloses sc sc → value.Typed T sc →
      v.type.accepts value.type = true → Typed T sc (.declare site x name v.type value)
  | assign {sc site l v} :
    l.Typed T sc → v.Typed T sc → l.type.accepts v.type = true → Typed T sc (.assign site l v)
  | read {sc site l} :
    l.Typed T sc → Typing.isReadable l.type = true → Typed T sc (.read site l)
  | free {sc site e} :
    e.Typed T sc → Typing.isFreeable e.type = true → Typed T sc (.free site e)
  | ret {sc site e} :
    site.scope = sc → e.Typed T sc → T.InFunction sc → Typed T sc (.ret site e)
  | exit {sc site e} :
    e.Typed T sc → e.type = .int → Typed T sc (.exit site e)
  | print {sc site e newline} :
    e.Typed T sc → Typed T sc (.print site e newline)
  | block {sc i site b} :
    T.IsBlock sc i → Typed T i b → Typed T sc (.block (.mk site i b))
  | ifThen {sc i site site' c a} :
    c.Typed T sc → c.type = .bool → T.IsBlock sc i → Typed T i a →
      Typed T sc (.ifThen site c (.mk site' i a))
  | ifElse {sc i j site site' site'' c a b} :
    c.Typed T sc → c.type = .bool → T.IsBlock sc i → Typed T i a → T.IsBlock sc j → Typed T j b →
      Typed T sc (.ifElse site c (.mk site' i a) (.mk site'' j b))
  | while {sc i site site' c b} :
    c.Typed T sc → c.type = .bool → T.IsBlock sc i → Typed T i b →
      Typed T sc (.while site c (.mk site' i b))
  | for {sc h i site site' init step b c} :
    T.IsBlock sc h → Typed T h init → c.Typed T h → c.type = .bool → Typed T h step →
      T.IsBlock h i → Typed T i b → Typed T sc (.for site h init c step (.mk site' i b))
  | seq {sc site ss} :
    (∀ s ∈ ss, Typed T sc s) → Typed T sc (.seq site ss)

theorem Table.InFunction.mono (h : T.Grows T') (hf : T.InFunction sc) : T'.InFunction sc := by
  obtain ⟨o, s, he, hs, hk⟩ := hf
  obtain ⟨s', hs', hk', -⟩ := h.scopes o s hs
  exact ⟨o, s', he.mono h, hs', hk'.trans hk⟩

theorem Stat.Typed.mono (h : T.Grows T') (hf : T'.funcs = T.funcs) {s : Stat} (hs : s.Typed T sc) :
    s.Typed T' sc := by
  induction hs with
  | skip => exact .skip
  | declare hx hsc he hv ha => exact .declare (h.vars _ _ hx) hsc (he.mono h) (hv.mono h hf) ha
  | assign hl hv ha => exact .assign (hl.mono h) (hv.mono h hf) ha
  | read hl hr => exact .read (hl.mono h) hr
  | free he hr => exact .free (he.mono h) hr
  | ret hs he hin => exact .ret hs (he.mono h) (hin.mono h)
  | exit he ht => exact .exit (he.mono h) ht
  | print he => exact .print (he.mono h)
  | block hb _ ih => exact .block (hb.mono h) ih
  | ifThen hc ht hb _ ih => exact .ifThen (hc.mono h) ht (hb.mono h) ih
  | ifElse hc ht hb _ hb' _ ih ih' => exact .ifElse (hc.mono h) ht (hb.mono h) ih (hb'.mono h) ih'
  | «while» hc ht hb _ ih => exact .while (hc.mono h) ht (hb.mono h) ih
  | «for» hh _ hc ht _ hb _ ihi ihs ihb =>
    exact .for (hh.mono h) ihi (hc.mono h) ht ihs (hb.mono h) ihb
  | seq _ ih => exact .seq ih

/-- A well-typed function: what the table says of it, and a body in a block of its scope. -/
structure Func.Typed (T : Table) (f : Func) : Prop where
  signature : ∃ g, T.func? f.id = some g ∧ g.name = f.name ∧ g.result = f.result ∧
    g.params = f.params ∧ g.scope = f.scope
  body : T.IsBlock f.scope f.body.inner ∧ f.body.body.Typed T f.body.inner

structure Program.Typed (p : Program) : Prop where
  wf : p.table.Wf
  laid : p.table.Laid
  ids : p.funcs.map (·.id) = p.table.funcIds
  funcs : ∀ f ∈ p.funcs, f.Typed p.table
  body : p.body.Typed p.table Table.global

/-! ## Variables of expressions -/

mutual

def Expr.vars : Expr → List VarId
  | .var id => [id.var]
  | .elem _ _ id is => id.var :: Expr.varsAll is
  | .unary _ _ _ e => e.vars
  | .binary _ _ _ l r => l.vars ++ r.vars
  | _ => []

def Expr.varsAll : List Expr → List VarId
  | [] => []
  | e :: es => e.vars ++ Expr.varsAll es

end

theorem Expr.vars_subset {i : Expr} (h : i ∈ is) (hx : x ∈ i.vars) : x ∈ Expr.varsAll is := by
  induction is with
  | nil => simp at h
  | cons j js ih =>
    rw [Expr.varsAll]
    rcases List.mem_cons.1 h with rfl | h
    · exact List.mem_append_left _ hx
    · exact List.mem_append_right _ (ih h)

theorem Expr.mem_varsAll (hx : x ∈ Expr.varsAll is) : ∃ i ∈ is, x ∈ i.vars := by
  induction is with
  | nil => simp [Expr.varsAll] at hx
  | cons j js ih =>
    rw [Expr.varsAll] at hx
    rcases List.mem_append.1 hx with hx | hx
    · exact ⟨j, List.mem_cons_self, hx⟩
    · obtain ⟨i, hi, hx⟩ := ih hx
      exact ⟨i, List.mem_cons_of_mem _ hi, hx⟩

theorem Expr.Typed.enclosed {e : Expr} (he : e.Typed T sc) (hx : x ∈ e.vars) :
    ∃ v, T.var? x = some v ∧ T.Encloses sc v.scope := by
  induction he with
  | var hi =>
    obtain ⟨v, hv, -, he⟩ := hi
    obtain rfl := List.mem_singleton.1 (by simpa [Expr.vars] using hx)
    exact ⟨v, hv, he⟩
  | elem hi _ _ _ ih =>
    rw [Expr.vars] at hx
    rcases List.mem_cons.1 hx with rfl | hx
    · obtain ⟨v, hv, -, he⟩ := hi
      exact ⟨v, hv, he⟩
    · obtain ⟨i, hi, hx⟩ := Expr.mem_varsAll hx
      exact ih i hi hx
  | unary _ _ _ ih => exact ih (by simpa [Expr.vars] using hx)
  | binary _ _ _ _ ihl ihr =>
    rw [Expr.vars] at hx
    rcases List.mem_append.1 hx with hx | hx
    · exact ihl hx
    · exact ihr hx
  | _ => simp [Expr.vars] at hx

/-! ## Sizes -/

mutual

def Expr.size : Expr → Nat
  | .elem _ _ _ is => 1 + Expr.sizes is
  | .unary _ _ _ e => 1 + e.size
  | .binary _ _ _ l r => 1 + l.size + r.size
  | _ => 1

def Expr.sizes : List Expr → Nat
  | [] => 0
  | e :: es => e.size + Expr.sizes es

end

def Target.size : Target → Nat
  | .var _ => 1
  | .elem _ _ _ is => 1 + Expr.sizes is
  | .slot _ _ _ p => 1 + p.size

mutual

def Value.size : Value → Nat
  | .expr e => e.size
  | .array _ _ vs => 1 + Value.sizes vs
  | .newPair _ a b => 1 + a.size + b.size
  | .slot _ _ _ p => 1 + p.size
  | .call _ _ _ _ es => 1 + Expr.sizes es

def Value.sizes : List Value → Nat
  | [] => 0
  | v :: vs => v.size + Value.sizes vs

end

mutual

def Stat.size : Stat → Nat
  | .skip _ => 1
  | .declare _ _ _ _ v => 1 + v.size
  | .assign _ l v => 1 + l.size + v.size
  | .read _ l => 1 + l.size
  | .free _ e | .ret _ e | .exit _ e | .print _ e _ => 1 + e.size
  | .block b => 1 + b.size
  | .ifThen _ c a => 1 + c.size + a.size
  | .ifElse _ c a b => 1 + c.size + a.size + b.size
  | .while _ c b => 1 + c.size + b.size
  | .for _ _ i c s b => 1 + i.size + c.size + s.size + b.size
  | .seq _ ss => Stat.sizes ss

def Stat.sizes : List Stat → Nat
  | [] => 0
  | s :: ss => s.size + Stat.sizes ss

def Block.size : Block → Nat
  | .mk _ _ b => b.size

end

end Wacc
