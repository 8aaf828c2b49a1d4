/-
  Well-scoped programs.

  Scopes are opened and variables declared in the order in which a program is read, and numbered in
  that order.  A `Moment` says how many there are at a point of the program; what a name means there
  depends on the variables declared so far.
-/
import Wacc.Proofs.Table.Chain
import Wacc.Proofs.Typing.Typed

namespace Wacc

/-! ## Moments -/

structure Moment where
  scopes : Nat
  vars : Nat

def Table.now (T : Table) : Moment := ⟨T.scopes.size, T.vars.size⟩

mutual

def Stat.opened : Stat → List ScopeId
  | .block b => b.opened
  | .ifThen _ _ a => a.opened
  | .ifElse _ _ a b => a.opened ++ b.opened
  | .while _ _ b => b.opened
  | .for _ h i _ s b => h :: (i.opened ++ (s.opened ++ b.opened))
  | .seq _ ss => Stat.openedAll ss
  | _ => []

def Stat.openedAll : List Stat → List ScopeId
  | [] => []
  | s :: ss => s.opened ++ Stat.openedAll ss

def Block.opened : Block → List ScopeId
  | .mk _ i s => i :: s.opened

end

mutual

def Stat.declared : Stat → List VarId
  | .declare _ x _ _ _ => [x]
  | .block b => b.declared
  | .ifThen _ _ a => a.declared
  | .ifElse _ _ a b => a.declared ++ b.declared
  | .while _ _ b => b.declared
  | .for _ _ i _ s b => i.declared ++ (s.declared ++ b.declared)
  | .seq _ ss => Stat.declaredAll ss
  | _ => []

def Stat.declaredAll : List Stat → List VarId
  | [] => []
  | s :: ss => s.declared ++ Stat.declaredAll ss

def Block.declared : Block → List VarId
  | .mk _ _ s => s.declared

end

namespace Moment

def plus (m : Moment) (scopes : List ScopeId) (vars : List VarId) : Moment :=
  ⟨m.scopes + scopes.length, m.vars + vars.length⟩

def after (m : Moment) (s : Stat) : Moment := m.plus s.opened s.declared

def afterBlock (m : Moment) (b : Block) : Moment := m.plus b.opened b.declared

def afterAll (m : Moment) (ss : List Stat) : Moment := m.plus (Stat.openedAll ss) (Stat.declaredAll ss)

def next (m : Moment) : Moment := ⟨m.scopes + 1, m.vars⟩

end Moment

/-! ## Names -/

mutual

def Expr.idents : Expr → List Ident
  | .var id => [id]
  | .elem _ _ id is => id :: Expr.identsAll is
  | .unary _ _ _ e => e.idents
  | .binary _ _ _ l r => l.idents ++ r.idents
  | _ => []

def Expr.identsAll : List Expr → List Ident
  | [] => []
  | e :: es => e.idents ++ Expr.identsAll es

end

def Target.idents : Target → List Ident
  | .var id => [id]
  | .elem _ _ id is => id :: Expr.identsAll is
  | .slot _ _ _ p => p.idents

mutual

def Value.idents : Value → List Ident
  | .expr e => e.idents
  | .array _ _ vs => Value.identsAll vs
  | .newPair _ a b => a.idents ++ b.idents
  | .slot _ _ _ p => p.idents
  | .call _ _ _ _ es => Expr.identsAll es

def Value.identsAll : List Value → List Ident
  | [] => []
  | v :: vs => v.idents ++ Value.identsAll vs

end

/-- A name that is used in the scope `sc` when `n` variables are declared: it stands for a variable
    with its name and type, whose scope is on the chain of `sc`; nearer scopes get a variable with this
    name only later. -/
def Ident.Named (T : Table) (sc : ScopeId) (n : Nat) (id : Ident) : Prop :=
  ∃ v near far, T.var? id.var = some v ∧ v.name = id.name ∧ v.type = id.type ∧ id.var.toNat ≤ n ∧
    T.frameChain sc = near ++ v.scope :: far ∧
    ∀ o ∈ near, ∀ y w, T.var? y = some w → w.scope = o → w.name = id.name → n < y.toNat

def Named (T : Table) (sc : ScopeId) (m : Moment) (ids : List Ident) : Prop :=
  ∀ id ∈ ids, id.Named T sc m.vars

/-! ## Statements -/

structure Opens (T : Table) (sc : ScopeId) (m : Moment) (i : ScopeId) : Prop where
  number : i.toNat = m.scopes + 1
  child : T.IsBlock sc i

def NewVar (T : Table) (sc : ScopeId) (m : Moment) (x : VarId) (name : Text) (type : Ty) : Prop :=
  x.toNat = m.vars + 1 ∧ ∃ v, T.var? x = some v ∧ v.scope = sc ∧ v.name = name ∧ v.type = type

mutual

def Stat.Scoped (T : Table) (sc : ScopeId) (m : Moment) : Stat → Prop
  | .skip site => site.scope = sc
  | .declare site x name type v =>
    site.scope = sc ∧ Named T sc m v.idents ∧ NewVar T sc m x name type
  | .assign site l v => site.scope = sc ∧ Named T sc m l.idents ∧ Named T sc m v.idents
  | .read site l => site.scope = sc ∧ Named T sc m l.idents
  | .free site e | .ret site e | .exit site e | .print site e _ =>
    site.scope = sc ∧ Named T sc m e.idents
  | .block b => b.Scoped T sc m
  | .ifThen site c a => site.scope = sc ∧ Named T sc m c.idents ∧ a.Scoped T sc m
  | .ifElse site c a b =>
    site.scope = sc ∧ Named T sc m c.idents ∧ a.Scoped T sc m ∧ b.Scoped T sc (m.afterBlock a)
  | .while site c b => site.scope = sc ∧ Named T sc m c.idents ∧ b.Scoped T sc m
  | .for site h i c s b =>
    site.scope = sc ∧ Opens T sc m h ∧ i.Scoped T h m.next ∧ Named T h (m.next.after i) c.idents ∧
      s.Scoped T h (m.next.after i) ∧ b.Scoped T h ((m.next.after i).after s)
  | .seq site ss => site.scope = sc ∧ Stat.ScopedAll T sc m ss

def Stat.ScopedAll (T : Table) (sc : ScopeId) (m : Moment) : List Stat → Prop
  | [] => True
  | s :: ss => s.Scoped T sc m ∧ Stat.ScopedAll T sc (m.after s) ss

def Block.Scoped (T : Table) (sc : ScopeId) (m : Moment) : Block → Prop
  | .mk site i s => site.scope = sc ∧ Opens T sc m i ∧ s.Scoped T i m.next

end

/-! ## Programs -/

def Func.openedAll (fs : List Func) : List ScopeId := fs.flatMap fun f => f.body.opened

def Func.declaredAll (fs : List Func) : List VarId := fs.flatMap fun f => f.body.declared

def Func.ScopedAll (T : Table) (m : Moment) : List Func → Prop
  | [] => True
  | f :: fs => f.body.Scoped T f.scope m ∧ Func.ScopedAll T (m.afterBlock f.body) fs

/-- The moment at which all functions are declared: there are their scopes and the global scope, and
    their parameters. -/
def Program.start (p : Program) : Moment :=
  ⟨p.funcs.length + 1, (p.funcs.map (·.params.length)).sum⟩

def Program.blocks (p : Program) : List ScopeId := Func.openedAll p.funcs ++ p.body.opened

structure Program.Scoped (p : Program) : Prop where
  frames : ∀ i s, p.table.scope? i = some s → i.toNat ≤ p.start.scopes → s.kind ≠ .block
  funcs : Func.ScopedAll p.table p.start p.funcs
  body : p.body.Scoped p.table Table.global
    (p.start.plus (Func.openedAll p.funcs) (Func.declaredAll p.funcs))
  table : p.table.now =
    (p.start.plus (Func.openedAll p.funcs) (Func.declaredAll p.funcs)).after p.body

/-! ## Growing tables -/

section
variable {T T' : Table} {m : Moment} {sc : ScopeId} {fs : List Func} {n : Nat} {is : List ScopeId}

structure Later (T T' : Table) : Prop where
  wf : T.Wf
  wf' : T'.Wf
  grows : T.Grows T'

theorem Ident.Named.mono (h : Later T T') {id : Ident} (hid : id.Named T sc n) (hn : n ≤ T.vars.size) :
    id.Named T' sc n := by
  obtain ⟨v, near, far, hv, hname, htype, hle, hchain, hnear⟩ := hid
  obtain ⟨s, hs⟩ : ∃ s, T.scope? sc = some s := by
    cases hs : T.scope? sc with
    | none => rw [Table.frameChain_none hs] at hchain; simp at hchain
    | some s => exact ⟨s, rfl⟩
  refine ⟨v, near, far, h.grows.vars _ v hv, hname, htype, hle, ?_, ?_⟩
  · rw [Table.frameChain_grows h.wf.nested h.wf'.nested h.grows.shape hs, hchain]
  · intro o ho y w hy hws hwn
    by_contra hlt
    obtain ⟨w', hw'⟩ := Table.numbered_of_lt (a := T.vars) (Table.numbered_lt hy).1 (by omega)
    cases (h.grows.vars y w' hw').symm.trans hy
    exact hlt (hnear o ho y w hw' hws hwn)

theorem Named.mono (h : Later T T') {ids : List Ident} (hids : Named T sc m ids) (hm : m.vars ≤ T.vars.size) :
    Named T' sc m ids := fun id hid => (hids id hid).mono h hm

theorem Opens.mono (h : Later T T') {i : ScopeId} (hi : Opens T sc m i) : Opens T' sc m i :=
  ⟨hi.number, hi.child.mono h.grows⟩

theorem NewVar.mono (h : Later T T') {x : VarId} {name : Text} {type : Ty} (hx : NewVar T sc m x name type) :
    NewVar T' sc m x name type := by
  obtain ⟨hnum, v, hv, hrest⟩ := hx
  exact ⟨hnum, v, h.grows.vars x v hv, hrest⟩

mutual

theorem Stat.Scoped.mono {sc : ScopeId} {m : Moment} (h : Later T T') (s : Stat) (hs : s.Scoped T sc m)
    (hm : (m.after s).vars ≤ T.vars.size) : s.Scoped T' sc m := by
  have hle : m.vars ≤ T.vars.size := (Nat.le_add_right _ _).trans hm
  cases s with
  | skip site => exact hs
  | declare site x name type v => exact ⟨hs.1, hs.2.1.mono h hle, hs.2.2.mono h⟩
  | assign site l v => exact ⟨hs.1, hs.2.1.mono h hle, hs.2.2.mono h hle⟩
  | read site l => exact ⟨hs.1, hs.2.mono h hle⟩
  | free site e => exact ⟨hs.1, hs.2.mono h hle⟩
  | ret site e => exact ⟨hs.1, hs.2.mono h hle⟩
  | exit site e => exact ⟨hs.1, hs.2.mono h hle⟩
  | print site e newline => exact ⟨hs.1, hs.2.mono h hle⟩
  | block b => exact Block.Scoped.mono h b hs hm
  | ifThen site c a => exact ⟨hs.1, hs.2.1.mono h hle, Block.Scoped.mono h a hs.2.2 hm⟩
  | ifElse site c a b =>
    simp only [Moment.after, Moment.plus, Stat.declared, List.length_append] at hm
    refine ⟨hs.1, hs.2.1.mono h hle, Block.Scoped.mono h a hs.2.2.1 ?_, Block.Scoped.mono h b hs.2.2.2 ?_⟩
    · simp only [Moment.afterBlock, Moment.plus]; omega
    · simp only [Moment.afterBlock, Moment.plus]; omega
  | «while» site c b => exact ⟨hs.1, hs.2.1.mono h hle, Block.Scoped.mono h b hs.2.2 hm⟩
  | «for» site sc' i c st b =>
    simp only [Moment.after, Moment.plus, Stat.declared, List.length_append] at hm
    obtain ⟨hsite, ho, hi, hc, hst, hb⟩ := hs
    refine ⟨hsite, ho.mono h, Stat.Scoped.mono h i hi ?_, hc.mono h ?_, Stat.Scoped.mono h st hst ?_,
      Block.Scoped.mono h b hb ?_⟩
    all_goals simp only [Moment.after, Moment.afterBlock, Moment.next, Moment.plus]; omega
  | seq site ss => exact ⟨hs.1, Stat.ScopedAll.mono h ss hs.2 hm⟩

theorem Stat.ScopedAll.mono {sc : ScopeId} {m : Moment} (h : Later T T') (ss : List Stat)
    (hs : Stat.ScopedAll T sc m ss) (hm : (m.afterAll ss).vars ≤ T.vars.size) : Stat.ScopedAll T' sc m ss := by
  cases ss with
  | nil => trivial
  | cons s ss =>
    simp only [Moment.afterAll, Moment.plus, Stat.declaredAll, List.length_append] at hm
    refine ⟨Stat.Scoped.mono h s hs.1 ?_, Stat.ScopedAll.mono h ss hs.2 ?_⟩
    all_goals simp only [Moment.after, Moment.afterAll, Moment.plus]; omega

theorem Block.Scoped.mono {sc : ScopeId} {m : Moment} (h : Later T T') (b : Block) (hb : b.Scoped T sc m)
    (hm : (m.afterBlock b).vars ≤ T.vars.size) : b.Scoped T' sc m := by
  cases b with
  | mk site i s => exact ⟨hb.1, hb.2.1.mono h, Stat.Scoped.mono h s hb.2.2 hm⟩

end

/-! ## Numbers of scopes -/

def Consecutive (n : Nat) : List ScopeId → Prop
  | [] => True
  | i :: is => i.toNat = n + 1 ∧ Consecutive (n + 1) is

theorem Consecutive.append {is js : List ScopeId} (hi : Consecutive n is) (hj : Consecutive (n + is.length) js) :
    Consecutive n (is ++ js) := by
  induction is generalizing n with
  | nil => exact hj
  | cons i is ih =>
    refine ⟨hi.1, ih hi.2 ?_⟩
    rwa [show n + 1 + is.length = n + (is.length + 1) by omega]

theorem Consecutive.mem_iff (h : Consecutive n is) (i : ScopeId) :
    i ∈ is ↔ n < i.toNat ∧ i.toNat ≤ n + is.length := by
  induction is generalizing n with
  | nil => simp only [List.not_mem_nil, List.length_nil, false_iff]; omega
  | cons j is ih =>
    obtain ⟨hj, his⟩ := h
    rw [List.mem_cons, ih his, List.length_cons, ← UInt32.toNat_inj, hj]
    omega

theorem Consecutive.nodup (h : Consecutive n is) : is.Nodup := by
  induction is generalizing n with
  | nil => exact List.nodup_nil
  | cons i is ih =>
    obtain ⟨hi, his⟩ := h
    refine List.nodup_cons.2 ⟨fun hmem => ?_, ih his⟩
    have := (his.mem_iff i).1 hmem
    omega

mutual

theorem Stat.Scoped.consecutive {sc : ScopeId} {m : Moment} (s : Stat) (hs : s.Scoped T sc m) :
    Consecutive m.scopes s.opened := by
  cases s with
  | block b => exact Block.Scoped.consecutive b hs
  | ifThen site c a => exact Block.Scoped.consecutive a hs.2.2
  | ifElse site c a b =>
    exact (Block.Scoped.consecutive a hs.2.2.1).append (Block.Scoped.consecutive b hs.2.2.2)
  | «while» site c b => exact Block.Scoped.consecutive b hs.2.2
  | «for» site h i c st b =>
    obtain ⟨-, ho, hi, -, hst, hb⟩ := hs
    exact ⟨ho.number, (Stat.Scoped.consecutive i hi).append
      ((Stat.Scoped.consecutive st hst).append (Block.Scoped.consecutive b hb))⟩
  | seq site ss => exact Stat.ScopedAll.consecutive ss hs.2
  | _ => trivial

theorem Stat.ScopedAll.consecutive {sc : ScopeId} {m : Moment} (ss : List Stat)
    (hs : Stat.ScopedAll T sc m ss) :
    Consecutive m.scopes (Stat.openedAll ss) := by
  cases ss with
  | nil => trivial
  | cons s ss => exact (Stat.Scoped.consecutive s hs.1).append (Stat.ScopedAll.consecutive ss hs.2)

theorem Block.Scoped.consecutive {sc : ScopeId} {m : Moment} (b : Block) (hb : b.Scoped T sc m) :
    Consecutive m.scopes b.opened := by
  cases b with
  | mk site i s => exact ⟨hb.2.1.number, Stat.Scoped.consecutive s hb.2.2⟩

end

mutual

theorem Stat.Scoped.isBlock {sc : ScopeId} {m : Moment} (s : Stat) (hs : s.Scoped T sc m) :
    ∀ i ∈ s.opened, ∃ o, T.IsBlock o i := by
  cases s with
  | block b => exact Block.Scoped.isBlock b hs
  | ifThen site c a => exact Block.Scoped.isBlock a hs.2.2
  | ifElse site c a b =>
    exact List.forall_mem_append.2 ⟨Block.Scoped.isBlock a hs.2.2.1, Block.Scoped.isBlock b hs.2.2.2⟩
  | «while» site c b => exact Block.Scoped.isBlock b hs.2.2
  | «for» site h i c st b =>
    obtain ⟨-, ho, hi, -, hst, hb⟩ := hs
    exact List.forall_mem_cons.2 ⟨⟨sc, ho.child⟩, List.forall_mem_append.2 ⟨Stat.Scoped.isBlock i hi,
      List.forall_mem_append.2 ⟨Stat.Scoped.isBlock st hst, Block.Scoped.isBlock b hb⟩⟩⟩
  | seq site ss => exact Stat.ScopedAll.isBlock ss hs.2
  | _ => exact fun _ hi => absurd hi List.not_mem_nil

theorem Stat.ScopedAll.isBlock {sc : ScopeId} {m : Moment} (ss : List Stat) (hs : Stat.ScopedAll T sc m ss) :
    ∀ i ∈ Stat.openedAll ss, ∃ o, T.IsBlock o i := by
  cases ss with
  | nil => exact fun _ hi => absurd hi List.not_mem_nil
  | cons s ss =>
    exact List.forall_mem_append.2 ⟨Stat.Scoped.isBlock s hs.1, Stat.ScopedAll.isBlock ss hs.2⟩

theorem Block.Scoped.isBlock {sc : ScopeId} {m : Moment} (b : Block) (hb : b.Scoped T sc m) :
    ∀ i ∈ b.opened, ∃ o, T.IsBlock o i := by
  cases b with
  | mk site i s => exact List.forall_mem_cons.2 ⟨⟨sc, hb.2.1.child⟩, Stat.Scoped.isBlock s hb.2.2⟩

end

theorem Func.ScopedAll.mono (h : Later T T') (hs : Func.ScopedAll T m fs) (hm : (m.plus (Func.openedAll fs)
      (Func.declaredAll fs)).vars ≤ T.vars.size) : Func.ScopedAll T' m fs := by
  induction fs generalizing m with
  | nil => trivial
  | cons f fs ih =>
    simp only [Moment.plus, Func.declaredAll, List.flatMap_cons, List.length_append] at hm
    refine ⟨Block.Scoped.mono h f.body hs.1 ?_, ih hs.2 ?_⟩
    all_goals simp only [Moment.afterBlock, Moment.plus, Func.declaredAll]; omega

theorem Func.ScopedAll.consecutive (hs : Func.ScopedAll T m fs) : Consecutive m.scopes (Func.openedAll fs) := by
  induction fs generalizing m with
  | nil => trivial
  | cons f fs ih => exact (Block.Scoped.consecutive f.body hs.1).append (ih hs.2)

theorem Func.ScopedAll.isBlock (hs : Func.ScopedAll T m fs) : ∀ i ∈ Func.openedAll fs, ∃ o, T.IsBlock o i := by
  induction fs generalizing m with
  | nil => exact fun _ hi => absurd hi List.not_mem_nil
  | cons f fs ih => exact List.forall_mem_append.2 ⟨Block.Scoped.isBlock f.body hs.1, ih hs.2⟩

end

variable {p : Program}

theorem Program.Scoped.consecutive (hp : p.Scoped) : Consecutive p.start.scopes p.blocks :=
  hp.funcs.consecutive.append (Stat.Scoped.consecutive p.body hp.body)

theorem Program.Scoped.blocks_iff (hp : p.Scoped) (i : ScopeId) :
    i ∈ p.blocks ↔ ∃ s, p.table.scope? i = some s ∧ s.kind = .block := by
  constructor
  · intro hi
    obtain ⟨o, s, hs, hk, -⟩ : ∃ o, p.table.IsBlock o i := by
      rcases List.mem_append.1 hi with hi | hi
      · exact hp.funcs.isBlock i hi
      · exact Stat.Scoped.isBlock p.body hp.body i hi
    exact ⟨s, hs, hk⟩
  · rintro ⟨s, hs, hk⟩
    have hsize : p.table.scopes.size = p.start.scopes + p.blocks.length := by
      have := congrArg Moment.scopes hp.table
      simp only [Table.now, Moment.after, Moment.plus] at this
      rw [this, Program.blocks, List.length_append, Nat.add_assoc]
    have hle := (Table.numbered_lt hs).2
    rw [hp.consecutive.mem_iff]
    by_contra hlt
    exact hp.frames i s hs (by omega) hk

end Wacc
