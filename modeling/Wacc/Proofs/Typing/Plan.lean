/-
  The plan of a program is that of its declarations.

  The scopes of a program and the places of its variables can be read off its tree without typing
  anything: the headers of the functions in order, then their bodies, then the main program.  A
  function whose name is taken is skipped, and so is a variable whose name its scope has already.
-/
import Wacc.Proofs.Compile
import Wacc.Proofs.Table.Plan

namespace Wacc

/-! ## The walk -/

def Tree.bytes : Tree → Nat
  | .node .baseType text _ _ => if text = lit "bool" ∨ text = lit "char" then 1 else 4
  | _ => 4

namespace Plan

mutual

def stat (scope : Nat) : Tree → Plan → Plan
  | .missing, P => P
  | .node k _ _ cs, P =>
    match k, cs with
    | .declare, t :: name :: _ => P.declare scope name.text t.bytes
    | .if, [_, a, b] =>
      let P := stat (P.length + 1) a (P.enter .block scope)
      stat (P.length + 1) b (P.enter .block scope)
    | .if, _ :: a :: _ => stat (P.length + 1) a (P.enter .block scope)
    | .while, _ :: b :: _ => stat (P.length + 1) b (P.enter .block scope)
    | .for, i :: _ :: s :: b :: _ =>
      let header := P.length + 1
      let P := stat header s (stat header i (P.enter .block scope))
      stat (P.length + 1) b (P.enter .block header)
    | .block, b :: _ => stat (P.length + 1) b (P.enter .block scope)
    | .seq, cs => stats scope cs P
    | _, _ => P

def stats (scope : Nat) : List Tree → Plan → Plan
  | [], P => P
  | c :: cs, P => stats scope cs (stat scope c P)

end

def block (scope : Nat) (n : Tree) (P : Plan) : Plan := stat (P.length + 1) n (P.enter .block scope)

def params (scope : Nat) : List Tree → Plan → Plan
  | [], P => P
  | p :: ps, P => params scope ps (P.declare scope (p.child 1).text (p.child 0).bytes)

def header (f : Tree) (P : Plan) : Plan :=
  params (P.length + 1) (f.child 2).children (P.enter .function 1)

def headers : List Tree → Plan → Plan
  | [], P => P
  | f :: fs, P => headers fs (header f P)

def bodies : Nat → List Tree → Plan → Plan
  | _, [], P => P
  | scope, f :: fs, P => bodies (scope + 1) fs (block scope (f.child 3) P)

def ofTree (n : Tree) : Plan :=
  let fs := firsts [] n.children.dropLast
  let main := (n.children.getLast?).getD .missing
  stat 1 main (bodies 2 fs (headers fs [{ kind := .global, parent := 0 }]))

end Plan

/-! ## The walk looks at no expression -/

namespace Tree

mutual

def outline : Tree → Tree
  | .missing => .missing
  | .node k text span cs =>
    match k, cs with
    | .declare, t :: name :: _ => .node .declare text span [t, name, .missing]
    | .if, [_, a, b] => .node .if text span [.missing, a.outline, b.outline]
    | .if, _ :: a :: _ => .node .if text span [.missing, a.outline]
    | .while, _ :: b :: _ => .node .while text span [.missing, b.outline]
    | .for, i :: _ :: s :: b :: _ =>
      .node .for text span [i.outline, .missing, s.outline, b.outline]
    | .block, b :: _ => .node .block text span [b.outline]
    | .seq, cs => .node .seq text span (outlines cs)
    | .func, t :: name :: ps :: b :: _ => .node .func text span [t, name, ps, b.outline]
    | .program, cs => .node .program text span (outlines cs)
    | k, _ => .node k text span []

def outlines : List Tree → List Tree
  | [] => []
  | c :: cs => c.outline :: outlines cs

end

theorem outlines_eq (cs : List Tree) : outlines cs = cs.map outline := by
  induction cs with
  | nil => rfl
  | cons c cs ih => rw [outlines, ih, List.map_cons]

end Tree

namespace Plan

theorem stat_outline {n : Tree} (hn : n.IsStat) (scope : Nat) (P : Plan) :
    stat scope n.outline P = stat scope n P := by
  induction hn generalizing scope P with
  | skip | declare | assign | read => rfl
  | @word k text span e hk he => cases k <;> simp only [Tree.isWord, Bool.false_eq_true] at hk <;> rfl
  | ifThen _ _ iha =>
    exact iha _ _
  | ifElse _ _ _ iha ihb => simp only [Tree.outline, stat, iha, ihb]
  | «while» _ _ ih | block _ ih => simp only [Tree.outline, stat, ih]
  | «for» _ _ _ _ ihi ihs ihb => simp only [Tree.outline, stat, ihi, ihs, ihb]
  | @seq text span ss hss ih =>
    simp only [Tree.outline, stat, Tree.outlines_eq]
    clear hss
    induction ss generalizing P with
    | nil => rfl
    | cons s ss ihs =>
      rw [List.map_cons, stats, stats, ih s List.mem_cons_self]
      exact ihs (fun r hr => ih r (List.mem_cons_of_mem s hr)) _

theorem func_outline {f : Tree} (hf : f.IsFunc) : (f.outline.child 1).text = (f.child 1).text ∧
    (∀ P, header f.outline P = header f P) ∧
    ∀ scope P, block scope (f.outline.child 3) P = block scope (f.child 3) P := by
  cases hf with
  | mk ht hname hps hb => exact ⟨rfl, fun P => rfl, fun scope P => stat_outline hb _ _⟩

variable {fs : List Tree}

theorem firsts_outline (hfs : ∀ f ∈ fs, f.IsFunc) (seen : List Text) :
    firsts seen (fs.map Tree.outline) = (firsts seen fs).map Tree.outline := by
  induction fs generalizing seen with
  | nil => rfl
  | cons f fs ih =>
    obtain ⟨hf, htail⟩ := List.forall_mem_cons.1 hfs
    simp only [List.map_cons, firsts, (func_outline hf).1, ih htail]
    split_ifs <;> rfl

theorem mem_firsts {seen : List Text} {f : Tree} (h : f ∈ firsts seen fs) : f ∈ fs := by
  induction fs generalizing seen with
  | nil => exact h
  | cons g fs ih =>
    rw [firsts] at h
    split_ifs at h
    · exact List.mem_cons_of_mem g (ih h)
    · rcases List.mem_cons.1 h with rfl | h
      · exact List.mem_cons_self
      · exact List.mem_cons_of_mem g (ih h)

theorem funcs_outline (hfs : ∀ f ∈ fs, f.IsFunc) :
    (∀ P, headers (fs.map Tree.outline) P = headers fs P) ∧
      ∀ scope P, bodies scope (fs.map Tree.outline) P = bodies scope fs P := by
  induction fs with
  | nil => exact ⟨fun P => rfl, fun scope P => rfl⟩
  | cons f fs ih =>
    obtain ⟨hf, htail⟩ := List.forall_mem_cons.1 hfs
    obtain ⟨-, hheader, hbody⟩ := func_outline hf
    exact ⟨fun P => by rw [List.map_cons, headers, headers, hheader, (ih htail).1],
      fun scope P => by rw [List.map_cons, bodies, bodies, hbody, (ih htail).2]⟩

theorem ofTree_outline {n : Tree} (hn : n.IsProgram) : ofTree n.outline = ofTree n := by
  cases hn with
  | @mk text span fs main hfs hmain =>
    obtain ⟨hheaders, hbodies⟩ := funcs_outline fun f (hf : f ∈ firsts [] fs) => hfs f (mem_firsts hf)
    simp only [ofTree, Tree.outline, Tree.outlines_eq, Tree.children, List.map_append, List.map_cons,
      List.map_nil, List.dropLast_concat, List.getLast?_concat, Option.getD_some, firsts_outline hfs,
      hheaders, hbodies, stat_outline hmain]

end Plan

namespace Typing

variable {T T' : Table} {sc : ScopeId}
  {span : Span} {name : Text} {d : Table.Declared} {f g : Plan → Plan} {hs : List Header} {ns : List Tree}
  {i : ScopeId} {id : UInt32}

/-! ## Operations on tables -/

structure Planned (T : Table) (f : Plan → Plan) (T' : Table) : Prop where
  consistent : T'.Consistent
  plan : T'.plan = f T.plan
  leads : T.Leads T'

theorem Planned.trans {T'' : Table} (h : Planned T f T') (h' : Planned T' g T'') : Planned T (fun P => g (f P)) T'' :=
  ⟨h'.consistent, by rw [h'.plan, h.plan], h.leads.trans h'.leads⟩

theorem apply_consistent {op : Table.Op} (h : T.Consistent) (hw : T.Wf) (hop : op.apply T = .ok (d, T'))
    (hc : T'.cost < 2 ^ 32) :
    T'.Consistent ∧ T.Leads T' ∧
      ((d.fresh = true ∧ Table.Effect T d.id T' op) ∨
        (d.fresh = false ∧ T' = T ∧ ∃ k, op.key? T = some k ∧ T.find? k = some d.id)) := by
  obtain ⟨r, hroot, -⟩ := h.rooted.root
  have hsizes : T'.scopes.size < 2 ^ 32 ∧ T'.vars.size < 2 ^ 32 := by
    simp only [Table.cost] at hc
    omega
  rcases Table.apply_cases ⟨r, hroot⟩ h.few hop with ⟨hd, -, he⟩ | ⟨hd, rfl, hk⟩
  · have heff := he hsizes.1 hsizes.2
    have hcons := h.step heff fun s v ha => ha.room hw hc
    exact ⟨hcons, .step op .refl hop (hcons.small hsizes.1 hsizes.2), .inl ⟨hd, heff⟩⟩
  · exact ⟨h, .refl, .inr ⟨hd, rfl, hk⟩⟩

theorem newBlock_planned {p : Scope} (h : T.Consistent) (ho : Open T 1) (hp : T.scope? sc = some p)
    (hb : T.newBlock sc span = (i, T')) :
    Planned T (fun P => P.enter .block sc.toNat) T' ∧ i.toNat = T.plan.length + 1 := by
  have hop : Table.Op.apply T (.block sc span) = .ok (⟨i, true⟩, T') := by
    simp only [Table.Op.apply, hp, hb]
  have hcost : T'.cost < 2 ^ 32 := by
    have := (ho.newBlock (n := 0) hp hb).1.cost
    have := ho.room
    omega
  obtain ⟨hcons, hleads, ⟨-, ho, -⟩ | ⟨hd, -⟩⟩ := apply_consistent h ho.wf hop hcost
  · refine ⟨⟨hcons, Table.plan_opens h ho rfl rfl ?_, hleads⟩, by rw [ho.number, Table.length_plan]⟩
    simp only [Table.cost] at hcost
    omega
  · cases hd

theorem declare_planned {type : Ty} (h : T.Consistent) (hw : T.Wf) (hd : T.declare sc name type span = .ok (d, T'))
    (hc : T'.cost < 2 ^ 32) : Planned T (fun P => P.declare sc.toNat name type.size.toNat) T' := by
  have hop : Table.Op.apply T (.var sc name type span) = .ok (d, T') := hd
  obtain ⟨hcons, hleads, ⟨-, s, v, ha, rfl, rfl, rfl, -⟩ | ⟨-, rfl, k, hk, hid⟩⟩ :=
    apply_consistent h hw hop hc
  · refine ⟨hcons, Table.plan_adds h ha (ha.room hw hc) ?_, hleads⟩
    simp only [Table.cost] at hc
    omega
  · cases hk
    simp only [Table.declare] at hd
    split at hd
    · cases hd
    rename_i s hs
    rw [Table.find?_var hs] at hid
    exact ⟨hcons, (Table.plan_known h hs (by rw [hid]; simp) _).symm, hleads⟩

theorem size_type {n : Tree} {t : Ty} (hn : n.IsType) (h : type n = .ok t) : t.size.toNat = n.bytes := by
  cases hn with
  | base ht =>
    simp only [List.mem_cons, List.not_mem_nil, or_false] at ht
    rcases ht with rfl | rfl | rfl | rfl <;> (obtain rfl := Except.ok.inj h; rfl)
  | bare =>
    cases h
    rfl
  | @array _ _ c hc =>
    obtain ⟨e, he⟩ := type_ok hc
    rw [type, he] at h
    cases h
    cases e <;> rfl
  | @pair _ _ a b ha hb =>
    obtain ⟨x, hx⟩ := type_ok ha
    obtain ⟨y, hy⟩ := type_ok hb
    rw [type, hx, hy] at h
    cases h
    rfl

/-! ## Statements -/

def Walk.plan (scope : Nat) : Walk → Plan → Plan
  | stat n _ => Plan.stat scope n
  | stats ns _ => Plan.stats scope ns
  | block n _ => Plan.block scope n

theorem Planned.congr (h : Planned T f T') (hg : f T.plan = g T.plan) : Planned T g T' :=
  ⟨h.consistent, h.plan.trans hg, h.leads⟩

theorem Walks.planned {w : Walk} (h : Walks sc w T T') (hc : T.Consistent) : Planned T (w.plan sc.toNat) T' := by
  induction h with
  | skip | assign | read => exact ⟨hc, rfl, .refl⟩
  | word _ hk =>
    refine ⟨hc, ?_, .refl⟩
    rename NodeKind => k
    cases k <;> simp only [Tree.isWord, Bool.false_eq_true] at hk <;> rfl
  | declare hr ht _ hty _ hd =>
    obtain ⟨type, d, hsize, hd, -⟩ := declare_ok hd
    have hcost := (hr.declare hd).1.cost
    have hroom := hr.room
    refine (declare_planned hc hr.wf hd (by omega)).congr ?_
    rw [Walk.plan, Plan.stat, hsize, size_type ht hty]
  | ifThen _ _ _ _ ih => exact (ih hc).congr (by rw [Walk.plan, Walk.plan, Plan.stat, Plan.block]; simp)
  | «while» _ _ _ _ ih | scope _ ih => exact (ih hc).congr (by rw [Walk.plan, Walk.plan, Plan.stat, Plan.block])
  | ifElse _ _ _ _ _ iha ihb =>
    have ha := iha hc
    exact (ha.trans (ihb ha.consistent)).congr (by simp only [Walk.plan, Plan.stat, Plan.block])
  | «for» hr _ hb _ _ _ _ ihi ihs ihb =>
    obtain ⟨s, hs, -⟩ := hr.scope
    obtain ⟨hp0, hnum⟩ := newBlock_planned hc hr.toOpen hs hb
    have hp1 := ihi hp0.consistent
    have hp2 := ihs hp1.consistent
    refine (((hp0.trans hp1).trans hp2).trans (ihb hp2.consistent)).congr ?_
    simp only [Walk.plan, Plan.stat, Plan.block, hnum]
  | seq _ ih => exact (ih hc).congr (by rw [Walk.plan, Walk.plan, Plan.stat])
  | nil => exact ⟨hc, by rw [Walk.plan, Plan.stats], .refl⟩
  | cons _ _ ih ihs =>
    have h1 := ih hc
    exact (h1.trans (ihs h1.consistent)).congr (by simp only [Walk.plan, Plan.stats])
  | block ho hs hb _ ih =>
    obtain ⟨hp0, hnum⟩ := newBlock_planned hc ho hs hb
    exact (hp0.trans (ih hp0.consistent)).congr (by simp only [Walk.plan, Plan.block, hnum])

/-! ## Headers -/

/-- Before any body is typed: the names in `seen` are those of the functions, and the scopes of the
    functions follow the global scope in their order. -/
structure Headed (T : Table) (seen : List Text) : Prop where
  seen : ∀ name, name ∈ seen ↔ name ∈ T.funcs.toList.map (·.name)
  scopes : T.scopes.size = T.funcs.size + 1
  places : ∀ f g, T.func? f = some g → g.scope.toNat = f.toNat + 1

theorem empty_headed : Headed .empty [] :=
  ⟨by simp [Table.empty], rfl, fun f g h => by rw [Table.empty_func?] at h; cases h⟩

variable {seen : List Text}

theorem Headed.func {result : Ty} (h : Headed T seen) (he : Table.Effect T id T' (.func name result span)) :
    Headed T' (name :: seen) := by
  obtain ⟨scope, hid, -, ho, hf⟩ := he
  have hscopes := h.scopes
  refine ⟨fun n => ?_, by rw [ho.size, hf, Array.size_push, hscopes], fun f g hg => ?_⟩
  · rw [hf, Array.toList_push, List.map_append, List.mem_append, List.mem_cons, h.seen n]
    simp [or_comm]
  · rw [Table.func?_eq, hf] at hg
    by_cases hnew : f.toNat = T.funcs.size + 1
    · rw [Table.numbered_push_new hnew] at hg
      cases hg
      rw [ho.number]
      omega
    · rw [Table.numbered_push_old hnew] at hg
      exact h.places f g hg

theorem Headed.param {f : FuncId} {type : Ty} (h : Headed T seen)
    (he : Table.Effect T id T' (.param f name type span)) :
    Headed T' seen ∧ T'.funcs.size = T.funcs.size ∧
      ∀ k, (T'.func? k).map (·.scope) = (T.func? k).map (·.scope) := by
  obtain ⟨g, s, v, hg, ha, hscope, hname, -, -, -, hf⟩ := he
  have hsame : T'.funcs.toList.map (·.name) = T.funcs.toList.map (·.name) := by
    rw [hf]
    exact Table.modifyFunc_names f fun _ => rfl
  have hfunc : ∀ k, T'.func? k = (T.func? k).map fun g =>
      if k = f then { g with params := g.params ++ [id] } else g := fun k => by
    rw [Table.func?_eq, hf, ← Table.func?_eq, Table.modifyFunc_func?]
  have hsize : T'.funcs.size = T.funcs.size := by simpa using congrArg List.length hsame
  refine ⟨⟨fun n => by rw [hsame]; exact h.seen n, by rw [ha.scopes, hsize, h.scopes], fun k g' hg' => ?_⟩,
    hsize, fun k => ?_⟩
  · rw [hfunc] at hg'
    obtain ⟨g0, hg0, rfl⟩ := Option.map_eq_some_iff.1 hg'
    rw [← h.places k g0 hg0]
    split_ifs <;> rfl
  · rw [hfunc, Option.map_map]
    refine congrArg (fun q => (T.func? k).map q) (funext fun g => ?_)
    split_ifs <;> rfl

theorem Binds.planned {f : FuncId} {func : Text} {ps : List Tree} {ds : List Diagnostic} {scope : ScopeId}
    (h : Binds f func ps ds T T') (hc : T.Consistent) (hh : Headed T seen)
    (hf : (T.func? f).map (·.scope) = some scope) :
    Planned T (Plan.params scope.toNat ps) T' ∧ Headed T' seen := by
  induction h with
  | nil => exact ⟨⟨hc, by rw [Plan.params], .refl⟩, hh⟩
  | @cons T T1 T' _ _ t name ps ds ty g d ho hg ht hty hd ho1 _ _ ih =>
    obtain rfl : g.scope = scope := by simpa [hg] using hf
    have hop : Table.Op.apply T (.param f name.text ty name.span) = .ok (d, T1) := hd
    obtain ⟨hcons, hleads, hcases⟩ := apply_consistent hc ho.wf hop ho1.room
    -- the parameter is new, or its name is taken and nothing changes
    have hstep : T1.plan = T.plan.declare g.scope.toNat name.text t.bytes ∧ Headed T1 seen ∧
        (T1.func? f).map (·.scope) = some g.scope := by
      rw [← size_type ht hty]
      rcases hcases with ⟨-, he⟩ | ⟨-, rfl, k, hk, hid⟩
      · obtain ⟨hh1, -, hscopes⟩ := hh.param he
        obtain ⟨g', s, v, hg', ha, hscope, hn, hvt, -⟩ := he
        cases hg.symm.trans hg'
        have hplan := Table.plan_adds hc ha (ha.room ho.wf ho1.room)
          (by have := ho1.room
              simp only [Table.cost] at this
              omega)
        rw [hscope, hn, hvt] at hplan
        exact ⟨hplan, hh1, (hscopes f).trans hf⟩
      · simp only [Table.Op.key?, hg, Option.map_some, Option.some.injEq] at hk
        subst hk
        obtain ⟨s, hs, -⟩ := hc.params f g hg
        rw [Table.find?_var hs] at hid
        exact ⟨(Table.plan_known hc hs (by rw [hid]; simp) _).symm, hh, hf⟩
    obtain ⟨hplan1, hh1, hf1⟩ := hstep
    have hp1 : Planned T (fun P => P.declare g.scope.toNat name.text t.bytes) T1 := ⟨hcons, hplan1, hleads⟩
    obtain ⟨hp2, hh2⟩ := ih hcons hh1 hf1
    exact ⟨(hp1.trans hp2).congr rfl, hh2⟩

/-- The headers `hs` are those of the functions `ns`, declared when the names in `seen` were taken and
    there were `k` functions. -/
inductive Heads : List Text → Nat → List Tree → List Header → Prop
  | nil {seen k} : Heads seen k [] []
  | fresh {seen k n ns id ds hs} : (n.child 1).text ∉ seen → id.toNat = k + 1 →
      Heads ((n.child 1).text :: seen) (k + 1) ns hs → Heads seen k (n :: ns) (⟨some id, ds⟩ :: hs)
  | taken {seen k n ns ds hs} : (n.child 1).text ∈ seen → Heads seen k ns hs →
      Heads seen k (n :: ns) (⟨none, ds⟩ :: hs)

theorem Declares.planned (h : Declares ns hs T T') (hc : T.Consistent) (hh : Headed T seen) :
    Planned T (Plan.headers (Plan.firsts seen ns)) T' ∧ Heads seen T.funcs.size ns hs ∧
      ∃ seen', Headed T' seen' := by
  induction h generalizing seen with
  | nil => exact ⟨⟨hc, rfl, .refl⟩, .nil, seen, hh⟩
  | @fresh T T0 T1 T' text text' span span' t name b ps ns ds hs ty d ho _ hd hf ho0 hid hsize hps _ ih =>
    have hop : Table.Op.apply T (.func name.text ty name.span) = .ok (d, T0) := congrArg Except.ok hd
    obtain ⟨hcons, hleads, ⟨-, he⟩ | ⟨hd', -⟩⟩ := apply_consistent hc ho.wf hop ho0.room
    swap
    · exact absurd (hf.symm.trans hd') (by decide)
    have hh0 := hh.func he
    obtain ⟨scope, -, hnone, hopens, hfuncs⟩ := he
    have hnew : name.text ∉ seen := fun hmem => Table.lookupFunc_eq_none hnone ((hh.seen _).1 hmem)
    have hp0 : Planned T (fun P => P.enter .function 1) T0 := by
      refine ⟨hcons, Table.plan_opens hc hopens rfl rfl ?_, hleads⟩
      have := ho0.room
      simp only [Table.cost] at this
      omega
    have hscope : scope.toNat = T.plan.length + 1 := by rw [hopens.number, Table.length_plan]
    have hfunc : (T0.func? d.id).map (·.scope) = some scope := by
      rw [Table.func?_eq, hfuncs, Table.numbered_push_new hid]
      rfl
    obtain ⟨hp1, hh1⟩ := hps.planned hcons hh0 hfunc
    obtain ⟨hp2, hheads, hh2⟩ := ih hp1.consistent hh1
    rw [hps.size, hsize] at hheads
    refine ⟨((hp0.trans hp1).trans hp2).congr ?_, .fresh hnew hid hheads, hh2⟩
    rw [hscope, Plan.firsts, if_neg]
    · rfl
    · exact hnew
  | @taken T T' text span t name ps b ns hs ty d _ hd hf _ ih =>
    have hop : Table.Op.apply T (.func name.text ty name.span) = .ok (d, T) := congrArg Except.ok hd
    obtain ⟨r, hroot, -⟩ := hc.rooted.root
    rcases Table.apply_cases ⟨r, hroot⟩ hc.few hop with ⟨hd', -⟩ | ⟨-, -, k, hk, hid⟩
    · exact absurd (hd'.symm.trans hf) (by decide)
    cases hk
    have hmem : name.text ∈ seen := by
      rw [hh.seen]
      by_contra hmem
      rw [Table.find?, Table.lookupFunc_of_not_mem hmem] at hid
      cases hid
    obtain ⟨hp, hheads, hh'⟩ := ih hc hh
    exact ⟨hp.congr (by rw [Plan.firsts]; exact congrArg (Plan.headers · T.plan) (if_pos hmem).symm),
      .taken hmem hheads, hh'⟩

/-! ## Bodies -/

theorem Bodies.planned {cs : List (Checked Func)} {k : Nat} (h : Bodies ns hs cs T T') (hheads : Heads seen k ns hs)
    (hc : T.Consistent) (hplaces : ∀ f g, T.func? f = some g → g.scope.toNat = f.toNat + 1) :
    Planned T (Plan.bodies (k + 2) (Plan.firsts seen ns)) T' := by
  induction h generalizing seen k with
  | nil => exact ⟨hc, rfl, .refl⟩
  | fresh hg hb _ ih =>
    cases hheads with
    | fresh hmem hid hheads =>
      have hp := hb.planned hc
      have hfuncs := hb.extends.funcs
      refine (hp.trans (ih hheads hp.consistent fun f g hg => ?_)).congr ?_
      · exact hplaces f g (by rwa [Table.func?_eq, hfuncs] at hg)
      · rw [Plan.firsts, if_neg hmem, Walk.plan, hplaces _ _ hg, hid]
        rfl
  | taken _ ih =>
    cases hheads with
    | taken hmem hheads =>
      rw [Plan.firsts, if_pos hmem]
      exact ih hheads hc hplaces

/-! ## Programs -/

theorem program_planned {n : Tree} (hn : n.IsProgram) (hw : n.weight < 2 ^ 32) :
    Wp (program n) (fun _ T => T.plan = Plan.ofTree n ∧ Table.empty.Leads T) Table.empty := by
  obtain ⟨c, T, hrun, hc⟩ := check_runs hn hw
  refine ⟨c, T, hrun, ?_⟩
  obtain ⟨hhs, hcs, hc⟩ := hc
  obtain ⟨hp1, hheads, seen', hh1⟩ := hhs.planned Table.empty_consistent empty_headed
  have hp2 := hcs.planned hheads hp1.consistent hh1.places
  have := (hp1.trans hp2).trans (hc.planned hp2.consistent)
  refine ⟨?_, this.leads⟩
  rw [this.plan, Plan.ofTree]
  simp only [Tree.children, List.getLast?_concat, List.dropLast_concat, Option.getD_some]
  rfl

theorem declared_registered {log : List Table.Entry} {text : Text} {w name v : Tree} {c : Checked Stat}
    (hr : Table.Reached log T) (hrun : stat sc (.node .declare text span [w, name, v]) T = .ok (c, T'))
    (hs : T'.Small) : Table.Leads T T' ∧ T'.find? (.var sc name.text) ≠ none := by
  have hwp : Wp (stat sc (.node .declare text span [w, name, v])) (fun _ U => U = T') T :=
    ⟨c, T', hrun, rfl⟩
  simp only [stat, declare, wp_bind, wp_lift, wp_query, wp_get, wp_set, wp_pure] at hwp
  obtain ⟨_, -, _, -, ⟨d, U⟩, hd, rfl⟩ := hwp
  have hop : Table.Op.apply T (.var sc name.text _ name.span) = .ok (d, U) := hd
  refine ⟨.step _ .refl hop hs, ?_⟩
  have hcons := hr.sound.1
  obtain ⟨r, hroot, -⟩ := hcons.rooted.root
  rcases Table.apply_cases ⟨r, hroot⟩ hcons.few hop with ⟨-, -, he⟩ | ⟨-, rfl, k, hk, hid⟩
  · rw [(he hs.scopes hs.vars).find?]
    simp [Table.Op.key?]
  · cases hk
    rw [hid]
    exact Option.some_ne_none _

theorem ident_registered (h : T.Consistent) (he : T.Encloses i sc) (hn : T.find? (.var sc name) ≠ none) (span : Span) :
    ∃ x, ident T i name span = .ok x := by
  obtain ⟨x, hx⟩ := Option.isSome_iff_exists.1 (he.lookup h.rooted hn)
  obtain ⟨v, hv⟩ := h.var?_of_lookup hx
  exact ⟨⟨span, v.type, name, x⟩, by simp only [ident, hx, hv]⟩

/-- **The places of variables are decided by declarations alone.**  Typing the tree of a file ends in
    a table with the plan that a walk over its declarations finds, whether the program is accepted or
    not, and the walk finds the same without the expressions of the tree.  In particular, after a
    declaration with a wrong value as well as with a right one, its name is known in its scope and in
    all scopes inside. -/
theorem check_planned {f : File} {t : Tree} (hlen : f.content.length < 2 ^ 32)
    (ht : (Parsed.ofFile f).tree? 0 = some t) :
    (∃ c T, check t = .ok (c, T) ∧ T.plan = Plan.ofTree t ∧ T.plan = Plan.ofTree t.outline ∧
      Table.empty.Leads T) ∧
    ∀ (T₀ T₁ T₂ : Table) (sc i : ScopeId) (text : Text) (span use : Span) (written name v : Tree)
      (c : Checked Stat), Table.empty.Leads T₀ →
      stat sc (.node .declare text span [written, name, v]) T₀ = .ok (c, T₁) → T₁.Small →
      T₁.Leads T₂ → T₂.Encloses i sc → ∃ x, ident T₂ i name.text use = .ok x := by
  refine ⟨?_, ?_⟩
  · obtain ⟨hshape, hweight⟩ := Parsed.tree_shape ht
    obtain ⟨c, T, hrun, hplan, hleads⟩ := program_planned hshape (hweight.trans_lt hlen)
    exact ⟨c, T, hrun, hplan, hplan.trans (Plan.ofTree_outline hshape).symm, hleads⟩
  · intro T₀ T₁ T₂ sc i text span use written name v c h₀ hrun hs h₂ hi
    obtain ⟨log, hr⟩ := h₀.reached .empty
    obtain ⟨h₁, hn⟩ := declared_registered hr hrun hs
    obtain ⟨log₁, hr₁⟩ := h₁.reached hr
    obtain ⟨log₂, hr₂⟩ := h₂.reached hr₁
    exact ident_registered hr₂.sound.1 hi (h₂.find? hr₁ hn) use

/-- A program with values of wrong types, names that are declared twice and a function that is. -/
def mistyped : File where
  id := 0
  path := lit "mistyped.wacc"
  flags := 0
  content := lit "begin
    int f(char c) is int y = c ; return y end
    int f(int d) is return d end
    int x = true ;
    bool x = 1 ;
    if x then char x = 2 ; bool z = x else skip fi ;
    println x
  end"

def mistypedPlan : Plan :=
  [⟨.global, 0, [(lit "x", 4)], 4⟩, ⟨.function, 1, [(lit "c", 1)], 1⟩, ⟨.block, 2, [(lit "y", 4)], 4⟩,
   ⟨.block, 1, [(lit "x", 1), (lit "z", 2)], 2⟩, ⟨.block, 1, [], 0⟩]

theorem check_planned_mistyped : ∃ t c T, mistyped.content.length < 2 ^ 32 ∧
    (Parsed.ofFile mistyped).tree? 0 = some t ∧ check t = .ok (c, T) ∧ mistyped.program? = none ∧
    T.plan = mistypedPlan := by
  have hplan : (((Parsed.ofFile mistyped).tree? 0).any fun t => decide (Plan.ofTree t = mistypedPlan)) = true := by
    decide +kernel
  obtain ⟨t, ht, heq⟩ := (Option.any_eq_true _ _).1 hplan
  have hlen : mistyped.content.length < 2 ^ 32 := by decide +kernel
  obtain ⟨⟨c, T, hcheck, hT, -⟩, -⟩ := check_planned hlen ht
  have hrefused : mistyped.program?.isNone = true := by decide +kernel
  exact ⟨t, c, T, hlen, ht, hcheck, Option.isNone_iff_eq_none.1 hrefused, hT.trans (of_decide_eq_true heq)⟩

end Typing

end Wacc
