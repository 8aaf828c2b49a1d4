/-
  Variables are declared before they are used.

  Names become visible in the order in which a program is read, and statements run in the order of the
  steps of `Control.Step`.  The two orders agree but for the step of a `for` loop, which is read before the
  body and runs after it.
-/
import Wacc.Proofs.Control
import Wacc.Proofs.Typing.Accepted
import Mathlib.Data.List.Sublists
import Mathlib.Data.Set.Basic

namespace Wacc

/-! ## Variables of a scope -/

mutual

def Stat.direct : Stat → List VarId
  | .declare _ x _ _ _ => [x]
  | .seq _ ss => Stat.directAll ss
  | _ => []

def Stat.directAll : List Stat → List VarId
  | [] => []
  | s :: ss => s.direct ++ Stat.directAll ss

end

mutual

def Stat.stepped : Stat → List VarId
  | .block b => b.stepped
  | .ifThen _ _ a => a.stepped
  | .ifElse _ _ a b => a.stepped ++ b.stepped
  | .while _ _ b => b.stepped
  | .for _ _ i _ s b => i.stepped ++ (s.direct ++ (s.stepped ++ b.stepped))
  | .seq _ ss => Stat.steppedAll ss
  | _ => []

def Stat.steppedAll : List Stat → List VarId
  | [] => []
  | s :: ss => s.stepped ++ Stat.steppedAll ss

def Block.stepped : Block → List VarId
  | .mk _ _ s => s.stepped

end

def Program.stepped (p : Program) : List VarId := p.funcs.flatMap (·.body.stepped) ++ p.body.stepped

/-- The variables that are declared between two moments are those of the list, in the scope `sc`, and
    variables of scopes that are opened between the moments. -/
structure Between (T : Table) (sc : ScopeId) (m m' : Moment) (ds : List VarId) : Prop where
  scopes : m.scopes ≤ m'.scopes
  vars : m.vars ≤ m'.vars
  new : ∀ x v, T.var? x = some v → m.vars < x.toNat → x.toNat ≤ m'.vars →
    (x ∈ ds ∧ v.scope = sc) ∨ (m.scopes < v.scope.toNat ∧ v.scope.toNat ≤ m'.scopes)

section
variable {T : Table} {sc i : ScopeId} {m m' m'' : Moment} {ds es : List VarId}

theorem Between.refl (T : Table) (sc : ScopeId) (m : Moment) : Between T sc m m [] :=
  ⟨le_rfl, le_rfl, fun x v _ hlo hhi => by omega⟩

theorem Between.trans (h : Between T sc m m' ds) (h' : Between T sc m' m'' es) : Between T sc m m'' (ds ++ es) := by
  have hs := h.scopes
  have hs' := h'.scopes
  refine ⟨hs.trans hs', h.vars.trans h'.vars, fun x v hv hlo hhi => ?_⟩
  by_cases hx : x.toNat ≤ m'.vars
  · rcases h.new x v hv hlo hx with ⟨hmem, hscope⟩ | hin
    · exact .inl ⟨List.mem_append_left _ hmem, hscope⟩
    · exact .inr (by omega)
  · rcases h'.new x v hv (by omega) hhi with ⟨hmem, hscope⟩ | hin
    · exact .inl ⟨List.mem_append_right _ hmem, hscope⟩
    · exact .inr (by omega)

theorem Between.elsewhere (h : Between T sc m m' []) (sc' : ScopeId) : Between T sc' m m' [] :=
  ⟨h.scopes, h.vars, fun x v hv hlo hhi => .inr <| by simpa using h.new x v hv hlo hhi⟩

theorem Between.opens (ho : Opens T sc m i) (h : Between T i m.next m' ds) : Between T sc m m' [] := by
  have hs := h.scopes
  have hi := ho.number
  simp only [Moment.next] at hs
  refine ⟨by omega, h.vars, fun x v hv hlo hhi => .inr ?_⟩
  rcases h.new x v hv hlo hhi with ⟨-, rfl⟩ | hin
  · omega
  · simp only [Moment.next] at hin
    omega

theorem Moment.plus_plus (m : Moment) (is js : List ScopeId) (xs ys : List VarId) :
    m.plus (is ++ js) (xs ++ ys) = (m.plus is xs).plus js ys := by
  simp only [Moment.plus, List.length_append, Nat.add_assoc]

mutual

theorem Stat.Scoped.between {sc : ScopeId} {m : Moment} (s : Stat) (hs : s.Scoped T sc m) :
    Between T sc m (m.after s) s.direct := by
  cases s with
  | declare site x name type v =>
    obtain ⟨-, -, hx, w, hw, hscope, -⟩ := hs
    refine ⟨le_rfl, Nat.le_succ _, fun y v' hv' hlo hhi => .inl ?_⟩
    obtain rfl : y = x := by
      have hhi : y.toNat ≤ m.vars + 1 := hhi
      exact UInt32.toNat_inj.1 (by omega)
    cases hw.symm.trans hv'
    exact ⟨List.mem_singleton_self _, hscope⟩
  | block b => exact Block.Scoped.between b hs
  | ifThen site c a => exact Block.Scoped.between a hs.2.2
  | ifElse site c a b =>
    have h := (Block.Scoped.between a hs.2.2.1).trans (Block.Scoped.between b hs.2.2.2)
    rwa [Moment.afterBlock, Moment.afterBlock, ← Moment.plus_plus] at h
  | «while» site c b => exact Block.Scoped.between b hs.2.2
  | «for» site sc' i c st b =>
    obtain ⟨-, ho, hi, -, hst, hb⟩ := hs
    have h := ((Stat.Scoped.between i hi).trans (Stat.Scoped.between st hst)).trans (Block.Scoped.between b hb)
    have hend : ((m.next.after i).after st).afterBlock b = m.after (.for site sc' i c st b) := by
      simp only [Moment.after, Moment.afterBlock, Moment.next, Moment.plus, Stat.opened, Stat.declared,
        List.length_append, List.length_cons]
      congr 1 <;> omega
    rw [hend] at h
    exact h.opens ho
  | seq site ss => exact Stat.ScopedAll.between ss hs.2
  | _ => exact .refl T sc m

theorem Stat.ScopedAll.between {sc : ScopeId} {m : Moment} (ss : List Stat) (hs : Stat.ScopedAll T sc m ss) :
    Between T sc m (m.afterAll ss) (Stat.directAll ss) := by
  cases ss with
  | nil => exact .refl T sc m
  | cons s ss =>
    have h := (Stat.Scoped.between s hs.1).trans (Stat.ScopedAll.between ss hs.2)
    rwa [Moment.after, Moment.afterAll, ← Moment.plus_plus] at h

theorem Block.Scoped.between {sc : ScopeId} {m : Moment} (b : Block) (hb : b.Scoped T sc m) :
    Between T sc m (m.afterBlock b) [] := by
  cases b with
  | mk site i s =>
    have h := Stat.Scoped.between s hb.2.2
    have hend : m.next.after s = m.afterBlock (.mk site i s) := by
      simp only [Moment.after, Moment.afterBlock, Moment.next, Moment.plus, Block.opened, Block.declared,
        List.length_cons]
      congr 1
      omega
    rw [hend] at h
    exact h.opens hb.2.1

end

theorem Func.ScopedAll.between {fs : List Func} (hs : Func.ScopedAll T m fs) :
    Between T sc m (m.plus (Func.openedAll fs) (Func.declaredAll fs)) [] := by
  induction fs generalizing m with
  | nil => exact .refl T sc m
  | cons f fs ih =>
    obtain ⟨hf, hfs⟩ := hs
    have h := ((Block.Scoped.between f.body hf).elsewhere sc).trans (ih hfs)
    rwa [Moment.afterBlock, ← Moment.plus_plus] at h

end

theorem Func.ScopedAll.at {T : Table} {m : Moment} {fs : List Func} (hs : Func.ScopedAll T m fs) {f : Func}
    (hf : f ∈ fs) (sc : ScopeId) : ∃ m', f.body.Scoped T f.scope m' ∧ Between T sc m m' [] := by
  induction fs generalizing m with
  | nil => cases hf
  | cons g fs ih =>
    obtain ⟨hg, hfs⟩ := hs
    rcases List.mem_cons.1 hf with rfl | hf
    · exact ⟨m, hg, .refl T sc m⟩
    · obtain ⟨m', hbody, hbetween⟩ := ih hfs hf
      exact ⟨m', hbody, ((Block.Scoped.between g.body hg).elsewhere sc).trans hbetween⟩

/-! ## Parameters -/

def Program.params (p : Program) : List VarId := p.funcs.flatMap (·.params)

namespace Program.Scoped

variable {p : Program} {x : VarId} {v : Variable}

theorem scope_le (hs : p.Scoped) {i : ScopeId} {s : Scope} (hi : p.table.scope? i = some s)
    (hk : s.kind ≠ .block) : i.toNat ≤ p.start.scopes := by
  by_contra hlt
  have hle := (Table.numbered_lt hi).2
  have hsize : p.table.scopes.size = p.start.scopes + p.blocks.length := by
    have := congrArg Moment.scopes hs.table
    simp only [Table.now, Moment.after, Moment.plus] at this
    rw [this, Program.blocks, List.length_append, Nat.add_assoc]
  obtain ⟨s', hs', hk'⟩ := (hs.blocks_iff i).1 ((hs.consecutive.mem_iff i).2 (by omega))
  cases hs'.symm.trans hi
  exact hk hk'

theorem between (hs : p.Scoped) : Between p.table Table.global p.start p.table.now p.body.direct := by
  have hfuncs : Between p.table Table.global p.start _ [] := hs.funcs.between
  have h := hfuncs.trans (Stat.Scoped.between p.body hs.body)
  rwa [← hs.table, List.nil_append] at h

end Program.Scoped

theorem Table.LaidFrom.nodup {T : Table} {sc : ScopeId} {base top : Nat} {ps : List VarId}
    (h : Table.LaidFrom T sc base ps top) :
    ps.Nodup ∧ ∀ x ∈ ps, ∃ v, T.var? x = some v ∧ v.scope = sc ∧ base < v.offset.toNat := by
  induction ps generalizing base with
  | nil => exact ⟨List.nodup_nil, fun _ h => absurd h List.not_mem_nil⟩
  | cons y ps ih =>
    obtain ⟨v, hv, hscope, hoffset, hps⟩ := h
    obtain ⟨hnodup, hmem⟩ := ih hps
    have hsize := (Table.size_pos v.type).1
    refine ⟨List.nodup_cons.2 ⟨fun hy => ?_, hnodup⟩, List.forall_mem_cons.2 ⟨⟨v, hv, hscope, by omega⟩, ?_⟩⟩
    · obtain ⟨w, hw, -, hlt⟩ := hmem y hy
      cases hw.symm.trans hv
      exact hlt.false
    · intro x hx
      obtain ⟨w, hw, hscope', hlt⟩ := hmem x hx
      exact ⟨w, hw, hscope', by omega⟩

namespace Program.Typed

variable {p : Program} {x : VarId}

theorem params_nodup (hp : p.Typed) {f : Func} (hf : f ∈ p.funcs) :
    f.params.Nodup ∧ ∀ x ∈ f.params, ∃ v s, p.table.var? x = some v ∧ p.table.scope? v.scope = some s ∧
      s.kind = .function ∧ s.func = f.id := by
  obtain ⟨g, hg, -, -, hparams, -⟩ := (hp.funcs f hf).signature
  obtain ⟨s, hs, hk, hfunc⟩ := hp.wf.funcs f.id g hg
  obtain ⟨_, -, hlaid⟩ := hp.laid f.id g hg
  rw [hparams] at hlaid
  obtain ⟨hnodup, hmem⟩ := hlaid.nodup
  refine ⟨hnodup, fun x hx => ?_⟩
  obtain ⟨v, hv, hscope, -⟩ := hmem x hx
  exact ⟨v, s, hv, hscope ▸ hs, hk, hfunc⟩

theorem allParams_nodup (hp : p.Typed) : p.params.Nodup := by
  refine List.nodup_flatMap.2 ⟨fun f hf => (hp.params_nodup hf).1, ?_⟩
  rw [List.pairwise_iff_getElem]
  intro i j hi hj hij x hxi hxj
  obtain ⟨v, s, hv, hs, -, hfunc⟩ := (hp.params_nodup (List.getElem_mem hi)).2 x hxi
  obtain ⟨w, t, hw, ht, -, hfunc'⟩ := (hp.params_nodup (List.getElem_mem hj)).2 x hxj
  cases hv.symm.trans hw
  cases hs.symm.trans ht
  have hid := congrArg UInt32.toNat (hfunc.symm.trans hfunc')
  rw [Typing.id_getElem hp hi, Typing.id_getElem hp hj] at hid
  omega

theorem param_le (hp : p.Typed) (hs : p.Scoped) (hx : x ∈ p.params) : x.toNat ≤ p.start.vars := by
  obtain ⟨f, hf, hx⟩ := List.mem_flatMap.1 hx
  obtain ⟨v, s, hv, hscope, hk, -⟩ := (hp.params_nodup hf).2 x hx
  by_contra hlt
  rcases hs.between.new x v hv (by omega) (Table.numbered_lt hv).2 with ⟨-, hglobal⟩ | ⟨hlt, -⟩
  · obtain ⟨r, hr, hk'⟩ := hp.wf.root
    cases hr.symm.trans (hglobal ▸ hscope)
    rw [hk] at hk'
    cases hk'
  · have := hs.scope_le hscope (by rw [hk]; decide)
    omega

/-- The parameters come before all variables that bodies declare: there are as many of them as there are
    numbers for them. -/
theorem mem_params (hp : p.Typed) (hs : p.Scoped) {v : Variable} (hv : p.table.var? x = some v)
    (hx : x.toNat ≤ p.start.vars) : x ∈ p.params := by
  have hlength : p.params.length = p.start.vars := by
    rw [Program.params, List.length_flatMap]
    rfl
  have hnodup : (p.params.map UInt32.toNat).Nodup := hp.allParams_nodup.map fun _ _ => UInt32.toNat_inj.1
  have hsubset : p.params.map UInt32.toNat ⊆ List.range' 1 p.start.vars := by
    intro n hn
    obtain ⟨y, hy, rfl⟩ := List.mem_map.1 hn
    obtain ⟨f, hf, hyf⟩ := List.mem_flatMap.1 hy
    obtain ⟨w, -, hw, -⟩ := (hp.params_nodup hf).2 y hyf
    have hpos := (Table.numbered_lt hw).1
    have hle := hp.param_le hs hy
    rw [List.mem_range'_1]
    omega
  have hperm := (List.subperm_of_subset hnodup hsubset).perm_of_length_le (by simp [hlength])
  have hmem : x.toNat ∈ List.range' 1 p.start.vars := by
    have hpos := (Table.numbered_lt hv).1
    rw [List.mem_range'_1]
    omega
  obtain ⟨y, hy, hyx⟩ := List.mem_map.1 (hperm.mem_iff.2 hmem)
  rwa [← UInt32.toNat_inj.1 hyx]

end Program.Typed

namespace Control

/-! ## Uses and declarations on a path -/

def Task.uses : Task → List Ident
  | .run (.declare _ _ _ _ v) => v.idents
  | .run (.assign _ l v) => l.idents ++ v.idents
  | .run (.read _ l) => l.idents
  | .run (.free _ e) | .run (.ret _ e) | .run (.exit _ e) | .run (.print _ e _) => e.idents
  | .run (.ifThen _ c _) | .run (.ifElse _ c _ _) | .loop c _ _ => c.idents
  | _ => []

/-- The variables that were declared, and whose scopes were neither entered nor left since. -/
def Live (T : Table) (as : List Act) : Set VarId :=
  {x | ∃ before site name type value after v, as = before ++ .did (.declare site x name type value) :: after ∧
    T.var? x = some v ∧ .entered v.scope ∉ after ∧ .left v.scope ∉ after}

def outside (T : Table) (i : ScopeId) : Set VarId := {x | ∀ v, T.var? x = some v → v.scope ≠ i}

section
variable {T : Table} {as : List Act} {x : VarId}

theorem live_append {a : Act} (h : x ∈ Live T as)
    (ha : ∀ v, T.var? x = some v → a ≠ .entered v.scope ∧ a ≠ .left v.scope) : x ∈ Live T (as ++ [a]) := by
  obtain ⟨before, site, name, type, value, after, v, rfl, hv, hentered, hleft⟩ := h
  obtain ⟨hne, hne'⟩ := ha v hv
  refine ⟨before, site, name, type, value, after ++ [a], v, by simp, hv, ?_, ?_⟩
  · simp [hentered, hne.symm]
  · simp [hleft, hne'.symm]

theorem live_declare {site : Site} {name : Text} {type : Ty} {value : Value} {v : Variable}
    (hv : T.var? x = some v) : x ∈ Live T (as ++ [.did (.declare site x name type value)]) :=
  ⟨as, site, name, type, value, [], v, rfl, hv, by simp, by simp⟩

end

/-! ## The invariant -/

/-- What is known in the scope `sc` at a moment: the variables of the scopes around that are declared by
    then are in `D` or, as an exception, in `E`. -/
structure Point (T : Table) (E D : Set VarId) (sc : ScopeId) (m : Moment) : Prop where
  scope : ∃ s, T.scope? sc = some s
  number : sc.toNat ≤ m.scopes
  early : ∀ x v, T.var? x = some v → x.toNat ≤ m.vars → v.scope.toNat ≤ m.scopes
  known : ∀ x v, T.var? x = some v → v.scope ∈ T.frameChain sc → x.toNat ≤ m.vars → x ∈ E ∪ D

/-- Tasks in the scope `sc` that can be done where the variables in `D` are live. -/
def Fits (T : Table) (E : Set VarId) : Set VarId → ScopeId → List Task → Prop
  | _, _, [] => True
  | D, sc, .run s :: k =>
    (∃ m, Point T E D sc m ∧ s.Scoped T sc m ∧ ∀ x ∈ s.stepped, x ∈ E) ∧ Fits T E (D ∪ {x | x ∈ s.direct}) sc k
  | D, sc, .leave i :: k => i = sc ∧ ∃ out, T.IsBlock out i ∧ Fits T E (D ∩ outside T i) out k
  | D, sc, .loop c b after :: k =>
    (∃ m, Point T E D sc m ∧ Named T sc m c.idents ∧ Stat.ScopedAll T sc m after ∧
      b.Scoped T sc (m.afterAll after) ∧ (∀ x ∈ Stat.directAll after, x ∈ E) ∧
      (∀ x ∈ Stat.steppedAll after, x ∈ E) ∧ ∀ x ∈ b.stepped, x ∈ E) ∧ Fits T E D sc k

section
variable {T : Table} {E D D' : Set VarId} {sc i : ScopeId} {m m' : Moment} {k : List Task}

theorem frameChain_block (hw : T.Wf) (h : T.IsBlock sc i) : T.frameChain i = i :: T.frameChain sc := by
  obtain ⟨s, hs, hk, rfl⟩ := h
  rw [Table.frameChain_cons hw.nested hs]
  simp [Table.isFrame, hk]

theorem le_of_mem_frameChain (hw : T.Wf) {o : ScopeId} (h : o ∈ T.frameChain sc) : o.toNat ≤ sc.toNat := by
  obtain ⟨n, hn⟩ : ∃ n, sc.toNat = n := ⟨_, rfl⟩
  induction n using Nat.strong_induction_on generalizing sc with
  | _ n ih =>
    cases hs : T.scope? sc with
    | none =>
      rw [Table.frameChain_none hs] at h
      cases h
    | some s =>
      rw [Table.frameChain_cons hw.nested hs] at h
      rcases List.mem_cons.1 h with rfl | h
      · exact le_rfl
      · cases hf : Table.isFrame s with
        | true => simp [hf] at h
        | false =>
          have hlt := (Table.isFrame_eq_false hw.nested hs hf).2.1
          have hle := ih s.parent.toNat (hn ▸ hlt) (by simpa [hf] using h) rfl
          omega

theorem Point.mono (h : Point T E D sc m)
    (hD : ∀ x v, T.var? x = some v → v.scope ∈ T.frameChain sc → x ∈ D → x ∈ D') : Point T E D' sc m :=
  { h with known := fun x v hv hscope hle => (h.known x v hv hscope hle).imp id (hD x v hv hscope) }

theorem Fits.mono (hw : T.Wf) (h : Fits T E D sc k)
    (hD : ∀ x v, T.var? x = some v → v.scope ∈ T.frameChain sc → x ∈ D → x ∈ D') : Fits T E D' sc k := by
  induction k generalizing D D' sc with
  | nil => trivial
  | cons t k ih =>
    cases t with
    | run s =>
      obtain ⟨⟨m, hpoint, hs⟩, hk⟩ := h
      exact ⟨⟨m, hpoint.mono hD, hs⟩, ih hk fun x v hv hscope => Or.imp_left (hD x v hv hscope)⟩
    | leave i =>
      obtain ⟨rfl, out, hout, hk⟩ := h
      refine ⟨rfl, out, hout, ih hk fun x v hv hscope hx => ⟨hD x v hv ?_ hx.1, hx.2⟩⟩
      rw [frameChain_block hw hout]
      exact List.mem_cons_of_mem _ hscope
    | loop c b after =>
      obtain ⟨⟨m, hpoint, hs⟩, hk⟩ := h
      exact ⟨⟨m, hpoint.mono hD, hs⟩, ih hk hD⟩

theorem Point.after {ds : List VarId} (hw : T.Wf) (h : Point T E D sc m) (hb : Between T sc m m' ds) :
    Point T E (D ∪ {x | x ∈ ds}) sc m' where
  scope := h.scope
  number := h.number.trans hb.scopes
  early x v hv hle := by
    have hs := hb.scopes
    have hnumber := h.number
    by_cases hx : x.toNat ≤ m.vars
    · exact (h.early x v hv hx).trans hs
    · rcases hb.new x v hv (by omega) hle with ⟨-, rfl⟩ | hin
      · omega
      · omega
  known x v hv hscope hle := by
    by_cases hx : x.toNat ≤ m.vars
    · exact (h.known x v hv hscope hx).imp id .inl
    · rcases hb.new x v hv (by omega) hle with ⟨hmem, -⟩ | hin
      · exact .inr (.inr hmem)
      · have := le_of_mem_frameChain hw hscope
        have := h.number
        omega

theorem Point.exempt {S : Set VarId} (h : Point T E (D ∪ S) sc m) (hS : S ⊆ E) : Point T E D sc m :=
  { h with known := fun x v hv hscope hle =>
      (h.known x v hv hscope hle).elim .inl fun hx => hx.elim .inr fun hx => .inl (hS hx) }

theorem Point.enter (hw : T.Wf) (h : Point T E D sc m) (ho : Opens T sc m i) :
    Point T E (D ∩ outside T i) i m.next := by
  have hnumber := ho.number
  obtain ⟨s, hs, hk, hparent⟩ := ho.child
  refine ⟨⟨s, hs⟩, hnumber.le, fun x v hv hle => (h.early x v hv hle).trans (Nat.le_succ _), ?_⟩
  intro x v hv hscope hle
  have hearly := h.early x v hv hle
  rw [frameChain_block hw ho.child] at hscope
  rcases List.mem_cons.1 hscope with rfl | hscope
  · omega
  · refine (h.known x v hv hscope hle).imp id fun hx => ⟨hx, fun w hw' heq => ?_⟩
    cases hw'.symm.trans hv
    rw [heq] at hearly
    omega

theorem Fits.leave (hw : T.Wf) (ho : Opens T sc m i) (hpoint : Point T E D sc m) (h : Fits T E D sc k)
    {D' : Set VarId} (hD : D ∩ outside T i ⊆ D') : Fits T E D' i (.leave i :: k) := by
  refine ⟨rfl, sc, ho.child, h.mono hw fun x v hv hscope hx => ?_⟩
  have hout : x ∈ outside T i := by
    intro w hw' heq
    cases hw'.symm.trans hv
    have hle := le_of_mem_frameChain hw hscope
    have hnumber := hpoint.number
    have := ho.number
    rw [heq] at hle
    omega
  exact ⟨hD ⟨hx, hout⟩, hout⟩

theorem Fits.plain {s : Stat} (h : Fits T E (D ∪ {x | x ∈ s.direct}) sc k) (hs : s.direct = []) :
    Fits T E D sc k := by
  have hD : D ∪ {x | x ∈ s.direct} = D := by simp [hs]
  rwa [hD] at h

theorem Fits.runAll (hw : T.Wf) {ss : List Stat} (hpoint : Point T E D sc m) (hs : Stat.ScopedAll T sc m ss)
    (hE : ∀ x ∈ Stat.steppedAll ss, x ∈ E) (h : Fits T E (D ∪ {x | x ∈ Stat.directAll ss}) sc k) :
    Fits T E D sc (ss.map .run ++ k) := by
  induction ss generalizing D m with
  | nil => exact h.mono hw fun x v _ _ hx => by simpa [Stat.directAll] using hx
  | cons s ss ih =>
    obtain ⟨hs, hss⟩ := hs
    obtain ⟨hE, hEs⟩ := List.forall_mem_append.1 hE
    refine ⟨⟨m, hpoint, hs, hE⟩, ih (hpoint.after hw (Stat.Scoped.between s hs)) hss hEs ?_⟩
    refine h.mono hw fun x v _ _ hx => ?_
    rcases hx with hx | hx
    · exact .inl (.inl hx)
    · rcases List.mem_append.1 hx with hx | hx
      · exact .inl (.inr hx)
      · exact .inr hx

/-! ## Paths -/

variable {as : List Act} {k' : List Task}

theorem live_of_act {a : Act} (hnot : ∀ i, a ≠ .entered i ∧ a ≠ .left i) : Live T as ⊆ Live T (as ++ [a]) :=
  fun _ hx => live_append hx fun v _ => ⟨(hnot v.scope).1, (hnot v.scope).2⟩

theorem live_of_scope {a : Act} (h : a = .entered i ∨ a = .left i) :
    Live T as ∩ outside T i ⊆ Live T (as ++ [a]) := by
  rintro x ⟨hx, hout⟩
  refine live_append hx fun v hv => ?_
  have hne := (hout v hv).symm
  rcases h with rfl | rfl <;> simp [hne]

theorem live_of_simple {s : Stat} (hs : isSimple s = true) (hscoped : s.Scoped T sc m) :
    Live T as ∪ {x | x ∈ s.direct} ⊆ Live T (as ++ [.did s]) := by
  rintro x (hx | hx)
  · exact live_of_act (by simp) hx
  · cases s with
    | declare site y name type value =>
      obtain ⟨-, -, -, v, hv, -⟩ := hscoped
      obtain rfl : x = y := List.mem_singleton.1 hx
      exact live_declare hv
    | seq => simp [isSimple] at hs
    | _ => exact absurd hx List.not_mem_nil

theorem Fits.tested (hw : T.Wf) {c : Expr} (h : Fits T E (Live T as) sc k) :
    Fits T E (Live T (as ++ [.tested c])) sc k :=
  h.mono hw fun x v _ _ hx => live_of_act (by simp) hx

/-- **One step keeps the invariant.** -/
theorem Step.fits (hw : T.Wf) {a : Option Act} (h : Step k a k') (hk : Fits T E (Live T as) sc k) :
    ∃ sc', Fits T E (Live T (as ++ a.toList)) sc' k' := by
  cases h with
  | @simple s k' hs =>
    obtain ⟨⟨m, -, hscoped, -⟩, hk⟩ := hk
    exact ⟨sc, hk.mono hw fun x v _ _ hx => live_of_simple hs hscoped hx⟩
  | @seq site ss k' =>
    obtain ⟨⟨m, hpoint, hscoped, hE⟩, hk⟩ := hk
    rw [Option.toList, List.append_nil]
    exact ⟨sc, .runAll hw hpoint hscoped.2 hE hk⟩
  | @block site i s k' =>
    obtain ⟨⟨m, hpoint, ⟨-, ho, hs⟩, hE⟩, hk⟩ := hk
    have hlive : Live T as ∩ outside T i ⊆ Live T (as ++ [.entered i]) := live_of_scope (.inl rfl)
    exact ⟨i, ⟨m.next, (hpoint.enter hw ho).mono fun x v _ _ hx => hlive hx, hs, hE⟩,
      (hk.plain rfl).leave hw ho hpoint (hlive.trans Set.subset_union_left)⟩
  | leave =>
    obtain ⟨rfl, out, hout, hk⟩ := hk
    exact ⟨out, hk.mono hw fun x v _ _ hx => live_of_scope (.inr rfl) hx⟩
  | thenOnly =>
    obtain ⟨⟨m, hpoint, ⟨-, -, ha⟩, hE⟩, hk⟩ := hk
    exact ⟨sc, Fits.tested hw ⟨⟨m, hpoint, ha, hE⟩, hk⟩⟩
  | thenSkip =>
    obtain ⟨-, hk⟩ := hk
    exact ⟨sc, (hk.plain rfl).tested hw⟩
  | thenPart =>
    obtain ⟨⟨m, hpoint, ⟨-, -, ha, -⟩, hE⟩, hk⟩ := hk
    exact ⟨sc, Fits.tested hw ⟨⟨m, hpoint, ha, (List.forall_mem_append.1 hE).1⟩, hk⟩⟩
  | @elsePart site c a b k' =>
    obtain ⟨⟨m, hpoint, ⟨-, -, ha, hb⟩, hE⟩, hk⟩ := hk
    have hpoint' : Point T E (Live T as) sc (m.afterBlock a) :=
      (hpoint.after hw (Block.Scoped.between a ha)).mono (by simp)
    exact ⟨sc, Fits.tested hw ⟨⟨_, hpoint', hb, (List.forall_mem_append.1 hE).2⟩, hk⟩⟩
  | «while» =>
    obtain ⟨⟨m, hpoint, ⟨-, hc, hb⟩, hE⟩, hk⟩ := hk
    rw [Option.toList, List.append_nil]
    exact ⟨sc, ⟨m, hpoint, hc, trivial, hb, by simp [Stat.directAll], by simp [Stat.steppedAll], hE⟩,
      hk.plain rfl⟩
  | @«for» site i init step c b k' =>
    obtain ⟨⟨m, hpoint, ⟨-, ho, hinit, hc, hstep, hb⟩, hE⟩, hk⟩ := hk
    have hlive : Live T as ∩ outside T i ⊆ Live T (as ++ [.entered i]) := live_of_scope (.inl rfl)
    have hstart := (hpoint.enter hw ho).mono fun x v _ _ hx => hlive hx
    obtain ⟨hE1, hE2⟩ := List.forall_mem_append.1 hE
    obtain ⟨hE2, hE3⟩ := List.forall_mem_append.1 hE2
    obtain ⟨hE3, hE4⟩ := List.forall_mem_append.1 hE3
    refine ⟨i, ⟨m.next, hstart, hinit, hE1⟩, ⟨_, hstart.after hw (Stat.Scoped.between init hinit), hc,
      ⟨hstep, trivial⟩, ?_, ?_, ?_, hE4⟩, (hk.plain rfl).leave hw ho hpoint (hlive.trans Set.subset_union_left)⟩
    · simpa [Moment.afterAll, Moment.after, Stat.openedAll, Stat.declaredAll] using hb
    · simpa [Stat.directAll] using hE2
    · simpa [Stat.steppedAll] using hE3
  | @again c b after k' =>
    have hloop : Fits T E (Live T as) sc (.loop c b after :: k') := hk
    obtain ⟨⟨m, hpoint, -, hafter, hb, hE1, hE2, hE3⟩, -⟩ := hk
    -- the body is read after the step, whose variables are exempt
    have hbody : Point T E (Live T as) sc (m.afterAll after) :=
      (hpoint.after hw (Stat.ScopedAll.between after hafter)).exempt hE1
    have hrest : Fits T E (Live T as) sc (after.map .run ++ .loop c b after :: k') :=
      .runAll hw hpoint hafter hE2 (hloop.mono hw fun x v _ _ => .inl)
    exact ⟨sc, Fits.tested hw ⟨⟨_, hbody, hb, hE3⟩, hrest.mono hw fun x v _ _ => .inl⟩⟩
  | stop => exact ⟨sc, hk.2.tested hw⟩

theorem Path.fits (hw : T.Wf) {as' : List Act} (h : Path k as' k') (hk : Fits T E (Live T as) sc k) :
    ∃ sc', Fits T E (Live T (as ++ as')) sc' k' := by
  induction h generalizing as sc with
  | nil => exact ⟨sc, by rwa [List.append_nil]⟩
  | cons hstep _ ih =>
    obtain ⟨sc1, hk1⟩ := hstep.fits hw hk
    rw [← List.append_assoc]
    exact ih hk1

theorem Point.uses (h : Point T E D sc m) {ids : List Ident} (hids : Named T sc m ids) :
    ∀ id ∈ ids, id.var ∈ E ∪ D := by
  intro id hid
  obtain ⟨v, near, far, hv, -, -, hle, hchain, -⟩ := hids id hid
  exact h.known id.var v hv (by simp [hchain]) hle

theorem Fits.uses {t : Task} (h : Fits T E D sc (t :: k)) : ∀ id ∈ t.uses, id.var ∈ E ∪ D := by
  cases t with
  | leave i => exact fun _ hid => absurd hid List.not_mem_nil
  | loop c b after =>
    obtain ⟨⟨m, hpoint, hc, -⟩, -⟩ := h
    exact hpoint.uses hc
  | run s =>
    obtain ⟨⟨m, hpoint, hs, -⟩, -⟩ := h
    cases s with
    | declare site x name type v => exact hpoint.uses hs.2.1
    | assign site l v => exact hpoint.uses (List.forall_mem_append.2 ⟨hs.2.1, hs.2.2⟩)
    | read site l => exact hpoint.uses hs.2
    | free site e => exact hpoint.uses hs.2
    | ret site e => exact hpoint.uses hs.2
    | exit site e => exact hpoint.uses hs.2
    | print site e newline => exact hpoint.uses hs.2
    | ifThen site c a => exact hpoint.uses hs.2.1
    | ifElse site c a b => exact hpoint.uses hs.2.1
    | _ => exact fun _ hid => absurd hid List.not_mem_nil

end

/-! ## Programs -/

inductive Start (p : Program) : List Task → Prop
  | main : Start p [.run p.body]
  | func {f : Func} : f ∈ p.funcs → Start p [.run (.block f.body)]

def exceptions (p : Program) : Set VarId := {x | x ∈ p.params ∨ x ∈ p.stepped}

section
variable {p : Program}

theorem Point.start (hp : p.Typed) (hs : p.Scoped) {sc : ScopeId} {s : Scope} {m : Moment}
    (hsc : p.table.scope? sc = some s) (hk : s.kind ≠ .block) (hm : Between p.table sc p.start m []) :
    Point p.table (exceptions p) ∅ sc m := by
  have hle := hs.scope_le hsc hk
  have hscopes := hm.scopes
  have hparam {x : VarId} {v : Variable} (hv : p.table.var? x = some v) (hx : x.toNat ≤ p.start.vars) :
      x ∈ p.params ∧ v.scope.toNat ≤ p.start.scopes := by
    have hmem := hp.mem_params hs hv hx
    obtain ⟨f, hf, hxf⟩ := List.mem_flatMap.1 hmem
    obtain ⟨w, t, hw, ht, hkind, -⟩ := (hp.params_nodup hf).2 x hxf
    cases hw.symm.trans hv
    exact ⟨hmem, hs.scope_le ht (by rw [hkind]; decide)⟩
  refine ⟨⟨s, hsc⟩, hle.trans hscopes, fun x v hv hx => ?_, fun x v hv hscope hx => .inl (.inl ?_)⟩
  · by_cases hold : x.toNat ≤ p.start.vars
    · exact (hparam hv hold).2.trans hscopes
    · have hnew := hm.new x v hv (by omega) hx
      simp only [List.not_mem_nil, false_and, false_or] at hnew
      exact hnew.2
  · refine (hparam hv ?_).1
    by_contra hnew
    have hin := hm.new x v hv (by omega) hx
    have hchain := le_of_mem_frameChain hp.wf hscope
    simp only [List.not_mem_nil, false_and, false_or] at hin
    omega

theorem Start.fits (hp : p.Typed) (hs : p.Scoped) {k : List Task} (h : Start p k) :
    ∃ sc, Fits p.table (exceptions p) (Live p.table []) sc k := by
  have hlive {m : Moment} {sc : ScopeId} (h : Point p.table (exceptions p) ∅ sc m) :
      Point p.table (exceptions p) (Live p.table []) sc m := h.mono (by simp)
  cases h with
  | main =>
    obtain ⟨s, hroot, hk⟩ := hp.wf.root
    have hstart := Point.start hp hs hroot (by rw [hk]; decide) hs.funcs.between
    refine ⟨Table.global, ⟨_, hlive hstart, hs.body, fun x hx => .inr ?_⟩, trivial⟩
    exact List.mem_append_right _ hx
  | @func f hf =>
    obtain ⟨g, hg, -, -, -, hscope⟩ := (hp.funcs f hf).signature
    obtain ⟨s, hscope', hk, -⟩ := hp.wf.funcs f.id g hg
    rw [hscope] at hscope'
    obtain ⟨m, hbody, hm⟩ := hs.funcs.at hf f.scope
    have hstart := Point.start hp hs hscope' (by rw [hk]; decide) hm
    refine ⟨f.scope, ⟨m, hlive hstart, hbody, fun x hx => .inr ?_⟩, trivial⟩
    exact List.mem_append_left _ (List.mem_flatMap.2 ⟨f, hf, hx⟩)

end

end Control

theorem Typing.check_wellScoped {f : File} {t : Tree} {p : Program} {T : Table} (hlen : f.content.length < 2 ^ 32)
    (ht : (Parsed.ofFile f).tree? 0 = some t) (hp : Typing.check t = .ok (.ok p, T)) : p.Typed ∧ p.Scoped := by
  obtain ⟨hshape, hweight⟩ := Parsed.tree_shape ht
  have hsmall : t.weight < 2 ^ 32 := hweight.trans_lt hlen
  obtain ⟨c, T1, hc, hsound⟩ := Typing.check_sound hshape hsmall
  obtain ⟨c', T2, hc', hscoped⟩ := Typing.program_scoped hshape hsmall
  cases hp.symm.trans hc
  cases hp.symm.trans hc'
  have htyped : p.Typed := (hsound p rfl).1.typed
  exact ⟨htyped, hscoped p rfl htyped⟩

namespace Control

/-- **Variables are declared before they are used.**  Whatever way control takes through the main program or
    a function, a variable that the next step needs was declared on the way, in the activation of its scope
    that still lasts, unless it is a parameter or is declared by the step of a loop. -/
theorem declared_before_use {f : File} {t : Tree} {p : Program} {T : Table} (hlen : f.content.length < 2 ^ 32)
    (ht : (Parsed.ofFile f).tree? 0 = some t) (hp : Typing.check t = .ok (.ok p, T)) {k k' : List Task}
    {task : Task} {as : List Act} (hstart : Start p k) (hpath : Path k as (task :: k')) :
    ∀ id ∈ task.uses, id.var ∉ p.params → id.var ∉ p.stepped → id.var ∈ Live p.table as := by
  obtain ⟨htyped, hscoped⟩ := Typing.check_wellScoped hlen ht hp
  obtain ⟨sc, hfits⟩ := hstart.fits htyped hscoped
  obtain ⟨sc', hfits'⟩ := hpath.fits htyped.wf hfits
  intro id hid hparam hstep
  rcases hfits'.uses id hid with (h | h) | h
  · exact absurd h hparam
  · exact absurd h hstep
  · exact h

def stepping : File where
  id := 0
  path := lit "stepping.wacc"
  flags := 0
  content := lit "begin for (int i = 0 ; i < 3 ; int j = 1) do println j done end"

/-- The loop of `stepping`: the condition is about the variable of the first statement, and the body prints
    the variable of the step. -/
def isStepping (p : Program) : Bool :=
  match p.body with
  | .for _ _ (.declare _ x _ _ _) (.binary _ _ _ (.var i) _) (.declare _ y _ _ _)
      (.mk _ _ (.print _ (.var j) _)) =>
    i.var == x && j.var == y && x != y && p.params == [] && p.stepped == [y]
  | _ => false

theorem stepping_accepted : ∃ p, stepping.program? = some p ∧ p.params = [] ∧
    ∃ site scope init cond step at' inner print newline i j, p.body =
      .for site scope init cond step (.mk at' inner (.print print (.var j) newline)) ∧
      isSimple init = true ∧ i ∈ cond.idents ∧ i.var ∉ p.stepped ∧ j.var ∉ init.direct := by
  have h : stepping.program?.any isStepping = true := by decide +kernel
  obtain ⟨p, hp, hshape⟩ := (Option.any_eq_true _ _).1 h
  unfold isStepping at hshape
  split at hshape
  case h_2 => cases hshape
  case h_1 hbody =>
    simp only [Bool.and_eq_true, beq_iff_eq, bne_iff_ne] at hshape
    obtain ⟨⟨⟨⟨hi, hj⟩, hne⟩, hparams⟩, hstepped⟩ := hshape
    refine ⟨p, hp, hparams, _, _, _, _, _, _, _, _, _, _, _, hbody, rfl,
      List.mem_append_left _ (List.mem_singleton_self _), ?_, ?_⟩
    · simp [hstepped, hi, hne]
    · simp [Stat.direct, hj, hne.symm]

theorem declared_before_use_stepping : ∃ t p T k as task k' id, stepping.content.length < 2 ^ 32 ∧
    (Parsed.ofFile stepping).tree? 0 = some t ∧ Typing.check t = .ok (.ok p, T) ∧ Start p k ∧
      Path k as (task :: k') ∧ id ∈ task.uses ∧ id.var ∉ p.params ∧ id.var ∉ p.stepped ∧
        id.var ∈ Live p.table as := by
  obtain ⟨p, hp, hparams, site, scope, init, cond, step, site', inner, site'', newline, i, j, hbody, hinit, hi,
    hstepped, -⟩ := stepping_accepted
  obtain ⟨t, T, ht, hcheck, -⟩ := File.program?_eq_some hp
  have hlen : stepping.content.length < 2 ^ 32 := by decide +kernel
  have hstart : Start p [.run p.body] := .main
  rw [hbody] at hstart
  obtain ⟨as, k', hpath⟩ : ∃ as k', Path [.run (.for site scope init cond step
      (.mk site' inner (.print site'' (.var j) newline)))] as (.loop cond _ [step] :: k') :=
    ⟨_, _, .cons .for (.cons (.simple hinit) .nil)⟩
  have hparam : i.var ∉ p.params := by simp [hparams]
  exact ⟨t, p, T, _, _, _, _, i, hlen, ht, hcheck, hstart, hpath, hi, hparam, hstepped,
    declared_before_use hlen ht hcheck hstart hpath i hi hparam hstepped⟩

theorem used_before_declared : ∃ p k as task k' id, stepping.program? = some p ∧ Start p k ∧
    Path k as (task :: k') ∧ id ∈ task.uses ∧ id.var ∉ p.params ∧ id.var ∉ Live p.table as := by
  obtain ⟨p, hp, hparams, site, scope, init, cond, step, site', inner, site'', newline, i, j, hbody, hinit, -, -,
    hj⟩ := stepping_accepted
  have hstart : Start p [.run p.body] := .main
  rw [hbody] at hstart
  refine ⟨p, _, _, _, _, j, hp, hstart, .cons .for (.cons (.simple hinit) (.cons .again (.cons .block .nil))),
    List.mem_singleton_self _, by simp [hparams], ?_⟩
  rintro ⟨before, at', name, type, value, after, v, has, -⟩
  have hmem : Act.did (.declare at' j.var name type value) ∈ before ++ .did (.declare at' j.var name type value) :: after :=
    by simp
  rw [← has] at hmem
  obtain rfl : Stat.declare at' j.var name type value = init := by simpa using hmem
  exact hj (List.mem_singleton_self _)

end Control

end Wacc
