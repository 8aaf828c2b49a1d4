/-
  What the stack holds between statements.

  At the bottom lies the return address, above it in a function the parameters; below come the variables
  of the open scopes.  A `Layout` says so byte by byte.
-/
import Wacc.Proofs.Arm.Piles
import Wacc.Proofs.Arm.Program

namespace Wacc.Arm

variable {T : Table} {sc : ScopeId}

/-- The open scopes with their depths, the depth now, and what the bytes from the stack pointer upwards
    are for. -/
inductive Layout (T : Table) : List (ScopeId × Int) → ScopeId → Int → List Held → Prop
  | main {s} : T.scope? Table.global = some s →
    Layout T [(Table.global, 4)] Table.global (4 + s.footprint.toNat)
      (List.replicate s.footprint.toNat (.vars Table.global) ++ List.replicate 4 .link)
  | func {f s} : T.scope? f = some s → s.kind = .function →
    Layout T [(f, -s.footprint.toNat)] f 4
      (List.replicate 4 .link ++ List.replicate s.footprint.toNat (.vars f))
  | block {es sc i d h s} :
    Layout T es sc d h → T.scope? i = some s → s.kind = .block → s.parent = sc →
    Layout T ((i, d) :: es) i (d + s.footprint.toNat) (List.replicate s.footprint.toNat (.vars i) ++ h)

theorem Layout.frames {es : List (ScopeId × Int)} {d : Int} {h : List Held} (hl : Layout T es sc d h) :
    Frames T es sc d := by
  induction hl with
  | main hs => exact .main hs
  | func hs hk => exact .func hs hk
  | block _ hs hk hp ih => exact .block ih hs hk hp

def Lookup.Laid (T : Table) (q : Lookup) : Prop :=
  ∃ sc s h, Layout T s.entry sc s.depth h ∧ q.On T s h

namespace Noted

def At (T : Table) (sc : ScopeId) (s : Stage) (h : List Held) : Prop := Layout T s.entry sc s.depth h

/-- The step finds a layout and leaves it; it asks for variables on top of layouts only. -/
def Lays {α : Type} (T : Table) (sc : ScopeId) (x : Noted α) (y : Gen α) : Prop :=
  ∀ s h, At T sc s h → Follows x y T s h fun _ s' h' ls =>
    (s'.depth = s.depth ∧ s'.entry = s.entry ∧ h' = h) ∧ ∀ q ∈ ls, q.Laid T

namespace Lays

variable {α β : Type} {x : Noted α} {y : Gen α}

theorem bind {f : α → Noted β} {g : α → Gen β} (hx : Lays T sc x y) (hf : ∀ a, Lays T sc (f a) (g a)) :
    Lays T sc (x >>= f) (y >>= g) := by
  intro s h hat
  refine (hx s h hat).bind ?_
  rintro a s1 h1 ls ⟨⟨hd, he, rfl⟩, hls⟩
  have hat1 : At T sc s1 h1 := by
    unfold At
    rw [hd, he]
    exact hat
  refine (hf a s1 h1 hat1).weaken ?_
  rintro b s2 h2 more ⟨⟨hd', he', hh'⟩, hmore⟩
  exact ⟨⟨hd'.trans hd, he'.trans he, hh'⟩, List.forall_mem_append.2 ⟨hls, hmore⟩⟩

theorem ofPiles (hx : Piles T [] [] x y) : Lays T sc x y := by
  intro s h hat
  have hnone : Pile [] s h s h := ⟨by simp, rfl, rfl, nofun⟩
  refine (hx s h s h hnone).weaken ?_
  rintro _ s' h' ls ⟨hp, hls⟩
  refine ⟨⟨by simpa using hp.depth, hp.entry, hp.held⟩, fun q hq => ?_⟩
  exact ⟨sc, s, h, hat, hls q hq⟩

theorem plain (hy : y.Plain 0) : Lays T sc (Noted.plain y) y := ofPiles (.plain hy)

theorem lines (ls : List Line) : Lays T sc (Noted.plain (Gen.lines ls)) (Gen.lines ls) := ofPiles (.lines ls)

theorem pure : Lays T sc (Pure.pure ()) (Pure.pure ()) := ofPiles (.pure ())

theorem ite {c : Prop} [Decidable c] {x' : Noted α} {y' : Gen α} (hx : Lays T sc x y) (hx' : Lays T sc x' y') :
    Lays T sc (if c then x else x') (if c then y else y') := by
  split_ifs
  · exact hx
  · exact hx'

end Lays

/-! ## Scopes -/

variable {i : ScopeId} {r : Scope}

theorem footprint_follows {s : Stage} {h : List Held} (hr : T.scope? i = some r) :
    Follows (Noted.plain (Gen.footprint i)) (Gen.footprint i) T s h fun n s' h' ls =>
      n = r.footprint.toNat ∧ s' = s ∧ h' = h ∧ ls = [] := by
  refine .plain fun a out s' hrun => ?_
  rw [Gen.footprint_eq hr] at hrun
  cases hrun
  exact ⟨rfl, rfl, rfl, rfl⟩

theorem footprint_bind {α : Type} (i : ScopeId) (x : Gen α) : (Gen.footprint i >>= fun _ => x) = x := by
  funext t s
  exact Gen.run_bind rfl

theorem enter_follows {s : Stage} {h : List Held} (hr : T.scope? i = some r) :
    Follows (enter i) (Gen.enter i) T s h fun _ s' h' ls => s'.depth = s.depth + r.footprint.toNat ∧
      s'.entry = (i, s.depth) :: s.entry ∧ h' = List.replicate r.footprint.toNat (.vars i) ++ h ∧ ls = [] := by
  rw [← footprint_bind i (Gen.enter i)]
  refine (footprint_follows hr).bind ?_
  rintro _ _ _ _ ⟨rfl, rfl, rfl, rfl⟩
  refine .hold fun out s' hrun => ?_
  rw [Gen.enter, Gen.run_bind rfl, Gen.run_bind (Gen.footprint_eq hr)] at hrun
  obtain ⟨hd, he⟩ := Gen.grow_deepens _ _ _ _ _ _ hrun
  exact ⟨hd, he, rfl, rfl⟩

theorem leave_follows {s : Stage} {h : List Held} {d : Int} {es : List (ScopeId × Int)} (hr : T.scope? i = some r)
    (hd : s.depth = d + r.footprint.toNat) (hes : s.entry = (i, d) :: es)
    (hfilter : es.filter (fun e => e.1 != i) = es) :
    Follows (leave i) (Gen.leave i) T s (List.replicate r.footprint.toNat (.vars i) ++ h) fun _ s' h' ls =>
      s'.depth = d ∧ s'.entry = es ∧ h' = h ∧ ls = [] := by
  rw [← footprint_bind i (Gen.leave i)]
  refine (footprint_follows hr).bind ?_
  rintro _ _ _ _ ⟨rfl, rfl, rfl, rfl⟩
  refine .hold fun out s' hrun => ?_
  rw [Gen.leave, Gen.run_bind (Gen.footprint_eq hr)] at hrun
  obtain ⟨_, _, s1, _, hshrink, hrun, -⟩ := Gen.bind_eq_ok hrun
  obtain ⟨hd1, he1⟩ := Gen.shrink_deepens _ _ _ _ _ _ hshrink
  rw [Gen.run_bind rfl] at hrun
  split_ifs at hrun
  · cases hrun
  · cases hrun
    refine ⟨by rw [hd1, hd]; ring, ?_, List.drop_left' (by simp), rfl⟩
    simp only [he1, hes, List.filter_cons, bne_self_eq_false, Bool.false_eq_true, if_false, hfilter]

theorem Lays.inBlock {x : Noted Unit} {y : Gen Unit} (hw : T.Wf) (hb : T.IsBlock sc i) (hx : Lays T i x y) :
    Lays T sc (do enter i; x; leave i) (do Gen.enter i; y; Gen.leave i) := by
  intro s h hat
  have hfilter := hat.frames.filter_entry hw hb
  obtain ⟨r, hr, hk, hp⟩ := hb
  refine (enter_follows hr).bind ?_
  rintro _ s1 _ _ ⟨hd1, he1, rfl, rfl⟩
  have hat1 : At T i s1 (List.replicate r.footprint.toNat (.vars i) ++ h) := by
    unfold At
    rw [hd1, he1]
    exact .block hat hr hk hp
  refine (hx s1 _ hat1).bind ?_
  rintro _ s2 _ ls ⟨⟨hd2, he2, rfl⟩, hls⟩
  refine (leave_follows hr (hd2.trans hd1) (he2.trans he1) hfilter).weaken ?_
  rintro _ s3 _ _ ⟨hd3, he3, rfl, rfl⟩
  exact ⟨⟨hd3, he3, rfl⟩, by simpa using hls⟩

/-! ## Statements -/

theorem expr_lays (e : Expr) (rs : List Reg) : Lays T sc (expr e rs) (Gen.expr e rs) := .ofPiles (expr_piles e rs [])

theorem argument_lays (e : Expr) : Lays T sc (argument e) (Gen.argument e) :=
  .bind (expr_lays e _) fun _ => .lines _

theorem jumpUnless_lays (e : Expr) (l : Label) : Lays T sc (jumpUnless e l) (Gen.jumpUnless e l) :=
  .bind (expr_lays e _) fun _ => .bind (.lines _) fun _ => .lines _

theorem ret_lays (o : ScopeId) (e : Expr) : Lays T sc (ret o e) (Gen.ret o e) := by
  refine .bind (argument_lays e) fun _ => .bind (.plain (.andThen .table fun _ => .pure _)) fun n =>
    .bind (.plain .stage) fun s => ?_
  have hpop : Lays T sc (do Gen.moveStack .add n; Gen.emit (.pop [.pc]) : Noted Unit)
      (do Gen.moveStack .add n; Gen.emit (.pop [.pc])) := .bind (.lines _) fun _ => .lines _
  exact .ite (.bind (.plain (.fail _)) fun _ => hpop) hpop

theorem loop_lays (c : Expr) {x : Noted Unit} {y : Gen Unit} (hx : Lays T sc x y) : Lays T sc (do
    let top ← Gen.newPlace
    let stop ← Gen.newPlace
    Gen.label top
    jumpUnless c stop
    x
    Gen.emit (.branch .always top)
    Gen.label stop) (do
    let top ← Gen.newPlace
    let stop ← Gen.newPlace
    Gen.label top
    Gen.jumpUnless c stop
    y
    Gen.emit (.branch .always top)
    Gen.label stop) :=
  .bind (.plain .newPlace) fun _ => .bind (.plain .newPlace) fun _ => .bind (.lines _) fun _ =>
    .bind (jumpUnless_lays c _) fun _ => .bind hx fun _ => .bind (.lines _) fun _ => .lines _

theorem read_lays (site : Site) (l : Target) : Lays T sc (stat (.read site l)) (Gen.stat (.read site l)) := by
  rw [stat, Gen.stat]
  cases Gen.reader? l.type with
  | none => exact .plain (.fail _)
  | some r => exact .bind (.ofPiles (address_piles l _)) fun _ => .bind (.lines _) fun _ => .plain (.callRoutine _ _)

theorem stats_lays {ss : List Stat} (h : ∀ b ∈ ss, Lays T sc (stat b) (Gen.stat b)) :
    Lays T sc (stats ss) (Gen.stats ss) := by
  induction ss with
  | nil => rw [stats, Gen.stats]; exact .pure
  | cons b ss ih =>
    obtain ⟨hb, hss⟩ := List.forall_mem_cons.1 h
    exact .bind hb fun _ => ih hss

theorem pure_bind' {α β : Type} (a : α) (f : α → Gen β) : (pure a : Gen α) >>= f = f a := by
  funext t s
  exact Gen.run_bind rfl

theorem bind_apply {α β : Type} (x : Noted α) (f : α → Noted β) (h : List Held) :
    (x >>= f) h = x h >>= fun r => f r.1 r.2.1 >>= fun q => Pure.pure (q.1, q.2.1, r.2.2 ++ q.2.2) := rfl

theorem bind_assoc {α β γ : Type} (x : Noted α) (f : α → Noted β) (g : β → Noted γ) :
    x >>= f >>= g = x >>= fun a => f a >>= g := by
  funext h
  simp only [bind_apply, Gen.bind_assoc, pure_bind', List.append_assoc]

theorem block_lays {b : Stat} (hw : T.Wf) (hi : T.IsBlock sc i) (hb : Lays T i (stat b) (Gen.stat b)) (site : Site) :
    Lays T sc (block (.mk site i b)) (Gen.block (.mk site i b)) := by
  exact hb.inBlock hw hi

/-- **Statements leave the stack as they find it**, and ask for variables on top of layouts only. -/
theorem stat_lays {b : Stat} (hw : T.Wf) (hb : b.Typed T sc) : Lays T sc (stat b) (Gen.stat b) := by
  induction hb with
  | skip => rw [stat, Gen.stat]; exact .pure
  | declare =>
    exact .bind (.ofPiles (value_piles _ _ _)) fun _ => .ofPiles (storeVar_piles _ _)
  | assign =>
    exact .bind (.ofPiles (value_piles _ _ _)) fun _ => .ofPiles (assign_piles _ _ _)
  | read => exact read_lays _ _
  | free =>
    exact .bind (argument_lays _) fun _ => .ite (.plain (.callRoutine _ _)) (.plain (.callExtern _))
  | ret => rw [stat, Gen.stat]; exact ret_lays _ _
  | exit =>
    exact .bind (argument_lays _) fun _ => .plain (.callExtern _)
  | print =>
    exact .bind (argument_lays _) fun _ => .bind (.plain (.callRoutine _ _)) fun _ =>
      .ite (.plain (.callRoutine _ _)) .pure
  | block hb _ ih =>
    exact block_lays hw hb ih _
  | ifThen _ _ hb _ ih =>
    exact .bind (.plain .newPlace) fun _ => .bind (jumpUnless_lays _ _) fun _ => .bind (block_lays hw hb ih _) fun _ =>
      .lines _
  | ifElse _ _ hb _ hb' _ ih ih' =>
    rw [stat, Gen.stat]
    exact .bind (.plain .newPlace) fun _ => .bind (.plain .newPlace) fun _ => .bind (jumpUnless_lays _ _) fun _ =>
      .bind (block_lays hw hb ih _) fun _ => .bind (.lines _) fun _ => .bind (.lines _) fun _ =>
      .bind (block_lays hw hb' ih' _) fun _ => .lines _
  | «while» _ _ hb _ ih =>
    rw [stat, Gen.stat]
    exact loop_lays _ (block_lays hw hb ih _)
  | @«for» _ _ _ _ site' _ _ _ c hh _ _ _ _ hb _ ihi ihs ihb =>
    rw [stat, Gen.stat]
    have hall := (ihi.bind fun _ => loop_lays c ((block_lays hw hb ihb site').bind fun _ => ihs)).inBlock hw hh
    simp only [bind_assoc, Gen.bind_assoc] at hall
    exact hall
  | seq _ ih => rw [stat, Gen.stat]; exact stats_lays ih

/-! ## Programs -/

section
variable {s : Stage} {h : List Held}

theorem Follows.silent {α : Type} {y : Gen α} : Follows (Noted.plain y) y T s h fun _ _ _ ls => ls = [] :=
  .plain fun _ _ _ _ => rfl

theorem Follows.called {x : Noted Unit} {y : Gen Unit} {Q : Unit → Stage → List Held → List Lookup → Prop}
    (hx : ∀ s', s'.depth = s.depth + 4 → s'.entry = s.entry → Follows x y T s' (List.replicate 4 .link ++ h) Q)
    (l : Label) : Follows (do Gen.label l; pushReg .lr .link; x) (do Gen.label l; Gen.pushReg .lr; y) T s h Q := by
  refine .bind (P := fun _ s' h' ls => s' = s ∧ h' = h ∧ ls = []) (.plain ?_) ?_
  · rintro _ _ _ ⟨⟩
    exact ⟨rfl, rfl, rfl⟩
  rintro _ _ _ _ ⟨rfl, rfl, rfl⟩
  refine .bind (P := fun _ s' h' ls => (s'.depth = _ ∧ s'.entry = _) ∧ h' = List.replicate 4 .link ++ _ ∧ ls = [])
    (.hold fun _ _ hrun => ⟨(Gen.Plain.law.pushReg .lr).deepens _ _ _ _ _ hrun, rfl, rfl⟩) ?_
  rintro _ s2 _ _ ⟨⟨hd, he⟩, rfl, rfl⟩
  exact hx s2 hd he

theorem mainBody_lookups {body : Stat} (hw : T.Wf) (hb : body.Typed T Table.global) (hd : s.depth = 0)
    (he : s.entry = []) :
    Follows (mainBody body) (Gen.mainBody body) T s [] fun _ _ _ ls => ∀ q ∈ ls, q.Laid T := by
  obtain ⟨r, hr, -⟩ := hw.root
  refine .called (fun s1 hd1 he1 => ?_) _
  refine (enter_follows hr).bind ?_
  rintro _ s2 _ _ ⟨hd2, he2, rfl, rfl⟩
  have hat : At T Table.global s2
      (List.replicate r.footprint.toNat (.vars Table.global) ++ (List.replicate 4 .link ++ [])) := by
    unfold At
    rw [hd2, he2, he1, he, hd1, hd, List.append_nil, zero_add]
    exact .main hr
  refine (stat_lays hw hb s2 _ hat).bind ?_
  rintro _ s3 _ ls ⟨⟨hd3, he3, rfl⟩, hls⟩
  refine (leave_follows hr (hd3.trans hd2) (he3.trans he2) (by rw [he1, he]; rfl)).bind ?_
  rintro _ _ _ _ ⟨-, -, -, rfl⟩
  refine Follows.silent.bind ?_
  rintro _ _ _ _ rfl
  refine Follows.silent.bind ?_
  rintro _ _ _ _ rfl
  refine Follows.silent.weaken ?_
  rintro _ _ _ _ rfl
  simpa using hls

theorem function_lookups {f : Func} (hw : T.Wf) (hf : f.Typed T) :
    Follows (function f) (Gen.function f) T s h fun _ _ _ ls => ∀ q ∈ ls, q.Laid T := by
  obtain ⟨g, hg, -, -, -, hscope⟩ := hf.signature
  obtain ⟨r, hr, hk, -⟩ := hw.funcs f.id g hg
  rw [hscope] at hr
  have hblock : Lays T f.scope (block f.body) (Gen.block f.body) := by
    obtain ⟨hb, hbody⟩ := hf.body
    cases hfb : f.body with
    | mk site i b =>
      rw [hfb] at hb hbody
      exact block_lays hw hb (stat_lays hw hbody) site
  refine (footprint_follows hr).bind ?_
  rintro _ s0 h0 _ ⟨rfl, rfl, rfl, rfl⟩
  refine .bind (P := fun _ s' h' ls => (s'.depth = 0 ∧ s'.entry = [(f.scope, -(r.footprint.toNat : Int))]) ∧
    h' = List.replicate r.footprint.toNat (.vars f.scope) ∧ ls = []) (.hold ?_) ?_
  · rintro _ _ ⟨⟩
    exact ⟨⟨rfl, rfl⟩, rfl, rfl⟩
  rintro _ s1 _ _ ⟨⟨hd1, he1⟩, rfl, rfl⟩
  refine .called (fun s2 hd2 he2 => ?_) _
  have hat : At T f.scope s2
      (List.replicate 4 .link ++ List.replicate r.footprint.toNat (.vars f.scope)) := by
    unfold At
    rw [hd2, he2, he1, hd1, zero_add]
    exact .func hr hk
  refine (hblock s2 _ hat).bind ?_
  rintro _ _ _ ls ⟨-, hls⟩
  refine Follows.silent.weaken ?_
  rintro _ _ _ _ rfl
  simpa using hls

theorem functions_lookups {fs : List Func} (hw : T.Wf) (hfs : ∀ f ∈ fs, f.Typed T) :
    Follows (functions fs) (Gen.functions fs) T s h fun _ _ _ ls => ∀ q ∈ ls, q.Laid T := by
  induction fs generalizing s h with
  | nil =>
    rintro _ _ _ ⟨⟩
    exact ⟨h, [], rfl, nofun⟩
  | cons f fs ih =>
    obtain ⟨hf, hfs⟩ := List.forall_mem_cons.1 hfs
    refine (function_lookups hw hf).bind fun _ s1 h1 ls hls => ?_
    exact (ih hfs).weaken fun _ _ _ more hmore => List.forall_mem_append.2 ⟨hls, hmore⟩

end

/-- **In a well-typed program the place of a variable is asked for on top of layouts only**, and the notes change
    nothing else. -/
theorem program_lookups {p : Program} (hw : p.table.Wf) (hb : p.body.Typed p.table Table.global)
    (hfs : ∀ f ∈ p.funcs, f.Typed p.table) :
    Follows (program p) (Gen.program p) p.table {} [] fun _ _ _ ls => ∀ q ∈ ls, q.Laid p.table := by
  refine (mainBody_lookups hw hb rfl rfl).bind fun _ s1 h1 ls hls => ?_
  refine (functions_lookups hw hfs).bind fun _ s2 h2 more hmore => ?_
  refine Follows.silent.bind ?_
  rintro s3 _ _ _ rfl
  refine Follows.silent.weaken ?_
  rintro _ _ _ _ rfl
  simpa [or_imp, forall_and] using ⟨hls, hmore⟩

end Noted

end Wacc.Arm
