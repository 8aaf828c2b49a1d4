/-
  Callers and callees agree on arguments.

  A caller pushes the arguments in order, each by the size of its own type, below the padding.  A callee finds its
  parameters by their offsets, which add up the sizes of the parameters' types.  Seen from the stack pointer at the
  call, both give the same place.
-/
import Wacc.Proofs.Arm.Moves
import Wacc.Proofs.Arm.Slots
import Wacc.Proofs.Semantics.Control
import Wacc.Proofs.Typing.Compatible

namespace Wacc

open Arm (Gen Stage Line Reg Instr Noted Held)
open Arm.Gen (argBytes argBytes_cons callPadding callCode widthOf)

/-! ## Call sites -/

/-- The values that the statements of a program put into variables and other places. -/
def Program.values (p : Program) : List Value := p.parts.filterMap Stat.value?

theorem Program.Typed.value {p : Program} (h : p.Typed) {v : Value} (hv : v ∈ p.values) :
    ∃ sc, v.Typed p.table sc := by
  obtain ⟨q, hq, hval⟩ := List.mem_filterMap.1 hv
  obtain ⟨sc, htyped⟩ : ∃ sc, q.Typed p.table sc := by
    rw [Program.parts, List.mem_append, List.mem_flatMap] at hq
    obtain hq | ⟨f, hf, hq⟩ := hq
    · obtain ⟨sc, hq, -⟩ := h.body.of_mem_parts hq
      exact ⟨sc, hq⟩
    · cases hb : f.body with
      | mk site i b =>
        obtain ⟨-, hbody⟩ := (h.funcs f hf).body
        rw [hb] at hbody hq
        obtain ⟨sc, hq, -⟩ := Stat.Typed.of_mem_parts hbody (by rwa [Block.parts] at hq)
        exact ⟨sc, hq⟩
  cases htyped with
  | declare _ _ _ hv => exact ⟨sc, Option.some.inj hval ▸ hv⟩
  | assign _ hv => exact ⟨sc, Option.some.inj hval ▸ hv⟩
  | _ => cases hval

/-! ## Parameters -/

variable {T : Table} {scope : ScopeId} {base top : Nat} {ps : List VarId} {es : List Expr}

theorem argBytes_append (as bs : List Expr) : argBytes (as ++ bs) = argBytes as + argBytes bs := by
  induction as with
  | nil => simp [argBytes]
  | cons a as ih => rw [List.cons_append, argBytes_cons, argBytes_cons, ih, Nat.add_assoc]

theorem Table.LaidFrom.top_eq (hl : LaidFrom T scope base ps top) (h : List.Forall₂ (ArgumentOf T) ps es) :
    top = base + argBytes es := by
  induction h generalizing base with
  | nil => exact hl.symm
  | cons ha _ ih =>
    obtain ⟨v, hv, -, hoff, hl⟩ := hl
    obtain ⟨w, hw, hacc⟩ := ha
    obtain rfl : v = w := Option.some.inj (hv.symm.trans hw)
    rw [ih hl, hoff, Ty.size_of_accepts hacc, argBytes_cons, Nat.add_assoc]

/-- The parameter for an argument ends where the arguments up to it end. -/
theorem Table.LaidFrom.param {before after : List Expr} {e : Expr} (hl : LaidFrom T scope base ps top)
    (h : List.Forall₂ (ArgumentOf T) ps (before ++ e :: after)) : ∃ x v, ps[before.length]? = some x ∧
      T.var? x = some v ∧ v.scope = scope ∧ v.type.size = e.type.size ∧
      v.offset.toNat = base + argBytes before + e.type.size.toNat := by
  induction before generalizing base ps with
  | nil =>
    cases h with
    | cons ha _ =>
      obtain ⟨v, hv, hs, hoff, -⟩ := hl
      obtain ⟨w, hw, hacc⟩ := ha
      obtain rfl : v = w := Option.some.inj (hv.symm.trans hw)
      exact ⟨_, v, rfl, hv, hs, Ty.size_of_accepts hacc, by rw [hoff, Ty.size_of_accepts hacc]; rfl⟩
  | cons a before ih =>
    cases h with
    | cons ha h =>
      obtain ⟨v, hv, -, hoff, hl⟩ := hl
      obtain ⟨w, hw, hacc⟩ := ha
      obtain rfl : v = w := Option.some.inj (hv.symm.trans hw)
      obtain ⟨x, u, hx, hu, hs, hsize, huoff⟩ := ih hl h
      refine ⟨x, u, hx, hu, hs, hsize, ?_⟩
      rw [huoff, hoff, Ty.size_of_accepts hacc, argBytes_cons]
      omega

namespace Arm

/-! ## Arguments -/

/-- The bytes pushed at the branch of a call, where `depth` bytes are pushed before it. -/
def atCall (depth : Int) (es : List Expr) : Int := depth + callPadding depth es + argBytes es

/-- The code `pushes`, from the stage `s` on, pushes the arguments `before` and then `e`, with which `low` bytes are
    pushed. -/
def Passes (T : Table) (d : Reg) (rest : List Reg) (s : Stage) (pushes : List Line) (before : List Expr) (e : Expr)
    (low : Int) : Prop :=
  ∃ o1 o2 o3 s1 s2, Gen.args d rest before T s = .ok ((), o1, s1) ∧ Gen.expr e (d :: rest) T s1 = .ok ((), o2, s2) ∧
    pushes = o1 ++ (o2 ++ .instr (.pushStore (widthOf e.type) d e.type.size.toNat) :: o3) ∧
    low = s2.depth + e.type.size.toNat

variable {d : Reg} {rest : List Reg} {s s' : Stage} {out : List Line}

theorem passes_of_args {before after : List Expr} {e : Expr}
    (h : Gen.args d rest (before ++ e :: after) T s = .ok ((), out, s')) :
    Passes T d rest s out before e (s.depth + argBytes before + e.type.size.toNat) := by
  induction before generalizing s out with
  | nil =>
    obtain ⟨_, o1, s1, _, hexpr, hrest, rfl⟩ := Gen.bind_eq_ok h
    obtain ⟨_, o2, s2, o3, hpush, -, rfl⟩ := Gen.bind_eq_ok hrest
    obtain ⟨hd, -, -⟩ := Gen.Law.expr Gen.Plain.law e _ T s _ o1 s1 hexpr
    cases hpush
    exact ⟨[], o1, _, s, s1, rfl, hexpr, rfl, by rw [hd]; simp [argBytes]⟩
  | cons a before ih =>
    obtain ⟨_, o1, s1, _, hexpr, hrest, rfl⟩ := Gen.bind_eq_ok h
    obtain ⟨_, o2, s2, o3, hpush, hargs, rfl⟩ := Gen.bind_eq_ok hrest
    obtain ⟨hd1, -, -⟩ := Gen.Law.expr Gen.Plain.law a _ T s _ o1 s1 hexpr
    obtain ⟨hd2, -, -⟩ := Gen.Law.pushValue Gen.Plain.law d a.type T s1 _ o2 s2 hpush
    obtain ⟨p1, p2, p3, t1, t2, hbefore, he, rfl, hlow⟩ := ih hargs
    refine ⟨o1 ++ (o2 ++ p1), p2, p3, t1, t2, ?_, he, by simp, ?_⟩
    · simp only [Gen.args, bind, hexpr, hpush, hbefore]
    · rw [← hlow, argBytes_cons]
      omega

/-! ## Programs -/

/-- In the function with the scope `sc`, as the question `q` finds it: the `n` bytes of the parameters start where the
    stack pointer was at the call, and the return address lies below. -/
structure Lookup.Inside (q : Lookup) (sc : ScopeId) (n : Nat) : Prop where
  deep : 4 ≤ q.stage.depth
  link : ∀ i : Nat, q.held[i]? = some .link ↔ q.stage.depth - 4 ≤ i ∧ i < q.stage.depth
  params : ∀ i : Nat, q.stage.depth ≤ i → i < q.stage.depth + n → q.held[i]? = some (.vars sc)

theorem Lookup.Laid.inside {q : Lookup} {r : Scope} (hw : T.Wf) (hq : q.Laid T) (hr : T.scope? scope = some r)
    (hk : r.kind = .function) (hopen : (q.stage.entry.lookup scope).isSome) :
    q.stage.entry.lookup scope = some (-(r.footprint.toNat : Int)) ∧ q.Inside scope r.footprint.toNat := by
  have hlinks := hq.links
  obtain ⟨sc, s, h, hl, -, hentry, top, hheld, hdepth, -⟩ := hq
  obtain ⟨base, hbase⟩ := Option.isSome_iff_exists.1 hopen
  obtain ⟨r', a, b, hr', rfl, hlen, hfunc⟩ := hl.owns hw (hentry ▸ hbase)
  obtain rfl : r = r' := Option.some.inj (hr.symm.trans hr')
  rw [if_pos hk] at hfunc
  have hfour := hl.frames.four_le
  refine ⟨hfunc ▸ hbase, by omega, hlinks, fun i hlo hhi => ?_⟩
  rw [hheld, List.append_assoc a, ← List.append_assoc top, List.getElem?_append_right (by simp; omega),
    getElem?_replicate_append, if_pos (by simp; omega)]

/-- The code `out` of a call pushes each argument to where the questions `asked` in the called function find the
    parameter for it, with the same width. -/
structure Agrees (T : Table) (g : Signature) (asked : List Lookup) (name : Text) (es : List Expr) (d : Reg)
    (rest : List Reg) (s : Stage) (out : List Line) (s' : Stage) : Prop where
  aligned : 0 ≤ callPadding s.depth es ∧ atCall s.depth es % 8 = 0
  back : s'.depth = s.depth ∧ s'.entry = s.entry
  code : ∃ pushes, out = callCode name es d s.depth pushes ∧
    ∀ before e after, es = before ++ e :: after → ∃ x v low, g.params[before.length]? = some x ∧ T.var? x = some v ∧
      v.scope = g.scope ∧ widthOf v.type = widthOf e.type ∧
      Passes T d rest { s with depth := s.depth + callPadding s.depth es } pushes before e low ∧
      -- below the padding
      s.depth + callPadding s.depth es + e.type.size.toNat ≤ low ∧ low ≤ atCall s.depth es ∧
      -- at every depth in the called function
      ∀ q ∈ asked, (q.stage.entry.lookup g.scope).isSome → ∀ n : Nat,
        Gen.slot x T { q.stage with depth := n } =
          .ok ((n + (atCall s.depth es - low), v.type), [], { q.stage with depth := n })

/-- **Callers and callees agree on arguments.** -/
theorem arguments_agree (f : File) (p : Program) (hlen : f.content.length < 2 ^ 32) (hp : f.program? = some p) :
    ∃ held asked out s, Noted.program p [] p.table {} = .ok (((), held, asked), out, s) ∧
      Gen.program p p.table {} = .ok ((), out, s) ∧
      ∀ site t id name es, .call site t id name es ∈ p.values → ∃ g, p.table.func? id = some g ∧ g.name = name ∧
        g.params.length = es.length ∧
        (∀ q ∈ asked, (q.stage.entry.lookup g.scope).isSome → q.Inside g.scope (argBytes es)) ∧
        ∀ d rest u code u', Gen.callFunc name es d rest p.table u = .ok ((), code, u') →
          Agrees p.table g asked name es d rest u code u' := by
  obtain ⟨⟨n, hn, hbounded⟩, -⟩ := File.bounded_of_program hlen hp
  have htyped := hbounded.typed
  obtain ⟨_, out, s, hrun, -⟩ := Gen.program_closed hbounded hn
  obtain ⟨held, asked, hnoted, hlaid⟩ := Noted.program_lookups htyped.wf htyped.body htyped.funcs _ _ _ hrun
  refine ⟨held, asked, out, s, hnoted, hrun, fun site t id name es hcall => ?_⟩
  obtain ⟨sc, hv⟩ := htyped.value hcall
  obtain ⟨g, hg, rfl, hargs⟩ : ∃ g, p.table.func? id = some g ∧ g.name = name ∧
      List.Forall₂ (ArgumentOf p.table) g.params es := by
    cases hv with
    | item hi => cases hi
    | call hg _ hargs => exact ⟨_, hg, rfl, hargs⟩
  obtain ⟨r, hr, hparams⟩ := htyped.laid id g hg
  obtain ⟨r', hr', hk, -⟩ := htyped.wf.funcs id g hg
  obtain rfl : r = r' := Option.some.inj (hr.symm.trans hr')
  have hsize : r.footprint.toNat = argBytes es := by rw [hparams.top_eq hargs, Nat.zero_add]
  have hin : ∀ q ∈ asked, (q.stage.entry.lookup g.scope).isSome →
      q.stage.entry.lookup g.scope = some (-(argBytes es : Int)) ∧ q.Inside g.scope (argBytes es) :=
    fun q hq hopen => hsize ▸ (hlaid q hq).inside htyped.wf hr hk hopen
  refine ⟨g, hg, rfl, hargs.length_eq, fun q hq hopen => (hin q hq hopen).2, fun d rest u code u' hcode => ?_⟩
  obtain ⟨pushes, s1, hpushes, rfl, -, hd, he⟩ := Gen.callFunc_parts hcode
  obtain ⟨hpad, -, haligned⟩ := Gen.padding_spec (u.depth + argBytes es)
  refine ⟨⟨hpad, ?_⟩, ⟨hd, he⟩, pushes, rfl, fun before e after hes => ?_⟩
  · rw [atCall, callPadding]
    omega
  · subst hes
    obtain ⟨x, v, hx, hv, hscope, hsame, hoff⟩ := hparams.param hargs
    have hbytes := argBytes_append before (e :: after)
    rw [argBytes_cons] at hbytes
    refine ⟨x, v, _, hx, hv, hscope, by rw [widthOf, hsame, widthOf], passes_of_args hpushes, ?_, ?_,
      fun q hq hopen n => ?_⟩
    · dsimp only
      omega
    · rw [atCall]
      dsimp only
      omega
    rw [Gen.slot_eq hv (hscope ▸ (hin q hq hopen).1) (by dsimp only; omega), atCall]
    congr 3
    dsimp only
    omega

/-- The arguments of the calls are a word and two bytes; in the main program nine bytes are pushed before them. -/
theorem arguments_agree_crowded : ∃ p held asked out s, crowded.program? = some p ∧
    Noted.program p [] p.table {} = .ok (((), held, asked), out, s) ∧
    ∃ site t id name es g code u u', .call site t id name es ∈ p.values ∧ argBytes es = 6 ∧
      p.table.func? id = some g ∧ u.depth = 9 ∧ Gen.callFunc name es .r4 [] p.table u = .ok ((), code, u') ∧
      Agrees p.table g asked name es .r4 [] u code u' := by
  let u : Stage := { depth := 9, entry := [(Table.global, 4)] }
  have hcalls : (crowded.program?.any fun p => p.values.any fun v => v.casesOn (fun _ => false) (fun _ _ _ => false)
      (fun _ _ _ => false) (fun _ _ _ _ => false) fun _ _ _ name es =>
        argBytes es = 6 ∧ (Gen.callFunc name es .r4 [] p.table u).isOk) = true := by decide +kernel
  obtain ⟨p, hp, hcalls⟩ := (Option.any_eq_true _ _).1 hcalls
  obtain ⟨v, hv, hcall⟩ := List.any_eq_true.1 hcalls
  obtain ⟨held, asked, out, s, hrun, -, hagree⟩ := arguments_agree crowded p (by decide +kernel) hp
  cases v with
  | call site t id name es =>
    obtain ⟨hbytes, hok⟩ := of_decide_eq_true hcall
    obtain ⟨g, hg, -, -, -, hmeets⟩ := hagree _ _ _ _ _ hv
    cases hcode : Gen.callFunc name es .r4 [] p.table u with
    | error => simp [hcode, Except.isOk, Except.toBool] at hok
    | ok r => exact ⟨p, held, asked, out, s, hp, hrun, site, t, id, name, es, g, r.2.1, u, r.2.2, hv, hbytes, hg, rfl,
        hcode, hmeets _ _ _ _ _ hcode⟩
  | _ => cases hcall

end Arm

end Wacc
