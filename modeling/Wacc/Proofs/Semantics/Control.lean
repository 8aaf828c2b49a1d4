/-
  Where control goes.
-/
import Wacc.Proofs.Semantics.Stat
import Wacc.Proofs.Typing.ArrayLiterals

namespace Wacc

open Reference

/-! ## The end of a statement -/

namespace Reference

variable {α β : Type} {b : Behaviour Move} {f : Store → Behaviour Move} {σ σ' : Store} {m : Move}

theorem Behaviour.bind_eq_ok {x : Behaviour α} {g : α → Behaviour β} {y : β} (h : (x >>= g).result = .ok y) :
    ∃ a, x.result = .ok a ∧ (g a).result = .ok y := by
  obtain ⟨tr, r⟩ := x
  cases r with
  | ok a => exact ⟨a, rfl, h⟩
  | error e => cases h

theorem andThen_eq_next (h : (andThen b f).result = .ok (.next σ')) :
    ∃ σ, b.result = .ok (.next σ) ∧ (f σ).result = .ok (.next σ') := by
  obtain ⟨m, hm, hf⟩ := Behaviour.bind_eq_ok h
  cases m with
  | next σ => exact ⟨σ, hm, hf⟩
  | ret x => cases hf

end Reference

mutual

theorem Stat.falls_of_next {H : Host} {s : Stat} {σ σ' : Store} (h : (s.exec H σ).result = .ok (.next σ')) :
    s.falls = true := by
  cases s with
  | ret site e =>
    rw [Stat.exec] at h
    obtain ⟨x, -, hx⟩ := Behaviour.bind_eq_ok h
    cases hx
  | exit site e =>
    rw [Stat.exec] at h
    obtain ⟨x, -, hx⟩ := Behaviour.bind_eq_ok h
    cases x <;> cases hx
  | block b =>
    rw [Stat.exec] at h
    exact Block.falls_of_next h
  | ifElse site c a b =>
    rw [Stat.exec] at h
    rw [Stat.falls, Bool.or_eq_true]
    obtain ⟨holds, -, hx⟩ := Behaviour.bind_eq_ok h
    cases holds with
    | true => exact .inl (Block.falls_of_next hx)
    | false => exact .inr (Block.falls_of_next hx)
  | «for» site i init c step b =>
    rw [Stat.exec] at h
    obtain ⟨σ1, hinit, -⟩ := andThen_eq_next h
    rw [Stat.falls]
    exact Stat.falls_of_next hinit
  | seq site ss =>
    rw [Stat.exec] at h
    exact Stat.fallsAll_of_next h
  | _ => rfl

theorem Stat.fallsAll_of_next {H : Host} {ss : List Stat} {σ σ' : Store}
    (h : (Stat.execAll H ss σ).result = .ok (.next σ')) : Stat.fallsAll ss = true := by
  cases ss with
  | nil => rfl
  | cons s ss =>
    rw [Stat.execAll] at h
    obtain ⟨σ1, hs, hss⟩ := andThen_eq_next h
    rw [Stat.fallsAll, Stat.falls_of_next hs, Stat.fallsAll_of_next hss, Bool.and_true]

theorem Block.falls_of_next {H : Host} {b : Block} {σ σ' : Store} (h : (b.exec H σ).result = .ok (.next σ')) :
    b.falls = true := by
  cases b with
  | mk site i s =>
    rw [Block.exec] at h
    exact Stat.falls_of_next h

end

/-! ## Returns -/

variable {T : Table} {sc i : ScopeId}

theorem Table.InFunction.of_block (hb : T.IsBlock sc i) (h : T.InFunction i) : T.InFunction sc := by
  obtain ⟨r, hr, hk, hp⟩ := hb
  obtain ⟨o, s, he, hs, hf⟩ := h
  cases he with
  | here =>
    rw [hr, Option.some.injEq] at hs
    rw [← hs, hk] at hf
    cases hf
  | out hs' _ he =>
    rw [hr, Option.some.injEq] at hs'
    rw [← hs', hp] at he
    exact ⟨o, s, he, hs, hf⟩

/-- The parts of a statement are well-typed, each in its scope. -/
theorem Stat.Typed.of_mem_parts {b q : Stat} (hb : b.Typed T sc) (h : q ∈ b.parts) :
    ∃ sc', q.Typed T sc' ∧ (T.InFunction sc' → T.InFunction sc) := by
  have hself := hb
  have hout {sc i : ScopeId} (hblock : T.IsBlock sc i)
      (h : ∃ sc', q.Typed T sc' ∧ (T.InFunction sc' → T.InFunction i)) :
      ∃ sc', q.Typed T sc' ∧ (T.InFunction sc' → T.InFunction sc) :=
    h.imp fun _ => And.imp_right fun hin hf => .of_block hblock (hin hf)
  induction hb with
  | block hblock hb ih =>
    obtain rfl | h := List.mem_cons.1 h
    · exact ⟨_, hself, id⟩
    · exact hout hblock (ih h hb)
  | ifThen _ _ hblock hb ih =>
    obtain rfl | h := List.mem_cons.1 h
    · exact ⟨_, hself, id⟩
    · exact hout hblock (ih h hb)
  | ifElse _ _ hblock hb hblock' hb' ih ih' =>
    obtain rfl | h := List.mem_cons.1 h
    · exact ⟨_, hself, id⟩
    · obtain h | h := List.mem_append.1 h
      · exact hout hblock (ih h hb)
      · exact hout hblock' (ih' h hb')
  | «while» _ _ hblock hb ih =>
    obtain rfl | h := List.mem_cons.1 h
    · exact ⟨_, hself, id⟩
    · exact hout hblock (ih h hb)
  | «for» hhead hi _ _ hs hblock hb ihi ihs ihb =>
    obtain rfl | h := List.mem_cons.1 h
    · exact ⟨_, hself, id⟩
    · rw [List.mem_append, List.mem_append] at h
      obtain (h | h) | h := h
      · exact hout hhead (ihi h hi)
      · exact hout hhead (hout hblock (ihb h hb))
      · exact hout hhead (ihs h hs)
  | seq hss ih =>
    obtain rfl | h := List.mem_cons.1 h
    · exact ⟨_, hself, id⟩
    · obtain ⟨s, hs, hin⟩ := Stat.mem_partsAll.1 h
      exact ih s hs hin (hss s hs)
  | _ => exact ⟨_, List.mem_singleton.1 h ▸ hself, id⟩

/-! ## Complaints about null -/

def Stat.isFree : Stat → Bool
  | .free _ _ => true
  | _ => false

def Program.parts (p : Program) : List Stat := p.body.parts ++ p.funcs.flatMap (·.body.parts)

namespace Reference

def Behaviour.NonNull {α : Type} (b : Behaviour α) : Prop := b.result ≠ .error (.error .null)

namespace Behaviour.NonNull

variable {α β : Type} {b : Behaviour Move}

theorem pure (a : α) : (Pure.pure a : Behaviour α).NonNull := nofun

theorem bind {x : Behaviour α} {f : α → Behaviour β} (hx : x.NonNull) (hf : ∀ a, (f a).NonNull) :
    (x >>= f).NonNull := by
  obtain ⟨tr, r⟩ := x
  cases r with
  | ok a => exact hf a
  | error e => exact fun h => hx (congrArg _ (Except.error.inj h))

theorem andThen {f : Store → Behaviour Move} (hb : b.NonNull) (hf : ∀ σ, (f σ).NonNull) :
    (Reference.andThen b f).NonNull := by
  refine hb.bind fun m => ?_
  cases m with
  | next σ => exact hf σ
  | ret x => exact .pure _

theorem expr (H : Host) (e : Expr) (σ : Store) : (e.run H σ).NonNull := by
  rw [Expr.run]
  split_ifs
  · cases e.eval (σ.env H.const) <;> exact nofun
  · exact nofun

theorem exprs (H : Host) (σ : Store) (es : List Expr) : (Expr.runAll H σ es).NonNull := by
  induction es with
  | nil => exact .pure []
  | cons e es ih => exact (expr H e σ).bind fun _ => ih.bind fun _ => .pure _

theorem test (H : Host) (e : Expr) (σ : Store) : (e.test H σ).NonNull := by
  refine (expr H e σ).bind fun x => ?_
  cases x <;> exact nofun

theorem turn {c : Store → Behaviour Bool} {f g : Store → Behaviour Move} (hc : ∀ σ, (c σ).NonNull)
    (hf : ∀ σ, (f σ).NonNull) (hg : ∀ σ, (g σ).NonNull) (σ : Store) : (Reference.turn c f g σ).NonNull := by
  refine (hc σ).bind fun holds => ?_
  cases holds with
  | true => exact (hf σ).andThen hg
  | false => exact .pure _

end Behaviour.NonNull

/-- Neither calls nor loops that give nothing back complain about null. -/
structure Host.NonNull (H : Host) : Prop where
  again : ∀ s, (∀ q ∈ s.parts, q.isFree = false) → ∀ σ, (H.again s σ).NonNull
  call : ∀ f ds, (H.call f ds).NonNull

theorem Host.NonNull.value {H : Host} (hH : H.NonNull) (v : Value) (σ : Store) : (v.run H σ).NonNull := by
  cases v with
  | expr e => exact .expr H e σ
  | call => exact (Behaviour.NonNull.exprs H σ _).bind fun ds => hH.call _ ds
  | _ => exact nofun

end Reference

open Behaviour (NonNull)

mutual

theorem Stat.nonNull {H : Host} (hH : H.NonNull) {s : Stat} (hs : ∀ q ∈ s.parts, q.isFree = false) (σ : Store) :
    (s.exec H σ).NonNull := by
  cases s with
  | skip | read =>
    rw [Stat.exec]
    exact nofun
  | declare site x w name v =>
    rw [Stat.exec]
    exact (hH.value v σ).bind fun _ => .pure _
  | assign site l v =>
    cases l with
    | var id =>
      rw [Stat.exec]
      exact (hH.value v σ).bind fun _ => .pure _
    | _ =>
      rw [Stat.exec]
      · exact nofun
      · exact nofun
  | free site e => cases hs _ (List.mem_singleton.2 rfl)
  | ret site e =>
    rw [Stat.exec]
    exact (NonNull.expr H e σ).bind fun _ => .pure _
  | exit site e =>
    rw [Stat.exec]
    refine (NonNull.expr H e σ).bind fun x => ?_
    cases x <;> exact nofun
  | print site e newline =>
    rw [Stat.exec]
    refine (NonNull.expr H e σ).bind fun _ => NonNull.bind nofun fun _ => ?_
    cases newline <;> exact nofun
  | block b =>
    rw [Stat.exec]
    exact Block.nonNull hH (fun q hq => hs q (by simp [Stat.parts, hq])) σ
  | ifThen site c a =>
    rw [Stat.exec]
    refine (NonNull.test H c σ).bind fun holds => ?_
    cases holds with
    | true => exact Block.nonNull hH (fun q hq => hs q (by simp [Stat.parts, hq])) σ
    | false => exact .pure _
  | ifElse site c a b =>
    rw [Stat.exec]
    refine (NonNull.test H c σ).bind fun holds => ?_
    cases holds with
    | true => exact Block.nonNull hH (fun q hq => hs q (by simp [Stat.parts, hq])) σ
    | false => exact Block.nonNull hH (fun q hq => hs q (by simp [Stat.parts, hq])) σ
  | «while» site c b =>
    rw [Stat.exec]
    exact .turn (NonNull.test H c) (Block.nonNull hH fun q hq => hs q (by simp [Stat.parts, hq])) (hH.again _ hs) σ
  | «for» site i init c step b =>
    rw [Stat.exec]
    refine (Stat.nonNull hH (fun q hq => hs q (by simp [Stat.parts, hq])) _).andThen fun σ' =>
      .turn (NonNull.test H c) (fun σ' => ?_) (hH.again _ hs) σ'
    exact (Block.nonNull hH (fun q hq => hs q (by simp [Stat.parts, hq])) σ').andThen
      (Stat.nonNull hH fun q hq => hs q (by simp [Stat.parts, hq]))
  | seq site ss =>
    rw [Stat.exec]
    exact Stat.nonNullAll hH (fun q hq => hs q (by simp [Stat.parts, hq])) σ

theorem Stat.nonNullAll {H : Host} (hH : H.NonNull) {ss : List Stat}
    (hs : ∀ q ∈ Stat.partsAll ss, q.isFree = false) (σ : Store) : (Stat.execAll H ss σ).NonNull := by
  cases ss with
  | nil =>
    rw [Stat.execAll]
    exact .pure _
  | cons s ss =>
    rw [Stat.execAll]
    exact (Stat.nonNull hH (fun q hq => hs q (by simp [Stat.partsAll, hq])) σ).andThen
      (Stat.nonNullAll hH fun q hq => hs q (by simp [Stat.partsAll, hq]))

theorem Block.nonNull {H : Host} (hH : H.NonNull) {b : Block} (hb : ∀ q ∈ b.parts, q.isFree = false) (σ : Store) :
    (b.exec H σ).NonNull := by
  cases b with
  | mk site i s =>
    rw [Block.exec]
    exact Stat.nonNull hH (fun q hq => hb q (by rwa [Block.parts])) _

end

namespace Program

variable {p : Program} {const : Text → Arm.Word}

end Program

end Wacc
