/-
  What memory keeps of values.

  Characters are kept in a byte with its sign, while a register holds 32 bits of them.
-/
import Wacc.Proofs.Machine.Activation
import Wacc.Proofs.Tree.PlacesProgram
import Wacc.Proofs.Typing.Names

namespace Wacc

open Arm

/-! ## Values -/

namespace Datum

variable {m : Mem} {floor limit : Nat} {t : Ty} {x : Datum}

theorem bmod_eq_self_iff {n : Int} : n.bmod 256 = n ↔ -128 ≤ n ∧ n < 128 := by
  refine ⟨fun h => ?_, fun ⟨h1, h2⟩ => Int.bmod_eq_of_le (by omega) (by omega)⟩
  have := Int.le_bmod (x := n) (m := 256) (by decide)
  have := Int.bmod_lt (x := n) (m := 256) (by decide)
  omega

theorem stored_char {n : Int} : stored (.char n) = .char n ↔ -128 ≤ n ∧ n < 128 := by
  rw [stored, Datum.char.injEq, bmod_eq_self_iff]

theorem Has.stored_of_ne (h : x.Has m floor limit t) (ht : t ≠ .char) : x.stored = x := by
  cases h <;> first | rfl | exact absurd rfl ht

theorem Has.stored_eq_iff (h : x.Has m floor limit t) : x.stored = x ↔ x.stored.word = x.word := by
  refine ⟨fun he => by rw [he], fun he => ?_⟩
  cases h with
  | @char n hn =>
    have hfits : Typing.fits (n.bmod 256) = true := by
      have := Int.le_bmod (x := n) (m := 256) (by decide)
      have := Int.bmod_lt (x := n) (m := 256) (by decide)
      exact fits_iff.2 ⟨by omega, by omega⟩
    exact congrArg Datum.char ((ofInt_eq_iff hfits hn).1 he)
  | _ => rfl

end Datum

theorem Arm.Mem.keep_load (m : Mem) (w : Width) (a : Word) : w.keep (m.load w a) = m.load w a := by
  cases w with
  | word => rfl
  | byte =>
    rw [Width.keep, Mem.load]
    congr 1
    ext i hi
    rw [BitVec.getElem_setWidth, BitVec.getLsbD_signExtend]
    simp [hi, show i < 32 by omega]

theorem Datum.Has.stored_of_load {m : Mem} {floor limit : Nat} {t : Ty} {x : Datum} {a : Word}
    (h : x.Has m floor limit t) (hload : m.load (Gen.widthOf t) a = x.word) : x.stored = x := by
  by_cases ht : t = .char
  · subst ht
    obtain ⟨hkeep, -⟩ := (h.is rfl).keep rfl
    rw [h.stored_eq_iff, ← hkeep, ← hload, Mem.keep_load]
  · exact h.stored_of_ne ht

/-! ## Expressions -/

def Expr.Wide (E : Env) : Expr → Prop
  | .char _ c => 128 ≤ c.toNat
  | .unary _ _ .chr e => ∃ n, e.eval E = some (.int n) ∧ ¬ (-128 ≤ n ∧ n < 128)
  | _ => False

section
variable {V : View} {E : Env} {floor limit : Nat} {T : Table} {sc : ScopeId} {e : Expr} {x : Datum}

theorem BinOp.result_ne_char {op : BinOp} {rule : BinRule} (h : op.rule? = some rule) : rule.result ≠ .char := by
  cases op <;> cases h <;> decide

theorem UnOp.result_ne_char {op : UnOp} {rule : UnRule} (h : op.rule? = some rule) (hop : op ≠ .chr) :
    rule.result ≠ .char := by
  cases op <;> cases h <;> first | decide | exact absurd rfl hop

/-- **Memory keeps the value of an expression, unless it is more than a byte holds.** -/
theorem Expr.Typed.stored_eq_iff (he : e.Typed T sc) (hV : V.Shows E floor limit T e.vars)
    (hkept : ∀ y ∈ e.vars, ∀ v, T.var? y = some v → ∃ a, V.mem.load (Gen.widthOf v.type) a = V.var y)
    (hx : e.eval E = some x) : x.stored = x ↔ ¬ e.Wide E := by
  have hagrees := he.agrees hV
  have hhas := hagrees.has x hx
  cases he with
  | int | bool | str | null =>
    cases hx
    exact ⟨fun _ => not_false, fun _ => rfl⟩
  | @char _ c =>
    cases hx
    rw [Datum.stored_char, Expr.Wide]
    omega
  | @var id hid =>
    obtain ⟨v, hv, htype, -⟩ := hid
    obtain ⟨a, ha⟩ := hkept id.var (by simp [Expr.vars]) v hv
    cases hx
    refine ⟨fun _ => not_false, fun _ => hhas.stored_of_load (a := a) ?_⟩
    rw [Expr.type, ← htype, ha, hV.word id.var (by simp [Expr.vars])]
  | @elem _ t id is =>
    have hword := hagrees.word
    rw [hx, Expr.word] at hword
    obtain ⟨a, -, ha⟩ := Option.map_eq_some_iff.1 hword
    exact ⟨fun _ => not_false, fun _ => hhas.stored_of_load ha⟩
  | @unary _ op rule e ho he ht =>
    by_cases hop : op = .chr
    · subst hop
      cases ho
      obtain ⟨y, hy, hx⟩ := Option.bind_eq_some_iff.1 hx
      cases y <;> cases hx
      rw [Datum.stored_char, Expr.Wide]
      simp [hy]
    · have hwide {s : Span} : ¬ Expr.Wide E (.unary s rule.result op e) := by
        cases op <;> first | exact not_false | exact absurd rfl hop
      exact ⟨fun _ => hwide, fun _ => hhas.stored_of_ne (UnOp.result_ne_char ho hop)⟩
  | binary ho => exact ⟨fun _ => not_false, fun _ => hhas.stored_of_ne (BinOp.result_ne_char ho)⟩

end

/-! ## Literals of a text -/

theorem Tree.Laid.ascii {f : File} {text : Text} {s : Span} {cs : List Tree} {c : UInt8}
    (h : (Tree.node .charLit text s cs).Laid f) (hlex : (Parsed.ofFile f).lexical = [])
    (hc : Literal.char text = .ok c) : c < 0x80 := by
  obtain ⟨t, ht, -, htext, -⟩ := h.2.1 rfl
  obtain ⟨r, hr, rfl⟩ := List.mem_map.1 ht
  have hclean := List.flatMap_eq_nil_iff.1 hlex r hr
  obtain ⟨off, content, rfl⟩ := Scan.mem_steps hr
  exact Scan.next_ascii hclean (htext ▸ hc)

namespace Typing

variable {f : File} {T : Table} {sc : ScopeId}

end Typing

/-! ## Variables for expressions -/

def Env.set (E : Env) (x : VarId) (y : Datum) : Env := { E with var := Function.update E.var x y }

theorem Env.var_set (E : Env) (x : VarId) (y : Datum) : (E.set x y).var x = y := Function.update_self ..

theorem Env.var_set_of_ne (E : Env) {x z : VarId} (y : Datum) (h : z ≠ x) : (E.set x y).var z = E.var z :=
  Function.update_of_ne h ..

mutual

def Expr.subst (a : Expr) (x : VarId) (e : Expr) : Expr :=
  match a with
  | .var id => if id.var = x then e else .var id
  | .elem s t id is => .elem s t id (Expr.substAll is x e)
  | .unary s t op a => .unary s t op (a.subst x e)
  | .binary s t op l r => .binary s t op (l.subst x e) (r.subst x e)
  | a => a

def Expr.substAll (as : List Expr) (x : VarId) (e : Expr) : List Expr :=
  match as with
  | [] => []
  | a :: as => a.subst x e :: Expr.substAll as x e

end

section
variable {E : Env} {T : Table} {sc : ScopeId} {x : VarId} {v : Variable} {e use : Expr} {y : Datum}

end

end Wacc
