/-
  Bags: which diagnostics they keep, in which order they list them, and the exit status they call for.
-/
import Wacc.Diagnostic.Bag
import Wacc.Proofs.Token.Spelling
import Mathlib.Data.Prod.Lex
import Mathlib.Tactic.SplitIfs

namespace Wacc

/-! ## Order -/

namespace Diagnostic

variable {d e : Diagnostic}

def rank (d : Diagnostic) : Nat ×ₗ Nat ×ₗ Nat ×ₗ Nat ×ₗ Nat :=
  toLex (d.span.file.toNat, toLex (d.span.start.toNat, toLex (d.span.stop.toNat,
    toLex (255 - d.severity.level.toNat, d.code.number.toNat))))

theorem before_iff : d.before e = true ↔ d.rank < e.rank := by
  have hsev : 255 - d.severity.level.toNat < 255 - e.severity.level.toNat ↔
      e.severity.level < d.severity.level := by
    have := d.severity.level.toNat_lt
    have := e.severity.level.toNat_lt
    rw [UInt8.lt_iff_toNat_lt]
    omega
  have hsame : 255 - d.severity.level.toNat = 255 - e.severity.level.toNat ↔ d.severity = e.severity := by
    have := d.severity.level.toNat_lt
    have := e.severity.level.toNat_lt
    have hlevel : d.severity = e.severity ↔ d.severity.level = e.severity.level := by
      cases d.severity; cases e.severity; simp
    rw [hlevel, ← UInt8.toNat_inj]
    omega
  simp only [rank, Prod.Lex.toLex_lt_toLex, hsev, hsame, ← UInt32.lt_iff_toNat_lt, ← UInt16.lt_iff_toNat_lt,
    UInt32.toNat_inj]
  unfold before
  split_ifs with h1 h2 h3 h4 <;> simp_all

def mayPrecede (d e : Diagnostic) : Bool := !e.before d

theorem mayPrecede_iff : d.mayPrecede e = true ↔ d.rank ≤ e.rank := by
  rw [mayPrecede, Bool.not_eq_true', Bool.eq_false_iff, Ne, before_iff, not_lt]

theorem mayPrecede_trans (d e f : Diagnostic) (h : d.mayPrecede e = true) (h' : e.mayPrecede f = true) :
    d.mayPrecede f = true :=
  mayPrecede_iff.2 ((mayPrecede_iff.1 h).trans (mayPrecede_iff.1 h'))

theorem mayPrecede_total (d e : Diagnostic) : (d.mayPrecede e || e.mayPrecede d) = true := by
  rw [Bool.or_eq_true, mayPrecede_iff, mayPrecede_iff]
  exact le_total _ _

end Diagnostic

/-- The second list holds the diagnostics of the first one in the order of reports; those between which the
    order does not decide stay in the order of the first list. -/
structure StableSort (found listed : List Diagnostic) : Prop where
  perm : listed.Perm found
  sorted : listed.Pairwise fun d e => d.mayPrecede e = true
  stable : ∀ c : List Diagnostic, (c.Pairwise fun d e => d.mayPrecede e = true) → c.Sublist found → c.Sublist listed

/-! ## Bags -/

namespace Bag

variable {b : Bag} {ds es : List Diagnostic} {limit : Int}

theorem sort_stable (b : Bag) : StableSort b.items b.sort.items where
  perm := List.mergeSort_perm _ _
  sorted := List.pairwise_mergeSort Diagnostic.mayPrecede_trans Diagnostic.mayPrecede_total _
  stable _ := List.sublist_mergeSort Diagnostic.mayPrecede_trans Diagnostic.mayPrecede_total

def keep (limit : Int) (ds : List Diagnostic) : List Diagnostic :=
  if limit ≤ 0 then ds else ds.take limit.toNat

theorem keep_nil : keep limit [] = [] := by
  unfold keep
  split_ifs <;> simp

theorem keep_eq_nil : keep limit ds = [] ↔ ds = [] := by
  unfold keep
  split_ifs
  · rfl
  · rw [List.take_eq_nil_iff]
    exact or_iff_right (by omega)

theorem mem_of_mem_keep {d : Diagnostic} (h : d ∈ keep limit ds) : d ∈ ds := by
  unfold keep at h
  split_ifs at h
  · exact h
  · exact List.mem_of_mem_take h

@[simp] theorem limit_add (b : Bag) (d : Diagnostic) : (b.add d).limit = b.limit := by
  unfold add
  split_ifs <;> rfl

@[simp] theorem limit_addAll (b : Bag) (ds : List Diagnostic) : (b.addAll ds).limit = b.limit := by
  induction ds generalizing b with
  | nil => rfl
  | cons d ds ih => exact (ih (b.add d)).trans (b.limit_add d)

theorem items_add (es : List Diagnostic) (h : b.items = keep b.limit es) (d : Diagnostic) :
    (b.add d).items = keep b.limit (es ++ [d]) := by
  unfold add hasRoom
  rw [h]
  unfold keep
  by_cases hl : b.limit ≤ 0
  · simp [hl]
  · rw [if_neg hl, if_neg hl, List.length_take]
    by_cases hroom : es.length < b.limit.toNat
    · rw [if_pos (by simp; omega), List.take_of_length_le (by omega), List.take_of_length_le (by simp; omega)]
    · rw [if_neg (by simp; omega), h, keep, if_neg hl, List.take_append_of_le_length (by omega)]

theorem items_addAll (es : List Diagnostic) (h : b.items = keep b.limit es) (ds : List Diagnostic) :
    (b.addAll ds).items = keep b.limit (es ++ ds) := by
  induction ds generalizing b es with
  | nil => rw [List.append_nil]; exact h
  | cons d ds ih =>
    have hadd : (b.add d).items = keep (b.add d).limit (es ++ [d]) := by
      rw [limit_add]
      exact items_add es h d
    have hall := ih _ hadd
    rw [limit_add, List.append_assoc] at hall
    exact hall

end Bag

/-! ## Exit status -/

def Category.status : Category → Nat
  | .lexical | .syntactic => 100
  | .semantic => 200
  | _ => 1

namespace Diagnostic

variable {ds : List Diagnostic}

theorem anyError_of_isA (h : ∀ d ∈ ds, ∃ c, d.IsA c) : anyError ds = true ↔ ds ≠ [] := by
  cases ds with
  | nil => simp [anyError]
  | cons d ds =>
    obtain ⟨c, hc⟩ := h d List.mem_cons_self
    simp [anyError, hc.error]

theorem exitCode_of_isA {n : Nat} (h : ∀ d ∈ ds, ∃ c, d.IsA c ∧ c.status = n) :
    exitCode ds = if ds = [] then 0 else n := by
  cases ds with
  | nil => rfl
  | cons d ds =>
    obtain ⟨c, hc, rfl⟩ := h d List.mem_cons_self
    have hfirst : firstCategory (d :: ds) = c := by simp [firstCategory, hc.error, hc.category]
    have herror := (anyError_of_isA fun d hd => (h d hd).imp fun _ => And.left).2 (List.cons_ne_nil d ds)
    rw [exitCode, herror, hfirst]
    cases c <;> rfl

end Diagnostic

end Wacc
