/-
  Array literals and the places that take them.

  A literal gets the type of its most definite element, found by going through the elements once.  Whether a
  place takes a value is not transitive where a type leaves something open: `[]` goes with every array and
  `null` with every pair, but not with each other's.  So the type of a literal speaks for its elements only if
  nothing is open below the top of an element type.
-/
import Wacc.Proofs.Compile
import Wacc.Proofs.Typing.Names
import Mathlib.Tactic.SplitIfs

namespace Wacc

/-! ## Definite types -/

namespace Ty

def isFlat : Ty → Bool
  | .array (.array _ _) _ => false
  | .array _ d => d != 0
  | _ => true

def definite : Ty → Bool
  | .int | .bool | .char | .string => true
  | .array e d => d != 0 && e.definite
  | .pair a b => a.definite && b.definite
  | _ => false

variable {t u d e e' : Ty} {n n' : UInt32}

theorem acceptsArray_iff :
    e.acceptsArray e' n = true ↔ (e = .string ∧ e' = .char ∧ n = 1) ∨ e = .emptyArray := by
  cases e <;> simp [acceptsArray]

/-- Arrays of as many dimensions are compared by what they are over.  With fewer dimensions a place takes
    arrays of characters as strings, or leaves open what it is over; with more, the array is open. -/
theorem accepts_array_iff : (Ty.array e n).accepts (.array e' n') = true ↔
    (n = n' ∧ e.accepts e' = true) ∨ (n < n' ∧ e.acceptsArray e' (n' - n) = true) ∨
      (n' < n ∧ e' = .emptyArray) := by
  rw [accepts]
  split_ifs with heq hlt
  · simp [heq, UInt32.lt_irrefl]
  · simp [heq, hlt, UInt32.not_lt.2 (UInt32.le_of_lt hlt)]
  · have hgt : n' < n := by
      rw [UInt32.lt_iff_toNat_lt] at hlt ⊢
      have : n.toNat ≠ n'.toNat := fun h => heq (UInt32.toNat_inj.1 h)
      omega
    simp [heq, hlt, hgt]

theorem accepts_self (h : t.definite = true) : t.accepts t = true := by
  induction t with
  | array e n ih =>
    simp only [definite, Bool.and_eq_true] at h
    simp [accepts, ih h.2]
  | pair a b iha ihb =>
    simp only [definite, Bool.and_eq_true] at h
    simp [accepts, iha h.1, ihb h.2]
  | emptyArray => cases h
  | anyPair => cases h
  | unknown => cases h
  | _ => rfl

theorem eq_string_of_accepts (h : d.accepts .string = true) : d = .string := by
  cases d <;> simp_all [accepts, isArray, isPair]

theorem exists_array_of_accepts (hu : u.definite = true) (h : (Ty.array e n).accepts u = true) :
    ∃ e' n', u = .array e' n' := by
  cases u <;> simp_all [accepts, definite]

theorem accepts_trans (ht : t.definite = true) (hu : u.definite = true) (h : d.accepts t = true)
    (h' : t.accepts u = true) : d.accepts u = true := by
  induction d generalizing t u with
  | array e n ih =>
    cases t with
    | array e1 n1 =>
      obtain ⟨e2, n2, rfl⟩ := exists_array_of_accepts hu h'
      simp only [definite, Bool.and_eq_true] at ht hu
      have hopen : e1 ≠ .emptyArray ∧ e2 ≠ .emptyArray :=
        ⟨by rintro rfl; simp [definite] at ht, by rintro rfl; simp [definite] at hu⟩
      rw [accepts_array_iff, acceptsArray_iff] at h h' ⊢
      rcases h with ⟨rfl, h⟩ | ⟨hlt, h⟩ | ⟨-, rfl⟩
      · rcases h' with ⟨rfl, h'⟩ | ⟨hlt', h'⟩ | ⟨-, rfl⟩
        · exact .inl ⟨rfl, ih ht.2 hu.2 h h'⟩
        · obtain ⟨rfl, rfl, hn⟩ := h'.resolve_right hopen.1
          exact .inr (.inl ⟨hlt', .inl ⟨eq_string_of_accepts h, rfl, hn⟩⟩)
        · exact absurd rfl hopen.2
      · rcases h' with ⟨rfl, h'⟩ | ⟨hlt', h'⟩ | ⟨-, rfl⟩
        · refine .inr (.inl ⟨hlt, h.imp_left ?_⟩)
          rintro ⟨rfl, rfl, hn⟩
          exact ⟨rfl, by cases e2 <;> simp_all [accepts], hn⟩
        · obtain ⟨rfl, rfl, hn⟩ := h'.resolve_right hopen.1
          refine .inr (.inl ⟨UInt32.lt_trans hlt hlt', .inr (h.resolve_left ?_)⟩)
          rintro ⟨-, ⟨⟩, -⟩
        · exact absurd rfl hopen.2
      · exact absurd rfl hopen.1
    | emptyArray => simp [definite] at ht
    | _ => simp [accepts] at h
  | pair a b iha ihb =>
    cases t <;> simp only [accepts, definite, Bool.false_eq_true, Bool.and_eq_true] at h ht
    cases u <;> simp only [accepts, definite, Bool.false_eq_true, Bool.and_eq_true] at h' hu ⊢
    exact ⟨iha ht.1 hu.1 h.1 h'.1, ihb ht.2 hu.2 h.2 h'.2⟩
  | string =>
    cases t with
    | string => exact h'
    | array e n =>
      obtain ⟨e', n', rfl⟩ := exists_array_of_accepts hu h'
      obtain ⟨rfl, rfl⟩ : e = .char ∧ n = 1 := by simpa [accepts, acceptsArray] using h
      rw [accepts_array_iff, acceptsArray_iff] at h'
      rcases h' with ⟨rfl, h'⟩ | ⟨-, h'⟩ | ⟨-, rfl⟩
      · cases e' <;> simp_all [accepts, acceptsArray]
      · simp at h'
      · simp [definite] at hu
    | _ => simp [accepts] at h
  | emptyArray =>
    cases t with
    | array e n =>
      obtain ⟨e', n', rfl⟩ := exists_array_of_accepts hu h'
      rfl
    | emptyArray => simp [definite] at ht
    | _ => simp [accepts, isArray] at h
  | anyPair =>
    cases t with
    | pair a b => cases u <;> simp_all [accepts, isPair]
    | anyPair => simp [definite] at ht
    | _ => simp [accepts, isPair] at h
  | unknown k => simp [accepts] at h
  | int => cases t <;> simp_all [accepts]
  | bool => cases t <;> simp_all [accepts]
  | char => cases t <;> simp_all [accepts]

/-! ## Types of elements -/

def plain (t : Ty) : Bool := Typing.isOpen t || t.definite

/-- An element type `t` covers an element of type `u`: a place of type `t` takes it, but for `[]` among
    strings; and while nothing is known of `t`, nothing else was seen. -/
structure Covers (t u : Ty) : Prop where
  same : Typing.isOpen t = true → u = t
  accepts : t.accepts u = true ∨ (t = .string ∧ u = .emptyArray)

theorem definite_of_plain (h : t.plain = true) (ho : Typing.isOpen t = false) : t.definite = true := by
  simpa [plain, ho] using h

theorem covers_self (h : t.plain = true) : Covers t t := by
  refine ⟨fun _ => rfl, .inl ?_⟩
  cases ho : Typing.isOpen t with
  | false => exact accepts_self (definite_of_plain h ho)
  | true => cases t <;> simp_all [Typing.isOpen, Ty.accepts, isArray, isPair]

theorem Covers.trans (ht : t.plain = true) (hu : u.plain = true) (h : d.accepts t = true) (hc : Covers t u) :
    d.accepts u = true ∨ (d = .string ∧ u = .emptyArray) := by
  cases ho : Typing.isOpen t with
  | true => exact .inl (hc.same ho ▸ h)
  | false =>
    have hdt := definite_of_plain ht ho
    rcases hc.accepts with hacc | ⟨rfl, rfl⟩
    · cases hu' : Typing.isOpen u with
      | false => exact .inl (accepts_trans hdt (definite_of_plain hu hu') h hacc)
      | true =>
        -- `[]` is covered by an array, `null` by a pair
        cases u with
        | emptyArray =>
          obtain ⟨e, n, rfl⟩ : ∃ e n, t = .array e n := by cases t <;> simp_all [Ty.accepts, definite]
          cases d <;> simp_all [Ty.accepts, isArray, isPair]
        | anyPair =>
          obtain ⟨a, b, rfl⟩ : ∃ a b, t = .pair a b := by cases t <;> simp_all [Ty.accepts, definite]
          cases d <;> simp_all [Ty.accepts, isArray, isPair]
        | _ => simp [Typing.isOpen] at hu'
    · exact .inr ⟨eq_string_of_accepts h, rfl⟩

theorem accepts_of_open (ht : Typing.isOpen t = true) (h : t.accepts u = true) : u.accepts t = true := by
  cases t with
  | emptyArray => cases u <;> simp_all [Ty.accepts, isArray]
  | anyPair => cases u <;> simp_all [Ty.accepts, isPair]
  | _ => simp [Typing.isOpen] at ht

theorem eq_of_open (ht : Typing.isOpen t = true) (hu : Typing.isOpen u = true) (h : t.accepts u = true) :
    u = t := by
  cases t <;> cases u <;> simp_all [Typing.isOpen, Ty.accepts, isArray, isPair]

end Ty

/-! ## Joining elements -/

namespace Typing

variable {elem t u : Ty} {v : Value} {vs : List Value}

/-- **One more element**: the element type after it covers it and all that was covered before. -/
theorem joinElement_covers (he : elem.plain = true) (hv : v.type.plain = true)
    (h : joinElement elem v = (t, [])) :
    t.plain = true ∧ t.Covers v.type ∧ ∀ u, u.plain = true → elem.Covers u → t.Covers u := by
  unfold joinElement at h
  dsimp only at h
  split_ifs at h with hacc hnew hacc'
  · -- nothing was known, and now something is
    obtain rfl : v.type = t := (Prod.mk.inj h).1
    obtain ⟨ho, ho'⟩ : isOpen elem = true ∧ isOpen v.type = false := by simpa using hnew
    refine ⟨hv, Ty.covers_self hv, fun u _ hu => ⟨fun h => ?_, .inl ?_⟩⟩
    · rw [ho'] at h
      cases h
    · rw [hu.same ho]
      exact Ty.accepts_of_open ho hacc
  · obtain rfl : elem = t := (Prod.mk.inj h).1
    refine ⟨he, ⟨fun ho => ?_, .inl hacc⟩, fun u _ hu => hu⟩
    have ho' : isOpen v.type = true := by simpa [ho] using hnew
    exact Ty.eq_of_open ho ho' hacc
  · obtain rfl : v.type = t := (Prod.mk.inj h).1
    -- an open element would have been taken
    have ho : isOpen v.type = false := by
      by_contra ho
      exact hacc (Ty.accepts_of_open (by simpa using ho) hacc')
    refine ⟨hv, Ty.covers_self hv, fun u hu hc => ⟨fun h => ?_, hc.trans he hu hacc'⟩⟩
    rw [ho] at h
    cases h
  · simp at h

theorem joinElements_covers (he : elem.plain = true) (hvs : ∀ v ∈ vs, v.type.plain = true)
    (h : joinElements elem vs = (t, [])) :
    t.plain = true ∧ (∀ v ∈ vs, t.Covers v.type) ∧ ∀ u, u.plain = true → elem.Covers u → t.Covers u := by
  induction vs generalizing elem with
  | nil =>
    obtain rfl : elem = t := (Prod.mk.inj h).1
    exact ⟨he, by simp, fun u _ hu => hu⟩
  | cons v vs ih =>
    obtain ⟨hv, hvs⟩ := List.forall_mem_cons.1 hvs
    obtain ⟨ht, hds⟩ := Prod.mk.inj h
    obtain ⟨hd, hes⟩ := List.append_eq_nil_iff.1 hds
    obtain ⟨hplain, hself, hkeep⟩ := joinElement_covers he hv (Prod.ext rfl hd)
    obtain ⟨htplain, hmem, hkeep'⟩ := ih hplain hvs (Prod.ext ht hes)
    exact ⟨htplain, List.forall_mem_cons.2 ⟨hkeep' _ hv hself, hmem⟩,
      fun u hu hc => hkeep' u hu (hkeep u hu hc)⟩

theorem arrayOf_covers {span span' : Span} {type : Ty} (hplain : ∀ v ∈ vs, v.type.plain = true)
    (h : arrayOf span vs = .ok (.array span' type vs)) :
    vs = [] ∨ ∃ elem : Ty, type = elem.arrayOf ∧ elem.plain = true ∧ ∀ v ∈ vs, elem.Covers v.type := by
  cases vs with
  | nil => exact .inl rfl
  | cons v vs =>
    obtain ⟨hv, hvs⟩ := List.forall_mem_cons.1 hplain
    rw [arrayOf] at h
    dsimp only at h
    cases hds : (joinElements v.type vs).2 with
    | cons d ds =>
      rw [hds] at h
      cases h
    | nil =>
      rw [hds] at h
      cases h
      obtain ⟨hp, hmem, hkeep⟩ := joinElements_covers hv hvs (Prod.ext rfl hds)
      exact .inr ⟨_, rfl, hp, List.forall_mem_cons.2 ⟨hkeep _ hv (Ty.covers_self hv), hmem⟩⟩

end Typing

/-! ## Literals -/

/-- A literal in which every element type was found from its elements. -/
inductive Value.Joined : Value → Prop
  | expr {e : Expr} : Joined (.expr e)
  | array {span : Span} {type : Ty} {vs : List Value} : (∀ v ∈ vs, Joined v) →
    Typing.arrayOf span vs = .ok (.array span type vs) → Joined (.array span type vs)

mutual

/-- Whether every element of a literal fits into an array of type `d`, and the elements of elements that are
    literals into theirs. -/
def Value.fitsIn (d : Ty) : Value → Bool
  | .array _ _ vs =>
    match d.peel with
    | .ok e => Value.allFitIn e vs
    | .error _ => true
  | _ => true

def Value.allFitIn (e : Ty) : List Value → Bool
  | [] => true
  | v :: vs => e.accepts v.type && v.fitsIn e && Value.allFitIn e vs

end

mutual

/-- Whether the types of elements are clear: open at the top or nowhere, and no `[]` is to be a string. -/
def Value.isClear (d : Ty) : Value → Bool
  | .array _ _ vs =>
    match d.peel with
    | .ok e => Value.allClear e vs
    | .error _ => true
  | _ => true

def Value.allClear (e : Ty) : List Value → Bool
  | [] => true
  | v :: vs => v.type.plain && !(e == .string && v.type == .emptyArray) && v.isClear e && Value.allClear e vs

end

theorem Value.allFitIn_iff {e : Ty} {vs : List Value} :
    Value.allFitIn e vs = true ↔ ∀ v ∈ vs, e.accepts v.type = true ∧ v.fitsIn e = true := by
  induction vs with
  | nil => simp [Value.allFitIn]
  | cons v vs ih => simp [Value.allFitIn, ih, and_assoc]

theorem Value.allClear_iff {e : Ty} {vs : List Value} :
    Value.allClear e vs = true ↔ ∀ v ∈ vs, v.type.plain = true ∧ ¬ (e = .string ∧ v.type = .emptyArray) ∧
      v.isClear e = true := by
  induction vs with
  | nil => simp [Value.allClear]
  | cons v vs ih =>
    rw [Value.allClear, List.forall_mem_cons, ← ih]
    simp only [Bool.and_eq_true, Bool.not_eq_true', Bool.and_eq_false_iff, beq_eq_false_iff_ne, Ne, not_and_or,
      and_assoc]

namespace Ty

variable {d e t : Ty}

theorem peel_eq_ok (hd : d.isFlat = true) (he : d.peel = .ok e) :
    ∃ b n, d = .array b n ∧ (∀ b' m, b ≠ .array b' m) ∧
      ((n = 1 ∧ e = b) ∨ (1 < n ∧ e = .array b (n - 1))) := by
  cases d with
  | array b n =>
    have hb : ∀ b' m, b ≠ .array b' m := by
      rintro b' m rfl
      cases hd
    have hn : n ≠ 0 := by cases b <;> simp_all [isFlat]
    refine ⟨b, n, rfl, hb, ?_⟩
    simp only [peel] at he
    split_ifs at he with h
    · exact .inl ⟨h, (Except.ok.inj he).symm⟩
    · refine .inr ⟨?_, (Except.ok.inj he).symm⟩
      have hn' : n.toNat ≠ 0 := fun h => hn (UInt32.toNat_inj.1 h)
      have h' : n.toNat ≠ 1 := fun h'' => h (UInt32.toNat_inj.1 h'')
      show 1 < n.toNat
      omega
  | _ => cases he

theorem toNat_pred {n : UInt32} (h : 1 < n) : (n - 1).toNat = n.toNat - 1 := by
  rw [UInt32.toNat_sub_of_le _ _ (UInt32.le_of_lt h)]
  rfl

theorem isFlat_peel (hd : d.isFlat = true) (he : d.peel = .ok e) : e.isFlat = true := by
  obtain ⟨b, n, rfl, hb, ⟨-, rfl⟩ | ⟨hn, rfl⟩⟩ := peel_eq_ok hd he
  · cases e <;> simp_all [isFlat]
  · have hne : n - 1 ≠ 0 := by
      intro h
      have h0 := congrArg UInt32.toNat h
      rw [toNat_pred hn] at h0
      have h1 : 1 < n.toNat := hn
      simp at h0
      omega
    cases b <;> simp_all [isFlat]

theorem peel_accepts (hd : d.isFlat = true) (he : d.peel = .ok e) (ht : t.plain = true)
    (h : d.accepts t.arrayOf = true) : e.accepts t = true := by
  obtain ⟨b, n, rfl, -, hcases⟩ := peel_eq_ok hd he
  have hsingle (hone : t.arrayOf = .array t 1) : e.accepts t = true := by
    rw [hone, accepts_array_iff] at h
    rcases h with ⟨rfl, h⟩ | ⟨hlt, -⟩ | ⟨hlt, rfl⟩
    · obtain ⟨-, rfl⟩ := hcases.resolve_right fun hn => UInt32.lt_irrefl _ hn.1
      exact h
    · rcases hcases with ⟨rfl, -⟩ | ⟨hn, -⟩
      · exact absurd hlt (UInt32.lt_irrefl _)
      · exact absurd (UInt32.lt_trans hlt hn) (UInt32.lt_irrefl _)
    · obtain ⟨-, rfl⟩ := hcases.resolve_left fun hn => UInt32.lt_irrefl _ (hn.1 ▸ hlt)
      rfl
  cases t with
  | array b' m =>
    obtain ⟨hm, hb'⟩ : m ≠ 0 ∧ b'.definite = true := by
      simpa [plain, Typing.isOpen, definite] using ht
    have hopen : b' ≠ .emptyArray := by
      rintro rfl
      cases hb'
    have hshift : m - (n - 1) = m + 1 - n := by grind
    rw [arrayOf, accepts_array_iff] at h
    rcases h with ⟨rfl, h⟩ | ⟨hlt, h⟩ | ⟨-, rfl⟩
    · rcases hcases with ⟨hone, -⟩ | ⟨-, rfl⟩
      · exact absurd (by grind) hm
      · exact accepts_array_iff.2 (.inl ⟨by grind, h⟩)
    · rcases hcases with ⟨rfl, rfl⟩ | ⟨hn, rfl⟩
      · have hm' : m + 1 - 1 = m := by grind
        rw [hm', acceptsArray_iff] at h
        rcases h with ⟨rfl, rfl, rfl⟩ | rfl <;> rfl
      · refine accepts_array_iff.2 (.inr (.inl ⟨?_, by rwa [hshift]⟩))
        rw [UInt32.lt_iff_toNat_lt, toNat_pred hn]
        rw [UInt32.lt_iff_toNat_lt, UInt32.toNat_add] at hlt
        have h1 : 1 < n.toNat := hn
        have hone : (1 : UInt32).toNat = 1 := rfl
        omega
    · exact absurd rfl hopen
  | _ => exact hsingle rfl

theorem arrayOf_accepts_self (h : t.plain = true) : t.arrayOf.accepts t.arrayOf = true := by
  have hself : t.accepts t = true := (covers_self h).accepts.resolve_right (by rintro ⟨rfl, ⟨⟩⟩)
  cases t <;> simp_all [arrayOf, Ty.accepts]

end Ty

/-- **Literals fit into the places that take them**, if the types of their elements are clear. -/
theorem Value.Joined.fitsIn {v : Value} (h : v.Joined) {d : Ty} (hd : d.isFlat = true) (hc : v.isClear d = true)
    (hacc : d.accepts v.type = true) : v.fitsIn d = true := by
  induction h generalizing d with
  | expr => rfl
  | @array span type vs _ hjoin ih =>
    rw [Value.fitsIn]
    rw [Value.isClear] at hc
    cases he : d.peel with
    | error => rfl
    | ok e =>
      rw [he] at hc
      have hclear := Value.allClear_iff.1 hc
      refine Value.allFitIn_iff.2 fun v hv => ?_
      obtain ⟨hplain, hstring, hvc⟩ := hclear v hv
      obtain rfl | ⟨elem, rfl, helem, hcovers⟩ := Typing.arrayOf_covers (fun v hv => (hclear v hv).1) hjoin
      · cases hv
      have htake : e.accepts elem = true := Ty.peel_accepts hd he helem hacc
      have hfits : e.accepts v.type = true := ((hcovers v hv).trans helem hplain htake).resolve_right hstring
      exact ⟨hfits, ih v hv (Ty.isFlat_peel hd he) hvc hfits⟩

theorem Value.Joined.fitsIn_own {v : Value} (h : v.Joined) (hflat : v.type.isFlat = true)
    (hclear : v.isClear v.type = true) : v.fitsIn v.type = true := by
  cases h with
  | expr => rfl
  | @array span type vs hvs hjoin =>
    cases he : type.peel with
    | error => simp only [Value.type, Value.fitsIn, he]
    | ok e =>
      have hplain : ∀ v ∈ vs, v.type.plain = true := by
        simp only [Value.type, Value.isClear, he] at hclear
        exact fun v hv => (Value.allClear_iff.1 hclear v hv).1
      obtain rfl | ⟨elem, rfl, helem, -⟩ := Typing.arrayOf_covers hplain hjoin
      · simp only [Value.type, Value.fitsIn, he, Value.allFitIn]
      · exact (Value.Joined.array hvs hjoin).fitsIn hflat hclear (Ty.arrayOf_accepts_self helem)

namespace Typing

variable {T : Table} {sc : ScopeId}

mutual

theorem item_joined : ∀ n : Tree, Gives Value.Joined (item T sc n)
  | .missing => by rintro _ ⟨⟩
  | .node k text span cs => by
    unfold item
    split
    · refine (items_joined cs).bind fun is his => .ok ((all_holds his).bind fun vs hvs v hv => ?_)
      obtain ⟨type, rfl⟩ := arrayOf_holds v hv
      exact .array hvs hv
    · have hexpr : Gives (fun _ => True) (expr T sc (.node k text span cs)) := fun _ _ _ _ => trivial
      exact hexpr.bind fun e he => .ok (he.map fun _ _ => .expr)

theorem items_joined : ∀ ns : List Tree, AllGive Value.Joined (items T sc ns)
  | [] => by
    rw [items]
    exact allGive_nil
  | n :: ns => by
    rw [items]
    exact allGive_cons (item_joined n) (items_joined ns)

end

/-- **Array literals are sound where their types are clear.**  A place that takes a literal takes every element
    of it in its own places, however deep, if every element type is open at the top or nowhere and no `[]` is
    to be a string.  A place of the literal's own type is such a place. -/
theorem literal_fits {n : Tree} {v : Value} (h : item T sc n = .ok (.ok v)) :
    (∀ d : Ty, d.isFlat = true → v.isClear d = true → d.accepts v.type = true → v.fitsIn d = true) ∧
      (v.type.isFlat = true → v.isClear v.type = true → v.fitsIn v.type = true) := by
  have hjoined : v.Joined := item_joined n _ h v rfl
  exact ⟨fun d hd hclear => hjoined.fitsIn hd hclear, hjoined.fitsIn_own⟩

/-- A literal with an element of which nothing is known, and one that says what it is. -/
def halfOpen : Tree :=
  .node .arrayLit [] {} [.node .arrayLit [] {} [], .node .arrayLit [] {} [.node .intLit (lit "1") {} []]]

theorem literal_fits_halfOpen : ∃ v, item Table.empty Table.global halfOpen = .ok (.ok v) ∧
    v.type = .array .int 2 ∧ v.fitsIn (.array .int 2) = true := by
  obtain ⟨v, hv, htype, hclear⟩ : ∃ v, item Table.empty Table.global halfOpen = .ok (.ok v) ∧
      v.type = .array .int 2 ∧ v.isClear (.array .int 2) = true := ⟨_, rfl, rfl, by decide⟩
  exact ⟨v, hv, htype, (literal_fits hv).1 _ (by decide) hclear (by rw [htype]; decide)⟩

/-- A literal whose first element leaves open what its elements are over, so that the other two need not go
    together. -/
def mixed : File where
  id := 0
  path := lit "mixed.wacc"
  flags := 0
  content := lit "begin int[][][] a = [[[]], [[1]], [['a']]] end"

/-- Whether a program is a declaration with a literal that does not fit into its variable. -/
def isMisfit (p : Program) : Bool :=
  match p.body with
  | .declare _ _ _ type v => type.isFlat && type.accepts v.type && !v.fitsIn type
  | _ => false

theorem literal_misfit : ∃ p site x name type v, mixed.program? = some p ∧
    p.body = .declare site x name type v ∧ type.isFlat = true ∧ type.accepts v.type = true ∧
      v.fitsIn type = false := by
  have h : mixed.program?.any isMisfit = true := by decide +kernel
  obtain ⟨p, hp, hshape⟩ := (Option.any_eq_true _ _).1 h
  unfold isMisfit at hshape
  split at hshape
  case h_2 => cases hshape
  case h_1 hbody =>
    simp only [Bool.and_eq_true, Bool.not_eq_true'] at hshape
    exact ⟨p, _, _, _, _, _, hp, hbody, hshape.1.1, hshape.1.2, hshape.2⟩

/-- Strings take arrays of characters, but not `[]`; an array of strings takes `[[], ['a']]` all the same. -/
example : ∃ v, item Table.empty Table.global (.node .arrayLit [] {} [.node .arrayLit [] {} [],
    .node .arrayLit [] {} [.node .charLit (lit "'a'") {} []]]) = .ok (.ok v) ∧
      (Ty.array .string 1).accepts v.type = true ∧ v.fitsIn (.array .string 1) = false :=
  ⟨_, rfl, rfl, rfl⟩

end Typing

end Wacc
