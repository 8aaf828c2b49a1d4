/-
  Parts of texts, and numbers in decimal.
-/
import Mathlib
import Wacc.Text.Number

namespace Wacc

namespace Text

/-! ## Cutting -/

variable {sep : UInt8}

theorem splitOn_append {t rest : Text} (h : sep ∉ t) : splitOn sep (t ++ sep :: rest) = t :: splitOn sep rest := by
  induction t with
  | nil => simp [splitOn]
  | cons b t ih =>
    obtain ⟨hb, ht⟩ := not_or.1 (List.mem_cons.not.1 h)
    rw [List.cons_append, splitOn, if_neg (Ne.symm hb), ih ht]

theorem splitOn_flatMap {parts : List Text} (h : ∀ t ∈ parts, sep ∉ t) :
    splitOn sep (parts.flatMap fun t => t ++ [sep]) = parts ++ [[]] := by
  induction parts with
  | nil => rfl
  | cons t parts ih =>
    obtain ⟨ht, hparts⟩ := List.forall_mem_cons.1 h
    rw [List.flatMap_cons, List.append_assoc, List.singleton_append, splitOn_append ht, ih hparts,
      List.cons_append]

theorem cut?_append {x y p : Text} {c : UInt8} (h : c ∉ x) :
    cut? (x ++ c :: p ++ y) (c :: p) = some (x, y) := by
  induction x with
  | nil => simp [cut?]
  | cons b x ih =>
    obtain ⟨hb, hx⟩ := not_or.1 (List.mem_cons.not.1 h)
    have hne : (c :: p).isPrefixOf (b :: (x ++ c :: p ++ y)) = false := by
      simp [List.isPrefixOf, beq_false_of_ne hb]
    rw [List.cons_append, List.cons_append, cut?, hne, if_neg Bool.false_ne_true, ih hx]
    rfl

theorem contains_iff {t p : Text} : contains t p = true ↔ p <:+: t := by
  induction t with
  | nil => cases p <;> simp [contains, cut?]
  | cons b t ih =>
    rw [contains] at ih ⊢
    rw [cut?, List.infix_cons_iff]
    by_cases hp : p.isPrefixOf (b :: t) = true
    · simp [hp, List.isPrefixOf_iff_prefix.1 hp]
    · have hn : ¬ p <+: b :: t := fun h => hp (List.isPrefixOf_iff_prefix.2 h)
      simp [hp, hn, ih]

theorem before?_append (t s : Text) : before? (t ++ s) s = some t := by
  simp [before?]

theorem before?_eq_none {t s : Text} (h : ¬ s <:+ t) : before? t s = none := by
  simp [before?, h]

end Text

/-! ## White space -/

namespace Utf8

variable {t : Text}

theorem pieces_ascii (h : ∀ b ∈ t, b < 0x80) : pieces t = t.map fun b => ⟨b.toNat, [b]⟩ := by
  induction t with
  | nil => simp [pieces]
  | cons b t ih =>
    obtain ⟨hb, ht⟩ := List.forall_mem_cons.1 h
    have hd : decode b t = (0, b.toNat) := if_pos hb
    rw [pieces, hd]
    simp [ih ht]

def IsInk (b : UInt8) : Prop := 32 < b ∧ b < 127

/-- Text that begins and ends with ink, and has no control characters between. -/
structure Tight (t : Text) : Prop where
  bytes : ∀ b ∈ t, 32 ≤ b ∧ b < 127
  first : ∃ b, t.head? = some b ∧ IsInk b
  last : ∃ b, t.getLast? = some b ∧ IsInk b

theorem Tight.append {t u : Text} (ht : ∀ b ∈ t, 32 ≤ b ∧ b < 127) (hu : ∀ b ∈ u, 32 ≤ b ∧ b < 127)
    (first : ∃ b, t.head? = some b ∧ IsInk b) (last : ∃ b, u.getLast? = some b ∧ IsInk b) :
    Tight (t ++ u) := by
  refine ⟨List.forall_mem_append.2 ⟨ht, hu⟩, ?_, ?_⟩
  · obtain ⟨b, hb, hink⟩ := first
    exact ⟨b, by rw [List.head?_append, hb, Option.some_or], hink⟩
  · obtain ⟨b, hb, hink⟩ := last
    exact ⟨b, by rw [List.getLast?_append, hb, Option.some_or], hink⟩

theorem isSpace_ink {b : UInt8} (h : IsInk b) : isSpace b.toNat = false := by
  have h1 : 32 < b.toNat := UInt8.lt_iff_toNat_lt.1 h.1
  have h2 : b.toNat < 127 := UInt8.lt_iff_toNat_lt.1 h.2
  simp only [isSpace, Bool.or_eq_false_iff, Bool.and_eq_false_iff, decide_eq_false_iff_not, beq_eq_false_iff_ne]
  omega

theorem dropWhile_ink (h : ∃ b, t.head? = some b ∧ IsInk b) :
    (t.map fun b => (⟨b.toNat, [b]⟩ : Piece)).dropWhile (fun p => isSpace p.code) =
      t.map fun b => ⟨b.toNat, [b]⟩ := by
  obtain ⟨b, hb, hink⟩ := h
  obtain ⟨rest, rfl⟩ : ∃ rest, t = b :: rest := by
    cases t with
    | nil => cases hb
    | cons c rest => exact ⟨rest, by cases hb; rfl⟩
  rw [List.map_cons, List.dropWhile_cons_of_neg (by simp [isSpace_ink hink])]

theorem trimSpace_tight (h : Tight t) : trimSpace t = t := by
  have hlast : ∃ b, t.reverse.head? = some b ∧ IsInk b := by simpa using h.last
  have hascii : ∀ b ∈ t, b < 0x80 := fun b hb => UInt8.lt_trans (h.bytes b hb).2 (by decide)
  simp only [trimSpace]
  rw [pieces_ascii hascii, dropWhile_ink h.first, ← List.map_reverse, dropWhile_ink hlast,
    List.map_reverse, List.reverse_reverse, List.flatMap_map]
  exact List.flatMap_singleton' t

theorem trimSpace_tab (h : Tight t) : trimSpace (9 :: t) = t := by
  have hp : pieces (9 :: t) = ⟨9, [9]⟩ :: pieces t := by
    rw [pieces, show decode 9 t = (0, 9) from rfl]
    simp
  have hdrop : trimSpace (9 :: t) = trimSpace t := by
    simp only [trimSpace, hp]
    rfl
  rw [hdrop, trimSpace_tight h]

end Utf8

/-! ## Numbers -/

theorem Text.digit_toNat {d : Nat} (h : d < 10) : (Text.digit d).toNat = 48 + d := by
  rw [Text.digit, if_pos h, Nat.toUInt8, UInt8.toNat_ofNat_of_lt' (by simp only [UInt8.size]; omega)]

theorem decimal_eq (n : Nat) :
    decimal n = (if n < 10 then [] else decimal (n / 10)) ++ [Text.digit (n % 10)] := by
  by_cases h0 : n = 0
  · subst h0; rfl
  · have hrev : Text.digitsRev 10 n = Text.digit (n % 10) :: Text.digitsRev 10 (n / 10) := by
      rw [Text.digitsRev, dif_neg (by omega)]
    rw [decimal, Text.digits, if_neg h0, hrev, List.reverse_cons]
    by_cases h : n < 10
    · rw [if_pos h, show n / 10 = 0 by omega, Text.digitsRev, dif_pos (by omega), List.reverse_nil]
    · rw [if_neg h, decimal, Text.digits, if_neg (by omega)]

theorem decimal_ne_nil (n : Nat) : decimal n ≠ [] := by rw [decimal_eq]; simp

theorem Text.digits_isDigit {base : Nat} (h : base ≤ 10) (n : Nat) :
    ∀ b ∈ Text.digits base n, 48 ≤ b ∧ b ≤ 57 := by
  have hdigit : ∀ d < 10, 48 ≤ Text.digit d ∧ Text.digit d ≤ 57 := fun d hd => by
    have := Text.digit_toNat hd
    simp only [UInt8.le_iff_toNat_le, UInt8.reduceToNat]
    omega
  have hrev : ∀ b ∈ Text.digitsRev base n, 48 ≤ b ∧ b ≤ 57 := by
    fun_induction Text.digitsRev base n with
    | case1 => simp
    | case2 n hn ih =>
      refine List.forall_mem_cons.2 ⟨hdigit _ ?_, ih⟩
      have := Nat.mod_lt n (show 0 < base by omega)
      omega
  unfold Text.digits
  split_ifs with h0
  · exact List.forall_mem_singleton.2 (hdigit 0 (by omega))
  · exact fun b hb => hrev b (List.mem_reverse.1 hb)

theorem decimal_isDigit (n : Nat) : ∀ b ∈ decimal n, 48 ≤ b ∧ b ≤ 57 := Text.digits_isDigit le_rfl n

def decimalValue (t : Text) : Nat := t.foldl (fun n b => n * 10 + (b.toNat - 48)) 0

theorem decimalValue_decimal (n : Nat) : decimalValue (decimal n) = n := by
  induction n using Nat.strong_induction_on with
  | _ n ih =>
    have hd := Text.digit_toNat (Nat.mod_lt n (show 0 < 10 by omega))
    rw [decimal_eq, decimalValue, List.foldl_append]
    simp only [List.foldl_cons, List.foldl_nil, hd]
    split_ifs with h
    · simp only [List.foldl_nil]; omega
    · have := ih (n / 10) (by omega)
      rw [decimalValue] at this
      rw [this]
      omega

theorem decimal_injective : Function.Injective decimal := fun m n h => by
  rw [← decimalValue_decimal m, h, decimalValue_decimal]

namespace Number

theorem digits_append (base n : Nat) (t u : Text) :
    digits base n (t ++ u) = (digits base n t).bind fun m => digits base m u := by
  induction t generalizing n with
  | nil => rfl
  | cons b t ih =>
    rw [List.cons_append, digits, digits]
    split
    · rfl
    · split_ifs
      · rfl
      · rfl
      · exact ih _

theorem digits_digit {n d : Nat} (hd : d < 10) (h : n * 10 + d < 2 ^ 64) :
    digits 10 n [Text.digit d] = .ok (n * 10 + d) := by
  have hv : digitValue? (Text.digit d) = some d := by
    have ht := Text.digit_toNat hd
    have h1 : (48 : UInt8) ≤ Text.digit d := by rw [UInt8.le_iff_toNat_le, ht]; simp
    have h2 : Text.digit d ≤ (57 : UInt8) := by rw [UInt8.le_iff_toNat_le, ht]; simp; omega
    rw [digitValue?, if_pos ⟨h1, h2⟩, ht, Nat.add_sub_cancel_left]
  simp only [digits, hv]
  rw [if_neg (by omega), if_neg (by omega)]

theorem digits_decimal {n : Nat} (h : n < 2 ^ 64) : digits 10 0 (Wacc.decimal n) = .ok n := by
  induction n using Nat.strong_induction_on with
  | _ n ih =>
    have hlt := Nat.mod_lt n (show 0 < 10 by omega)
    rw [decimal_eq, digits_append]
    split_ifs with h10
    · have := digits_digit (n := 0) hlt (by omega)
      rw [show 0 * 10 + n % 10 = n by omega] at this
      exact this
    · rw [ih (n / 10) (by omega) (by omega)]
      have := digits_digit (n := n / 10) hlt (by omega)
      rw [show n / 10 * 10 + n % 10 = n by omega] at this
      exact this

theorem unsigned_decimal {n : Nat} (h : n < 2 ^ 64) : unsigned 10 (Wacc.decimal n) = .ok n := by
  rw [unsigned, if_neg (by simp [decimal_ne_nil]), digits_decimal h]

theorem sign_decimal (n : Nat) : sign (Wacc.decimal n) = (false, Wacc.decimal n) := by
  cases ht : Wacc.decimal n with
  | nil => rfl
  | cons b t =>
    obtain ⟨hb, -⟩ := decimal_isDigit n b (by rw [ht]; exact List.mem_cons_self ..)
    have h1 : b ≠ '-'.toUInt8 := by rintro rfl; exact absurd hb (by decide)
    have h2 : b ≠ '+'.toUInt8 := by rintro rfl; exact absurd hb (by decide)
    rw [sign, if_neg h1, if_neg h2]

theorem decimal_decimalInt {n : Int} (h0 : -2 ^ 63 ≤ n) (h : n < 2 ^ 63) :
    decimal (decimalInt n) = .ok n := by
  cases n with
  | ofNat n =>
    have hn : n < 2 ^ 63 := by simpa using h
    show (do signedValue (sign (Wacc.decimal n)).1 (← unsigned 10 (sign (Wacc.decimal n)).2)) = _
    rw [sign_decimal, unsigned_decimal (by omega)]
    show signedValue false n = _
    rw [signedValue, if_neg Bool.false_ne_true, if_neg (by omega)]
    rfl
  | negSucc n =>
    rw [Int.negSucc_eq] at h0
    show (do signedValue true (← unsigned 10 (Wacc.decimal (n + 1)))) = _
    rw [unsigned_decimal (by omega)]
    show signedValue true (n + 1) = _
    rw [signedValue, if_pos rfl, if_neg (by omega), Int.negSucc_eq]
    rfl

end Number

end Wacc
