/-
  Spellings of tokens.
-/
import Mathlib
import Wacc.Token.Scan

namespace Wacc

def IsName : Text → Prop
  | [] => False
  | b :: rest => Scan.isIdentStart b = true ∧ rest.all Scan.isIdentPart = true

def Kind.Spells : Kind → Text → Prop
  | .invalid, _ => False
  | .eof, t => t = []
  | .ident, t => IsName t
  | .intLit, t => t ≠ [] ∧ t.all Scan.isDigit = true
  | .charLit, t => ∃ c, Literal.char t = .ok c
  | .strLit, t => ∃ s, Literal.string t = .ok s
  | k, t => t = k.name

/-! ## Literals -/

namespace Literal

/-- The letters of the escapes, with the bytes that they stand for. -/
def escapes : List (UInt8 × UInt8) :=
  [('0'.toUInt8, 0), ('b'.toUInt8, 8), ('t'.toUInt8, 9), ('n'.toUInt8, 10), ('f'.toUInt8, 12), ('r'.toUInt8, 13),
    ('"'.toUInt8, '"'.toUInt8), ('\''.toUInt8, '\''.toUInt8), ('\\'.toUInt8, '\\'.toUInt8)]

theorem escape?_eq_some {e v : UInt8} : escape? e = some v ↔ (e, v) ∈ escapes := by
  have he : e = UInt8.ofNat e.toNat := by simp
  constructor
  · intro h
    unfold escape? at h
    split at h <;> cases h <;> (rename_i hn; rw [he, hn]; decide)
  · intro h
    simp only [escapes, List.mem_cons, Prod.mk.injEq, List.not_mem_nil, or_false] at h
    rcases h with ⟨rfl, rfl⟩ | ⟨rfl, rfl⟩ | ⟨rfl, rfl⟩ | ⟨rfl, rfl⟩ | ⟨rfl, rfl⟩ | ⟨rfl, rfl⟩ | ⟨rfl, rfl⟩ |
      ⟨rfl, rfl⟩ | ⟨rfl, rfl⟩ <;> rfl

/-- What stands for one byte between quotes. -/
inductive Item where
  | plain (b : UInt8)
  | escape (letter value : UInt8)

namespace Item

def spelling : Item → Text
  | plain b => [b]
  | escape e _ => ['\\'.toUInt8, e]

def byte : Item → UInt8
  | plain b => b
  | escape _ v => v

/-- The item can stand between quotes `q`. -/
def Fits (q : UInt8) : Item → Prop
  | plain b => b < 0x80 ∧ b ≠ '\\'.toUInt8 ∧ b ≠ '\n'.toUInt8 ∧ b ≠ q
  | escape e v => (e, v) ∈ escapes

instance (q : UInt8) : (i : Item) → Decidable (i.Fits q)
  | plain _ => inferInstanceAs (Decidable (_ ∧ _))
  | escape _ _ => inferInstanceAs (Decidable (_ ∈ _))

theorem byte_ascii {q : UInt8} {i : Item} (h : i.Fits q) : i.byte < 0x80 := by
  cases i with
  | plain => exact h.1
  | escape e v =>
    have h := escape?_eq_some.2 h
    change v < 0x80
    unfold escape? at h
    split at h <;> cases h <;> decide

theorem letter_ne_newline {e v : UInt8} (h : (e, v) ∈ escapes) : e ≠ '\n'.toUInt8 := by
  rintro rfl
  cases escape?_eq_some.2 h

end Item

def spelling (is : List Item) : Text := is.flatMap Item.spelling

def quoted (q : UInt8) (is : List Item) : Text := q :: (spelling is ++ [q])

variable {q : UInt8} {is : List Item}

theorem unescape_spelling (h : ∀ i ∈ is, i.Fits q) : unescape (spelling is) = .ok (is.map Item.byte) := by
  induction is with
  | nil => simp [spelling, unescape]
  | cons i is ih =>
    obtain ⟨hi, his⟩ := List.forall_mem_cons.1 h
    specialize ih his
    cases i with
    | plain b =>
      change unescape (b :: spelling is) = _
      rw [unescape.eq_def]
      simp only [if_neg hi.2.1, ih]
      rfl
    | escape e v =>
      change unescape ('\\'.toUInt8 :: e :: spelling is) = _
      rw [unescape.eq_def]
      simp only [if_true, escape?_eq_some.2 hi, ih]
      rfl

theorem body?_quoted : body? q (quoted q is) = some (spelling is) := by
  simp [body?, quoted]

theorem string_quoted (h : ∀ i ∈ is, i.Fits '"'.toUInt8) :
    string (quoted '"'.toUInt8 is) = .ok (is.map Item.byte) := by
  rw [string, body?_quoted]
  exact unescape_spelling h

theorem char_quoted {i : Item} (h : i.Fits '\''.toUInt8) : char (quoted '\''.toUInt8 [i]) = .ok i.byte := by
  have hu : unescape (spelling [i]) = .ok [i.byte] := unescape_spelling (List.forall_mem_singleton.2 h)
  obtain ⟨b, body, hb⟩ : ∃ b body, spelling [i] = b :: body := by cases i <;> exact ⟨_, _, rfl⟩
  rw [hb] at hu
  simp only [char, body?_quoted, hb, hu]

end Literal

namespace Scan

open Literal (Item spelling quoted)

variable {off : Nat} {t : Text} {content : Text} {file : UInt32} {b : UInt8} {k : Kind} {rest : Text}

theorem plainFindings_eq_nil : plainFindings off b = [] ↔ b < 0x80 := by
  unfold plainFindings
  split_ifs with h <;> simp [UInt8.not_le.1, UInt8.not_lt.2, h]

theorem escapeFindings_eq_nil {e : UInt8} : escapeFindings off e = [] ↔ ∃ v, (e, v) ∈ Literal.escapes := by
  simp only [← Literal.escape?_eq_some, escapeFindings]
  split <;> simp_all

theorem stringFrom_spelling {is : List Item} (h : ∀ i ∈ is, i.Fits '"'.toUInt8) (off : Nat) (rest : Text) :
    stringFrom off (spelling is ++ '"'.toUInt8 :: rest) = ⟨.strLit, off + (spelling is).length, []⟩ := by
  induction is generalizing off with
  | nil =>
    change stringFrom off ('"'.toUInt8 :: rest) = _
    rw [stringFrom.eq_def]
    rfl
  | cons i is ih =>
    obtain ⟨hi, his⟩ := List.forall_mem_cons.1 h
    cases i with
    | plain b =>
      change stringFrom off (b :: (spelling is ++ _)) = ⟨_, off + (spelling is).length.succ, _⟩
      obtain ⟨hascii, hb, hn, hq⟩ := hi
      rw [stringFrom.eq_def]
      simp only [if_neg hq, if_neg hn, if_neg hb, ih his, plainFindings_eq_nil.2 hascii, Lexeme.after, List.nil_append,
        Lexeme.mk.injEq, true_and, and_true]
      omega
    | escape e v =>
      change stringFrom off ('\\'.toUInt8 :: e :: (spelling is ++ _)) = ⟨_, off + (spelling is).length.succ.succ, _⟩
      rw [stringFrom.eq_def]
      simp only [if_neg (Item.letter_ne_newline hi), ih his, escapeFindings_eq_nil.2 ⟨v, hi⟩, Lexeme.after,
        List.nil_append]
      rw [if_neg (by decide), if_neg (by decide), if_true, Lexeme.mk.injEq]
      exact ⟨rfl, by omega, rfl⟩

theorem spelling_of_stringFrom (h : (stringFrom off t).findings = []) :
    ∃ is rest, (∀ i ∈ is, Item.Fits '"'.toUInt8 i) ∧ t = spelling is ++ '"'.toUInt8 :: rest := by
  fun_induction stringFrom off t with
  | case1 off => cases h
  | case2 off rest => exact ⟨[], rest, nofun, rfl⟩
  | case3 off rest => cases h
  | case4 off => cases h
  | case5 off => cases h
  | case6 off e rest _ _ _ ih =>
    simp only [Lexeme.after, List.append_eq_nil_iff] at h
    obtain ⟨v, hv⟩ := escapeFindings_eq_nil.1 h.1
    obtain ⟨is, rest', his, rfl⟩ := ih h.2
    exact ⟨.escape e v :: is, rest', List.forall_mem_cons.2 ⟨hv, his⟩, rfl⟩
  | case7 off b rest hq hn hb ih =>
    simp only [Lexeme.after, List.append_eq_nil_iff] at h
    obtain ⟨is, rest', his, rfl⟩ := ih h.2
    exact ⟨.plain b :: is, rest', List.forall_mem_cons.2 ⟨⟨plainFindings_eq_nil.1 h.1, hb, hn, hq⟩, his⟩, rfl⟩

theorem charEnd_closed (h : (charEnd off t).findings = []) : ∃ rest, t = '\''.toUInt8 :: rest := by
  unfold charEnd at h
  simp only at h
  split_ifs at h with hc hj
  rw [hj] at hc
  cases t with
  | nil => simp at hc
  | cons b rest => simp at hc; exact ⟨rest, by rw [hc]⟩

theorem charFrom_spelling {i : Item} (h : i.Fits '\''.toUInt8) (rest : Text) :
    charFrom (spelling [i] ++ '\''.toUInt8 :: rest) = ⟨.charLit, 1 + (spelling [i]).length, []⟩ := by
  have hend (off : Nat) : charEnd off ('\''.toUInt8 :: rest) = ⟨.charLit, off, []⟩ := by
    simp [charEnd]
  cases i with
  | plain b =>
    change charFrom (b :: '\''.toUInt8 :: rest) = ⟨_, 2, _⟩
    obtain ⟨hascii, hb, hn, hq⟩ := h
    rw [charFrom.eq_def]
    simp only [if_neg hq, if_neg hn, if_neg hb, hend, plainFindings_eq_nil.2 hascii]
    rfl
  | escape e v =>
    change charFrom ('\\'.toUInt8 :: e :: '\''.toUInt8 :: rest) = ⟨_, 3, _⟩
    rw [charFrom.eq_def]
    simp only [if_neg (Item.letter_ne_newline h), hend, escapeFindings_eq_nil.2 ⟨v, h⟩]
    rfl

theorem spelling_of_charFrom (h : (charFrom t).findings = []) :
    ∃ i rest, Item.Fits '\''.toUInt8 i ∧ t = spelling [i] ++ '\''.toUInt8 :: rest := by
  cases t with
  | nil => cases h
  | cons b rest =>
    rw [charFrom.eq_def] at h
    simp only at h
    split_ifs at h with hn hq hb
    · subst hb
      cases rest with
      | nil => obtain ⟨_, ht⟩ := charEnd_closed h; cases ht
      | cons e rest =>
        simp only at h
        split_ifs at h with he
        · obtain ⟨_, ht⟩ := charEnd_closed h
          cases ht
          exact absurd he (by decide)
        · simp only [Lexeme.after, List.append_eq_nil_iff] at h
          obtain ⟨v, hv⟩ := escapeFindings_eq_nil.1 h.1
          obtain ⟨rest', rfl⟩ := charEnd_closed h.2
          exact ⟨.escape e v, rest', hv, rfl⟩
    · simp only [Lexeme.after, List.append_eq_nil_iff] at h
      obtain ⟨rest', rfl⟩ := charEnd_closed h.2
      exact ⟨.plain b, rest', ⟨plainFindings_eq_nil.1 h.1, hb, hn, hq⟩, rfl⟩

/-! ## Words, numbers and symbols -/

theorem single_name (h : single b = some k) : k.Spells [b] := by
  unfold single at h
  have hb : b = UInt8.ofNat b.toNat := by simp
  split at h <;> simp only [Option.some.injEq, reduceCtorEq] at h <;> subst h <;>
    (rename_i hn; rw [hb, hn]; rfl)

theorem double_name {b c : UInt8} (h : double b = some (c, k)) : k.Spells [b, c] := by
  unfold double at h
  have hb : b = UInt8.ofNat b.toNat := by simp
  split at h <;> simp only [Option.some.injEq, Prod.mk.injEq, reduceCtorEq] at h <;>
    obtain ⟨rfl, rfl⟩ := h <;> (rename_i hn; rw [hb, hn]; rfl)

theorem keyword?_spells (h : Kind.keyword? t = some k) : k.Spells t := by
  have hk := List.mem_of_find?_eq_some h
  have hn : k.name = t := by simpa using List.find?_some h
  subst hn
  simp only [Kind.keywords, List.mem_cons, List.not_mem_nil, or_false] at hk
  rcases hk with rfl | rfl | rfl | rfl | rfl | rfl | rfl | rfl | rfl | rfl | rfl | rfl | rfl | rfl |
    rfl | rfl | rfl | rfl | rfl | rfl | rfl | rfl | rfl | rfl | rfl | rfl | rfl | rfl | rfl | rfl |
    rfl | rfl | rfl <;> rfl

theorem symbol1_spells (h : (symbol1 b).findings = []) : (symbol1 b).kind.Spells [b] ∧ (symbol1 b).more = 0 := by
  unfold symbol1 at h ⊢
  split at h
  · rename_i k hk
    exact ⟨single_name hk, rfl⟩
  · simp at h

theorem symbol_spells (h : (symbol b rest).findings = []) :
    (symbol b rest).kind.Spells (b :: rest.take (symbol b rest).more) := by
  unfold symbol at h ⊢
  split at h
  · rename_i c k hk
    split_ifs at h ⊢ with hr
    · cases rest with
      | nil => simp at hr
      | cons c' rest =>
        simp only [List.head?_cons, Option.some.injEq] at hr
        subst hr
        exact double_name hk
    · obtain ⟨h1, h2⟩ := symbol1_spells h
      rw [h2]; exact h1
  · obtain ⟨h1, h2⟩ := symbol1_spells h
    rw [h2]; exact h1

/-! ## Lexemes and tokens -/

theorem take_length_takeWhile (p : UInt8 → Bool) (t : Text) :
    t.take (t.takeWhile p).length = t.takeWhile p :=
  (List.prefix_iff_eq_take.1 (List.takeWhile_prefix p)).symm

/-- A string without findings takes the bytes up to its closing quote. -/
theorem stringFrom_quoted (h : (stringFrom 1 t).findings = []) :
    ∃ is, (∀ i ∈ is, Item.Fits '"'.toUInt8 i) ∧ (stringFrom 1 t).kind = .strLit ∧
      '"'.toUInt8 :: t.take (stringFrom 1 t).more = quoted '"'.toUInt8 is := by
  obtain ⟨is, rest, his, rfl⟩ := spelling_of_stringFrom h
  refine ⟨is, his, ?_⟩
  simp [stringFrom_spelling his, quoted, List.take_append, Nat.add_comm 1]

theorem charFrom_quoted (h : (charFrom t).findings = []) :
    ∃ i, Item.Fits '\''.toUInt8 i ∧ (charFrom t).kind = .charLit ∧
      '\''.toUInt8 :: t.take (charFrom t).more = quoted '\''.toUInt8 [i] := by
  obtain ⟨i, rest, hi, rfl⟩ := spelling_of_charFrom h
  refine ⟨i, hi, ?_⟩
  simp [charFrom_spelling hi, quoted, List.take_append, Nat.add_comm 1]

/-- **A lexeme without findings spells its kind.** -/
theorem lexeme_spells (h : (lexeme b rest).findings = []) :
    (lexeme b rest).kind.Spells (b :: rest.take (lexeme b rest).more) := by
  unfold lexeme at h ⊢
  split_ifs at h ⊢ with hi hd hs hc
  · simp only [word, take_length_takeWhile]
    cases hk : Kind.keyword? (b :: rest.takeWhile isIdentPart) with
    | none => exact ⟨hi, List.all_takeWhile⟩
    | some k => exact keyword?_spells hk
  · simp only [number, take_length_takeWhile]
    exact ⟨by simp, by rw [List.all_cons, hd, List.all_takeWhile]; rfl⟩
  · obtain ⟨is, his, hk, ht⟩ := stringFrom_quoted h
    rw [hk, hs, ht]
    exact ⟨_, Literal.string_quoted his⟩
  · obtain ⟨i, hi, hk, ht⟩ := charFrom_quoted h
    rw [hk, hc, ht]
    exact ⟨_, Literal.char_quoted hi⟩
  · exact symbol_spells h

theorem next_spells (h : (next file off content).diagnostics = []) :
    (next file off content).token.kind.Spells (next file off content).token.text := by
  unfold next at h ⊢
  simp only at h ⊢
  split at h
  · rfl
  · rw [List.map_eq_nil_iff] at h
    simp only
    rw [List.take_succ_cons]
    exact lexeme_spells h

theorem next_ascii {c : UInt8} (h : (next file off content).diagnostics = []) (hc : Literal.char (next file off
      content).token.text = .ok c) : c < 0x80 := by
  cases hd : content.drop (triviaLength false content) with
  | nil =>
    simp only [next, hd] at hc
    cases hc
  | cons b rest =>
    simp only [next, hd, List.map_eq_nil_iff, List.take_succ_cons] at h hc
    have hb : b = '\''.toUInt8 := by
      by_contra hb
      rw [Literal.char, Literal.body?, if_neg hb] at hc
      cases hc
    subst hb
    have hlexeme : lexeme '\''.toUInt8 rest = charFrom rest := rfl
    rw [hlexeme] at h hc
    obtain ⟨i, hi, -, ht⟩ := charFrom_quoted h
    rw [ht, Literal.char_quoted hi] at hc
    cases hc
    exact Item.byte_ascii hi

theorem length_text_next (file : UInt32) (off : Nat) (content : Text) :
    (next file off content).token.text.length + (content.drop (next file off content).used).length ≤
      content.length := by
  unfold next
  simp only
  split
  · rename_i hd
    have := congrArg List.length hd
    simp only [List.length_drop, List.length_nil] at this ⊢
    omega
  · rename_i b rest hd
    have := congrArg List.length hd
    simp only [List.length_drop, List.length_cons, List.length_take] at this ⊢
    omega

theorem mem_steps {s : Step} (hs : s ∈ steps file off content) : ∃ off content, s = next file off content := by
  fun_induction steps file off content with
  | case1 off content => exact ⟨off, content, List.mem_singleton.1 hs⟩
  | case2 off content _ _ ih =>
    obtain rfl | hs := List.mem_cons.1 hs
    · exact ⟨off, content, rfl⟩
    · exact ih hs

/-- **In a text without lexical problems every token spells its kind.** -/
theorem steps_spelled (h : (steps file off content).flatMap (·.diagnostics) = []) :
    ∀ s ∈ steps file off content, s.token.kind.Spells s.token.text := by
  intro s hs
  have hclean := List.flatMap_eq_nil_iff.1 h s hs
  obtain ⟨off, content, rfl⟩ := mem_steps hs
  exact next_spells hclean

theorem sum_length_steps (file : UInt32) (off : Nat) (content : Text) :
    ((steps file off content).map (·.token.text.length)).sum ≤ content.length := by
  induction hn : content.length using Nat.strong_induction_on generalizing off content with
  | _ n ih =>
    have hl := length_text_next file off content
    rw [steps]
    split_ifs with he
    · simp only [List.map_cons, List.map_nil, List.sum_cons, List.sum_nil]
      omega
    · have hs := ih _ (hn ▸ length_drop_next he) (off + (next file off content).used) _ rfl
      simp only [List.map_cons, List.sum_cons]
      omega

theorem steps_eof (file : UInt32) (off : Nat) (content : Text) :
    ∃ ss s, steps file off content = ss ++ [s] ∧ s.token.kind = .eof ∧
      ∀ r ∈ ss, r.token.kind ≠ .eof := by
  induction hn : content.length using Nat.strong_induction_on generalizing off content with
  | _ n ih =>
    rw [steps]
    split_ifs with he
    · exact ⟨[], _, rfl, he, by simp⟩
    · obtain ⟨ss, s, hs, hk, hr⟩ :=
        ih _ (hn ▸ length_drop_next he) (off + (next file off content).used) _ rfl
      refine ⟨_ :: ss, s, by rw [hs]; rfl, hk, ?_⟩
      intro r hm
      rcases List.mem_cons.1 hm with rfl | hm
      · exact he
      · exact hr r hm

end Scan

/-! ## Problems -/

structure Diagnostic.IsA (c : Category) (d : Diagnostic) : Prop where
  error : d.severity.isError = true
  category : d.code.category = c

theorem Scan.Fault.category_code (f : Scan.Fault) : f.code.category = .lexical := by
  cases f <;> (simp only [code]; decide)

variable {content : Text} {file : UInt32}

theorem Scan.mem_diagnostics {d : Diagnostic} (hd : d ∈ Scan.diagnostics file content) :
    ∃ (g : Scan.Finding) (off : Nat), d = g.diagnostic file off := by
  obtain ⟨s, hs, hd⟩ := List.mem_flatMap.1 hd
  obtain ⟨off, content, rfl⟩ := Scan.mem_steps hs
  unfold Scan.next at hd
  dsimp only at hd
  split at hd
  · cases hd
  · obtain ⟨g, -, rfl⟩ := List.mem_map.1 hd
    exact ⟨g, _, rfl⟩

theorem Scan.diagnostics_isA : ∀ d ∈ Scan.diagnostics file content, d.IsA .lexical := by
  intro d hd
  obtain ⟨g, off, rfl⟩ := Scan.mem_diagnostics hd
  exact ⟨rfl, g.fault.category_code⟩

end Wacc
