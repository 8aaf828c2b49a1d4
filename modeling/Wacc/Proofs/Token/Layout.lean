/-
  Tokens do not depend on layout.

  Every token that is scanned without a problem is firm: its text is scanned as that token again wherever a blank,
  a comment or the end of the text follows it.  So the tokens of a text stay what they are when other blanks and
  comments are put between them, and a literal is scanned exactly if it is the spelling of a list of items.
-/
import Wacc.Proofs.Token.Lossless

namespace Wacc.Scan

open Literal (Item spelling quoted)

/-! ## Breaks -/

/-- Nothing, or a blank or a comment first. -/
def Breaks (u : Text) : Prop := ∀ b ∈ u.head?, isBlank b = true ∨ b = '#'.toUInt8

variable {b : UInt8} {rest : Text} {u : Text}

theorem isBlank_of_mem (h : b ∈ [' '.toUInt8, '\t'.toUInt8, '\r'.toUInt8, '\n'.toUInt8]) : isBlank b = true := by
  simp only [List.mem_cons, List.not_mem_nil, or_false] at h
  rcases h with rfl | rfl | rfl | rfl <;> rfl

theorem IsTrivia.breaks {rest w : Text} (h : IsTrivia rest w) (hw : w ≠ []) (u : Text) : Breaks (w ++ u) := by
  cases h with
  | nil => exact absurd rfl hw
  | blank hb => rintro _ ⟨⟩; exact .inl (isBlank_of_mem hb)
  | comment | last => rintro _ ⟨⟩; exact .inr rfl

theorem triviaLength_comment {body : Text} (h : '\n'.toUInt8 ∉ body) (rest : Text) :
    triviaLength true (body ++ rest) = body.length + triviaLength true rest := by
  induction body with
  | nil => simp
  | cons b body ih =>
    obtain ⟨hb, hbody⟩ := not_or.1 (List.mem_cons.not.1 h)
    simp only [List.cons_append, triviaLength, if_true, if_neg (Ne.symm hb), ih hbody, List.length_cons]
    omega

theorem triviaLength_append {rest w : Text} (h : IsTrivia rest w) (hr : triviaLength false rest = 0) :
    triviaLength false (w ++ rest) = w.length := by
  induction h with
  | nil => exact hr
  | blank hb _ ih => simp [triviaLength, isBlank_of_mem hb, ih]
  | comment hbody _ ih =>
    have hhash : isBlank '#'.toUInt8 = false := rfl
    simp only [List.cons_append, List.append_assoc, triviaLength, hhash, triviaLength_comment hbody, ih, if_true,
      Bool.false_eq_true, if_false, List.length_cons, List.length_append]
  | last hbody hrest =>
    have hhash : isBlank '#'.toUInt8 = false := rfl
    have hend := triviaLength_comment hbody []
    rw [List.append_nil] at hend
    subst hrest
    simp [triviaLength, hhash, hend]

theorem triviaLength_lexeme (h : (lexeme b rest).findings = []) (t : Text) : triviaLength false (b :: t) = 0 := by
  have hblank : isBlank b ≠ true := fun hb => by
    have hb := isBlank_mem hb
    simp only [List.mem_cons, List.not_mem_nil, or_false] at hb
    rcases hb with rfl | rfl | rfl | rfl <;> cases h
  have hhash : b ≠ '#'.toUInt8 := by rintro rfl; cases h
  simp [triviaLength, hblank, hhash]

/-! ## Firm texts -/

/-- The text is scanned as one token of the kind wherever a break follows. -/
def Firm (k : Kind) (t : Text) : Prop :=
  ∃ b r, t = b :: r ∧ ∀ u, Breaks u → lexeme b (r ++ u) = ⟨k, r.length, []⟩

theorem takeWhile_breaks {p : UInt8 → Bool} (hp : ∀ b, isBlank b = true ∨ b = '#'.toUInt8 → p b = false) (t : Text)
    (hu : Breaks u) : (t.takeWhile p ++ u).takeWhile p = t.takeWhile p := by
  rw [List.takeWhile_append_of_pos fun b hb => List.mem_takeWhile_imp hb]
  cases u with
  | nil => simp
  | cons b u => simp [hp b (hu b rfl)]

theorem not_isIdentPart (h : isBlank b = true ∨ b = '#'.toUInt8) : isIdentPart b = false := by
  rcases h with h | rfl
  · have h := isBlank_mem h
    simp only [List.mem_cons, List.not_mem_nil, or_false] at h
    rcases h with rfl | rfl | rfl | rfl <;> rfl
  · rfl

theorem firm_string {is : List Item} (h : ∀ i ∈ is, i.Fits '"'.toUInt8) : Firm .strLit (quoted '"'.toUInt8 is) := by
  refine ⟨_, _, rfl, fun u _ => ?_⟩
  change stringFrom 1 _ = _
  rw [List.append_assoc, List.singleton_append, stringFrom_spelling h, List.length_append, Nat.add_comm 1]
  rfl

theorem firm_char {i : Item} (h : i.Fits '\''.toUInt8) : Firm .charLit (quoted '\''.toUInt8 [i]) := by
  refine ⟨_, _, rfl, fun u _ => ?_⟩
  change charFrom _ = _
  rw [List.append_assoc, List.singleton_append, charFrom_spelling h, List.length_append, Nat.add_comm 1]
  rfl

theorem double_second {b c : UInt8} {k : Kind} (h : double b = some (c, k)) (hu : Breaks u) : u.head? ≠ some c := by
  intro hc
  have hbreak := hu c hc
  unfold double at h
  split at h <;> simp only [Option.some.injEq, Prod.mk.injEq, reduceCtorEq] at h <;>
    obtain ⟨rfl, rfl⟩ := h <;> revert hbreak <;> decide

theorem symbol_firm (h : (symbol b rest).findings = []) (hu : Breaks u) :
    symbol b (rest.take (symbol b rest).more ++ u) =
      ⟨(symbol b rest).kind, (rest.take (symbol b rest).more).length, []⟩ := by
  have hone : (symbol1 b).findings = [] → ∃ k, symbol1 b = ⟨k, 0, []⟩ := by
    unfold symbol1
    split
    · exact fun _ => ⟨_, rfl⟩
    · nofun
  cases hd : double b with
  | none =>
    have hsymbol (t : Text) : symbol b t = symbol1 b := by simp only [symbol, hd]
    rw [hsymbol rest] at h ⊢
    obtain ⟨k, hk⟩ := hone h
    rw [hsymbol, hk]
    rfl
  | some ck =>
    obtain ⟨c, k⟩ := ck
    have hsymbol (t : Text) : symbol b t = if t.head? = some c then ⟨k, 1, []⟩ else symbol1 b := by
      simp only [symbol, hd]
    rw [hsymbol rest] at h ⊢
    split_ifs at h ⊢ with hr
    · cases rest with
      | nil => cases hr
      | cons c' rest => cases hr; simp [hsymbol]
    · obtain ⟨k', hk'⟩ := hone h
      rw [hk', hsymbol, List.take_zero, List.nil_append, if_neg (double_second hd hu), hk']
      rfl

/-- **A lexeme without findings is firm.** -/
theorem lexeme_firm (h : (lexeme b rest).findings = []) :
    Firm (lexeme b rest).kind (b :: rest.take (lexeme b rest).more) := by
  by_cases hi : isIdentStart b = true
  · refine ⟨b, _, rfl, fun u hu => ?_⟩
    simp only [lexeme, if_pos hi, word, take_length_takeWhile, takeWhile_breaks (fun _ => not_isIdentPart) rest hu]
  by_cases hd : isDigit b = true
  · refine ⟨b, _, rfl, fun u hu => ?_⟩
    have hp : ∀ b, isBlank b = true ∨ b = '#'.toUInt8 → isDigit b = false := fun b hb =>
      (Bool.or_eq_false_iff.1 (not_isIdentPart hb)).2
    simp only [lexeme, if_neg hi, if_pos hd, number, take_length_takeWhile, takeWhile_breaks hp rest hu]
  by_cases hs : b = '"'.toUInt8
  · subst hs
    obtain ⟨is, his, hk, ht⟩ := stringFrom_quoted (t := rest) h
    have hfirm := firm_string his
    rw [← hk, ← ht] at hfirm
    exact hfirm
  by_cases hc : b = '\''.toUInt8
  · subst hc
    obtain ⟨i, hi, hk, ht⟩ := charFrom_quoted (t := rest) h
    have hfirm := firm_char hi
    rw [← hk, ← ht] at hfirm
    exact hfirm
  · refine ⟨b, _, rfl, fun u hu => ?_⟩
    simp only [lexeme, if_neg hi, if_neg hd, if_neg hs, if_neg hc] at h ⊢
    exact symbol_firm h hu

section
variable (file : UInt32) (off : Nat)

theorem next_cases (content : Text) :
    (next file off content).token.kind = .eof ∧ (next file off content).token.text = [] ∨
      ∃ b rest, (next file off content).token.kind = (lexeme b rest).kind ∧
        (next file off content).token.text = b :: rest.take (lexeme b rest).more ∧
        ((next file off content).diagnostics = [] → (lexeme b rest).findings = []) := by
  unfold next
  dsimp only
  split
  · exact .inl ⟨rfl, rfl⟩
  · exact .inr ⟨_, _, rfl, rfl, List.map_eq_nil_iff.1⟩

theorem next_firm {k : Kind} {v t u : Text} (hv : IsTrivia (t ++ u) v) (ht : Firm k t) (hu : Breaks u) :
    ∃ span, next file off (v ++ (t ++ u)) = ⟨⟨k, span, t⟩, [], v.length + t.length⟩ := by
  obtain ⟨b, r, rfl, hr⟩ := ht
  have hlexeme := hr u hu
  have hskip := triviaLength_append hv (triviaLength_lexeme (by rw [hlexeme]) _)
  rw [List.cons_append] at hskip ⊢
  simp only [next, hskip, List.drop_left, hlexeme, List.map_nil, List.take_succ_cons, List.take_left, List.length_cons]
  exact ⟨_, rfl⟩

/-! ## Layout -/

/-- Blanks and complete comments, at least one byte. -/
def Separates (w : Text) : Prop := w ≠ [] ∧ ∀ rest, IsTrivia rest w

/-- The texts in order, the `i`-th gap being `w i`. -/
def spaced (w : Nat → Text) : List Text → Text
  | [] => []
  | [t] => t
  | t :: ts => t ++ (w 0 ++ spaced (fun i => w (i + 1)) ts)

theorem steps_spaced {w : Nat → Text} (hw : ∀ i, Separates (w i)) {ts : List (Kind × Text)}
    (hts : ∀ t ∈ ts, Firm t.1 t.2) {v : Text} (hv : ∀ rest, IsTrivia rest v) :
    (steps file off (v ++ spaced w (ts.map (·.2)))).map (fun s => (s.token.kind, s.token.text)) = ts ++ [(.eof, [])] ∧
      (steps file off (v ++ spaced w (ts.map (·.2)))).flatMap (·.diagnostics) = [] := by
  induction ts generalizing w off v with
  | nil =>
    have hskip := triviaLength_append (hv []) rfl
    obtain ⟨span, hnext⟩ : ∃ span, next file off (v ++ []) = ⟨⟨.eof, span, []⟩, [], v.length⟩ := by
      simp only [next, hskip, List.drop_left]
      exact ⟨_, rfl⟩
    rw [List.map_nil, spaced, steps, hnext]
    exact ⟨rfl, rfl⟩
  | cons t ts ih =>
    obtain ⟨ht, hts⟩ := List.forall_mem_cons.1 hts
    -- behind the token there is a gap and then the rest, or nothing
    obtain ⟨v', w', hv', hw', hbreaks, hspaced⟩ : ∃ v' w', (∀ rest, IsTrivia rest v') ∧ (∀ i, Separates (w' i)) ∧
        Breaks (v' ++ spaced w' (ts.map (·.2))) ∧
        spaced w ((t :: ts).map (·.2)) = t.2 ++ (v' ++ spaced w' (ts.map (·.2))) := by
      cases ts with
      | nil => exact ⟨[], w, fun _ => .nil, hw, by simp [Breaks, spaced], (List.append_nil _).symm⟩
      | cons t' ts =>
        exact ⟨w 0, _, (hw 0).2, fun i => hw (i + 1), ((hw 0).2 []).breaks (hw 0).1 _, rfl⟩
    obtain ⟨span, hnext⟩ := next_firm file off (hv _) ht hbreaks
    have hkind : t.1 ≠ .eof := by
      obtain ⟨b, r, -, hr⟩ := ht
      exact fun he => lexeme_kind b (r ++ []) (by rw [hr [] (by simp [Breaks]), he])
    obtain ⟨hshapes, hclean⟩ := ih (off + (v.length + t.2.length)) hw' hts hv'
    have hdrop : (v ++ (t.2 ++ (v' ++ spaced w' (ts.map (·.2))))).drop (v.length + t.2.length) =
        v' ++ spaced w' (ts.map (·.2)) := by
      rw [← List.append_assoc, ← List.length_append, List.drop_left]
    rw [hspaced, steps, hnext]
    dsimp only
    rw [dif_neg hkind, hdrop, List.map_cons, hshapes, List.flatMap_cons, hclean]
    exact ⟨rfl, rfl⟩

end

/-- **Tokens do not depend on layout.**  If a text is scanned without problems and other blanks and comments are put
    between its tokens, the new text is scanned without problems, as tokens of the same kinds and texts. -/
theorem tokens_spaced (file file' : UInt32) (content : Text) (w : Nat → Text) (h : diagnostics file content = [])
    (hw : ∀ i, Separates (w i)) :
    diagnostics file' (spaced w ((tokens file content).dropLast.map (·.text))) = [] ∧
      (tokens file' (spaced w ((tokens file content).dropLast.map (·.text)))).map (fun t => (t.kind, t.text)) =
        (tokens file content).map fun t => (t.kind, t.text) := by
  obtain ⟨ss, e, hss, heof, hkinds⟩ := steps_eof file 0 content
  have hspells := steps_spelled h
  have hmem : ∀ s ∈ ss ++ [e], (∃ off content, s = next file off content) ∧ s.diagnostics = [] := fun s hs =>
    ⟨mem_steps (hss ▸ hs), List.flatMap_eq_nil_iff.1 h s (hss ▸ hs)⟩
  have hfirm : ∀ t ∈ ss.map fun s => (s.token.kind, s.token.text), Firm t.1 t.2 := by
    intro t ht
    obtain ⟨s, hs, rfl⟩ := List.mem_map.1 ht
    obtain ⟨⟨off, content, rfl⟩, hclean⟩ := hmem s (List.mem_append_left _ hs)
    obtain ⟨hk, -⟩ | ⟨b, rest, hk, ht, hf⟩ := next_cases file off content
    · exact absurd hk (hkinds _ hs)
    · rw [hk, ht]
      exact lexeme_firm (hf hclean)
  have hlast : e.token.text = [] := by
    have := hspells e (hss ▸ List.mem_append_right _ List.mem_cons_self)
    rwa [heof] at this
  obtain ⟨hshapes, hclean⟩ := steps_spaced file' 0 hw hfirm fun _ => .nil
  have htokens : (tokens file content).dropLast.map (·.text) =
      (ss.map fun s => (s.token.kind, s.token.text)).map (·.2) := by
    simp [tokens, hss]
  rw [htokens]
  refine ⟨hclean, ?_⟩
  rw [tokens, List.map_map]
  exact hshapes.trans (by simp [tokens, hss, heof, hlast])

/-- Words, symbols and literals close together, and far apart. -/
theorem tokens_spaced_literals : diagnostics 0 (lit "x=='#'+\"a\\\"\"") = [] ∧
    (tokens 1 (lit "x # gap\n== # gap\n'#' # gap\n+ # gap\n\"a\\\"\"")).map (fun t => (t.kind, t.text)) =
      (tokens 0 (lit "x=='#'+\"a\\\"\"")).map fun t => (t.kind, t.text) := by
  have hclean : diagnostics 0 (lit "x=='#'+\"a\\\"\"") = [] := by decide +kernel
  have hgap (rest : Text) : IsTrivia rest (lit " # gap\n") :=
    .blank (by decide) (@IsTrivia.comment rest (lit " gap") [] (by decide) .nil)
  have h := (tokens_spaced 0 1 _ (fun _ => lit " # gap\n") hclean fun _ => ⟨by decide, hgap⟩).2
  have hspaced : spaced (fun _ => lit " # gap\n") ((tokens 0 (lit "x=='#'+\"a\\\"\"")).dropLast.map (·.text)) =
      lit "x # gap\n== # gap\n'#' # gap\n+ # gap\n\"a\\\"\"" := by decide +kernel
  rw [hspaced] at h
  exact ⟨hclean, h⟩

/-! ## Literals -/

theorem tokens_of_firm {k : Kind} {t : Text} (h : Firm k t) (file : UInt32) : diagnostics file t = [] ∧
    (tokens file t).map (fun t => (t.kind, t.text)) = [(k, t), (.eof, [])] := by
  have hfirm : ∀ u ∈ [(k, t)], Firm u.1 u.2 := List.forall_mem_singleton.2 h
  obtain ⟨hshapes, hclean⟩ := steps_spaced file 0 (w := fun _ => lit " ") (v := [])
    (fun _ => ⟨by decide, fun _ => .blank (by decide) .nil⟩) hfirm fun _ => .nil
  refine ⟨hclean, ?_⟩
  rw [tokens, List.map_map]
  exact hshapes

/-- **Scanning and decoding agree on literals.**  Items between quotes are scanned as one literal and decoded as the
    bytes of the items; and every literal that is scanned without a problem is spelled like that. -/
theorem literals_agree (file : UInt32) :
    (∀ is : List Item, (∀ i ∈ is, i.Fits '"'.toUInt8) →
      diagnostics file (quoted '"'.toUInt8 is) = [] ∧
      (tokens file (quoted '"'.toUInt8 is)).map (fun t => (t.kind, t.text)) =
        [(.strLit, quoted '"'.toUInt8 is), (.eof, [])] ∧
      Literal.string (quoted '"'.toUInt8 is) = .ok (is.map Item.byte)) ∧
    (∀ i : Item, i.Fits '\''.toUInt8 →
      diagnostics file (quoted '\''.toUInt8 [i]) = [] ∧
      (tokens file (quoted '\''.toUInt8 [i])).map (fun t => (t.kind, t.text)) =
        [(.charLit, quoted '\''.toUInt8 [i]), (.eof, [])] ∧
      Literal.char (quoted '\''.toUInt8 [i]) = .ok i.byte) ∧
    ∀ content, ∀ s ∈ steps file 0 content, s.diagnostics = [] →
      (s.token.kind = .strLit → ∃ is : List Item, (∀ i ∈ is, i.Fits '"'.toUInt8) ∧
        s.token.text = quoted '"'.toUInt8 is ∧ Literal.string s.token.text = .ok (is.map Item.byte)) ∧
      (s.token.kind = .charLit → ∃ i : Item, i.Fits '\''.toUInt8 ∧
        s.token.text = quoted '\''.toUInt8 [i] ∧ Literal.char s.token.text = .ok i.byte) := by
  refine ⟨fun is h => ?_, fun i h => ?_, fun content s hs hclean => ?_⟩
  · obtain ⟨hd, ht⟩ := tokens_of_firm (firm_string h) file
    exact ⟨hd, ht, Literal.string_quoted h⟩
  · obtain ⟨hd, ht⟩ := tokens_of_firm (firm_char h) file
    exact ⟨hd, ht, Literal.char_quoted h⟩
  obtain ⟨off, content, rfl⟩ := mem_steps hs
  have hspells := next_spells hclean
  obtain ⟨hk, -⟩ | ⟨b, rest, -, ht, hf⟩ := next_cases file off content
  · rw [hk]
    exact ⟨nofun, nofun⟩
  rw [ht] at hspells ⊢
  -- the first byte tells which of the two literals it is
  refine ⟨fun hk => ?_, fun hk => ?_⟩ <;> rw [hk] at hspells <;> obtain ⟨v, hv⟩ := hspells
  · obtain rfl : b = '"'.toUInt8 := by
      by_contra hb
      rw [Literal.string, Literal.body?, if_neg hb] at hv
      cases hv
    obtain ⟨is, his, -, hquoted⟩ := stringFrom_quoted (t := rest) (hf hclean)
    exact ⟨is, his, hquoted, hquoted ▸ Literal.string_quoted his⟩
  · obtain rfl : b = '\''.toUInt8 := by
      by_contra hb
      rw [Literal.char, Literal.body?, if_neg hb] at hv
      cases hv
    obtain ⟨i, hi, -, hquoted⟩ := charFrom_quoted (t := rest) (hf hclean)
    exact ⟨i, hi, hquoted, hquoted ▸ Literal.char_quoted hi⟩

theorem literals_agree_escapes :
    (tokens 0 (lit "\"'\\n\\\"\"")).map (fun t => (t.kind, t.text)) = [(.strLit, lit "\"'\\n\\\"\""), (.eof, [])] ∧
    Literal.string (lit "\"'\\n\\\"\"") = .ok [0x27, 10, 0x22] ∧ Literal.char (lit "'\\''") = .ok 0x27 ∧
    ∃ i : Item, i.Fits '\''.toUInt8 ∧ lit "'\"'" = quoted '\''.toUInt8 [i] := by
  obtain ⟨hstring, hchar, hback⟩ := literals_agree 0
  obtain ⟨-, htokens, hvalue⟩ := hstring [.plain 0x27, .escape 0x6E 10, .escape 0x22 0x22] (by decide)
  obtain ⟨s, hs, hclean, hkind, htext⟩ : ∃ s ∈ steps 0 0 (lit "'\"'"), s.diagnostics = [] ∧ s.token.kind = .charLit ∧
      s.token.text = lit "'\"'" := by
    rw [steps]
    exact ⟨_, List.mem_cons_self, rfl, rfl, rfl⟩
  obtain ⟨i, hi, hquoted, -⟩ := (hback _ s hs hclean).2 hkind
  exact ⟨htokens, hvalue, (hchar (.escape 0x27 0x27) (by decide)).2.2, i, hi, htext ▸ hquoted⟩

end Wacc.Scan
