/-
  Scanning loses nothing.

  The tokens of a file cover all of its bytes but blanks and comments: each token is spelled by the
  bytes of its span, and what stands before, between and behind the spans is trivia.
-/
import Wacc.Token.Lexer
import Wacc.Proofs.Token.Spelling

namespace Wacc.Scan

/-! ## Blanks and comments -/

/-- Blanks and comments before the bytes `rest`.  Only a comment in the last line of a text can do
    without the end of its line. -/
inductive IsTrivia (rest : Text) : Text → Prop
  | nil : IsTrivia rest []
  | blank {b t} : b ∈ [' '.toUInt8, '\t'.toUInt8, '\r'.toUInt8, '\n'.toUInt8] →
    IsTrivia rest t → IsTrivia rest (b :: t)
  | comment {body t} : '\n'.toUInt8 ∉ body → IsTrivia rest t →
    IsTrivia rest ('#'.toUInt8 :: (body ++ '\n'.toUInt8 :: t))
  | last {body} : '\n'.toUInt8 ∉ body → rest = [] → IsTrivia rest ('#'.toUInt8 :: body)

def EndsComment (rest t : Text) : Prop :=
  ∃ body, '\n'.toUInt8 ∉ body ∧
    (t = body ∧ rest = [] ∨ ∃ u, t = body ++ '\n'.toUInt8 :: u ∧ IsTrivia rest u)

variable {b : UInt8} {rest t : Text}

theorem EndsComment.cons (hb : b ≠ '\n'.toUInt8) (h : EndsComment rest t) : EndsComment rest (b :: t) := by
  obtain ⟨body, hbody, h⟩ := h
  refine ⟨b :: body, fun hmem => ?_, ?_⟩
  · rcases List.mem_cons.1 hmem with heq | hmem
    · exact hb heq.symm
    · exact hbody hmem
  · rcases h with ⟨rfl, hrest⟩ | ⟨u, rfl, hu⟩
    · exact .inl ⟨rfl, hrest⟩
    · exact .inr ⟨u, rfl, hu⟩

theorem EndsComment.trivia (h : EndsComment rest t) : IsTrivia rest ('#'.toUInt8 :: t) := by
  obtain ⟨body, hbody, ⟨rfl, hrest⟩ | ⟨u, rfl, hu⟩⟩ := h
  · exact .last hbody hrest
  · exact .comment hbody hu

theorem isBlank_mem (h : isBlank b = true) : b ∈ [' '.toUInt8, '\t'.toUInt8, '\r'.toUInt8, '\n'.toUInt8] := by
  simp only [isBlank, Bool.or_eq_true, beq_iff_eq] at h
  simp only [List.mem_cons, List.not_mem_nil, or_false]
  tauto

theorem triviaLength_trivia (t : Text) :
    IsTrivia (t.drop (triviaLength false t)) (t.take (triviaLength false t)) ∧
      EndsComment (t.drop (triviaLength true t)) (t.take (triviaLength true t)) := by
  induction t with
  | nil => exact ⟨.nil, [], List.not_mem_nil, .inl ⟨rfl, rfl⟩⟩
  | cons b t ih =>
    constructor
    · simp only [triviaLength, Bool.false_eq_true, if_false]
      split_ifs with hb hc
      · exact .blank (isBlank_mem hb) ih.1
      · subst hc
        exact ih.2.trivia
      · exact .nil
    · simp only [triviaLength, if_true]
      split_ifs with hb
      · subst hb
        exact ⟨[], List.not_mem_nil, .inr ⟨_, rfl, ih.1⟩⟩
      · exact ih.2.cons hb

theorem triviaLength_le (c : Bool) (t : Text) : triviaLength c t ≤ t.length := by
  induction t generalizing c with
  | nil => exact Nat.le_refl 0
  | cons b t ih =>
    have h1 := ih true
    have h2 := ih false
    simp only [triviaLength, List.length_cons]
    split_ifs <;> omega

/-! ## Lexemes -/

/-- A lexeme of which at least `least` bytes after the first one are read, and at most `most`; what is
    wrong with it lies inside it. -/
structure Lexeme.Fits (l : Lexeme) (least most : Nat) : Prop where
  least : least ≤ l.more
  most : l.more ≤ most
  inside : ∀ f ∈ l.findings, f.start < f.stop ∧ f.stop ≤ l.more + 1

theorem Lexeme.Fits.after {l : Lexeme} {least most : Nat} {fs : List Finding} (h : l.Fits least most)
    (hf : ∀ f ∈ fs, f.start < f.stop ∧ f.stop ≤ least + 1) : (l.after fs).Fits least most := by
  refine ⟨h.least, h.most, fun f hmem => ?_⟩
  rcases List.mem_append.1 hmem with hmem | hmem
  · obtain ⟨h1, h2⟩ := hf f hmem
    exact ⟨h1, h2.trans (Nat.succ_le_succ h.least)⟩
  · exact h.inside f hmem

theorem Lexeme.Fits.weaken {l : Lexeme} {least most least' most' : Nat} (h : l.Fits least most)
    (hl : least' ≤ least) (hm : most ≤ most') : l.Fits least' most' :=
  ⟨hl.trans h.least, h.most.trans hm, h.inside⟩

theorem Lexeme.Fits.clean {k : Kind} {more least most : Nat} (hl : least ≤ more) (hm : more ≤ most) :
    (Lexeme.mk k more []).Fits least most := ⟨hl, hm, by simp⟩

theorem Lexeme.Fits.whole {k : Kind} {fault : Fault} {more stop least most : Nat} (hl : least ≤ more)
    (hm : more ≤ most) (hs : stop = more + 1) : (Lexeme.mk k more [⟨fault, 0, stop⟩]).Fits least most := by
  refine ⟨hl, hm, fun f hf => ?_⟩
  obtain rfl := List.mem_singleton.1 hf
  exact ⟨by simp only; omega, hs.le⟩

theorem escapeFindings_inside {off : Nat} {e : UInt8} :
    ∀ f ∈ escapeFindings off e, f.start < f.stop ∧ f.stop ≤ off + 2 := by
  intro f hf
  unfold escapeFindings at hf
  split at hf
  · cases hf
  · obtain rfl := List.mem_singleton.1 hf
    exact ⟨by simp only; omega, le_rfl⟩

theorem plainFindings_inside {off : Nat} : ∀ f ∈ plainFindings off b, f.start < f.stop ∧ f.stop ≤ off + 1 := by
  intro f hf
  unfold plainFindings at hf
  split_ifs at hf
  · obtain rfl := List.mem_singleton.1 hf
    exact ⟨by simp only; omega, le_rfl⟩
  · cases hf

theorem stringFrom_fits (off : Nat) (t : Text) (hoff : 1 ≤ off) :
    (stringFrom off t).Fits (off - 1) (off - 1 + t.length) := by
  fun_induction stringFrom off t with
  | case1 off => exact .whole le_rfl (by simp) (by omega)
  | case2 off rest => exact .clean (by omega) (by simp only [List.length_cons]; omega)
  | case3 off rest => exact .whole le_rfl (by simp) (by omega)
  | case4 off => exact .whole (by omega) (by simp only [List.length_cons, List.length_nil]; omega) rfl
  | case5 off rest => exact .whole (by omega) (by simp only [List.length_cons]; omega) rfl
  | case6 off e rest _ _ _ ih =>
    refine ((ih (by omega)).after ?_).weaken (by omega) (by simp only [List.length_cons]; omega)
    exact fun f hf => ⟨(escapeFindings_inside f hf).1, (escapeFindings_inside f hf).2.trans (by omega)⟩
  | case7 off b rest _ _ _ ih =>
    refine ((ih (by omega)).after ?_).weaken (by omega) (by simp only [List.length_cons]; omega)
    exact fun f hf => ⟨(plainFindings_inside f hf).1, (plainFindings_inside f hf).2.trans (by omega)⟩

theorem charEnd_fits (off : Nat) (rest : Text) (hoff : 1 ≤ off) :
    (charEnd off rest).Fits (off - 1) (off - 1 + rest.length) := by
  set junk := (rest.takeWhile fun b => b != '\''.toUInt8 && b != '\n'.toUInt8).length with hjunk
  have hle : junk ≤ rest.length := (List.takeWhile_sublist _).length_le
  -- a closing quote is one byte more
  have hlt : ((rest.drop junk).head? == some '\''.toUInt8) = true → junk < rest.length := by
    intro hclosed
    by_contra hge
    rw [List.drop_eq_nil_of_le (by omega)] at hclosed
    cases hclosed
  simp only [charEnd, ← hjunk]
  split_ifs with hclosed
  · have := hlt hclosed
    exact .clean (by omega) (by omega)
  · have := hlt hclosed
    exact .whole (by omega) (by omega) rfl
  · exact .whole (by omega) (by omega) (by omega)

theorem charFrom_fits (t : Text) : (charFrom t).Fits 0 t.length := by
  unfold charFrom
  split
  · exact .whole le_rfl (Nat.zero_le _) rfl
  · rename_i b rest
    split_ifs with hn hq hb
    · exact .whole le_rfl (Nat.zero_le _) rfl
    · exact .whole (by omega) (by simp) rfl
    · split
      · exact (charEnd_fits 2 [] (by omega)).weaken (Nat.zero_le _) (by simp)
      · rename_i e rest'
        split_ifs
        · exact (charEnd_fits 2 _ (by omega)).weaken (Nat.zero_le _) (by simp only [List.length_cons]; omega)
        · refine ((charEnd_fits 3 rest' (by omega)).after ?_).weaken (Nat.zero_le _)
            (by simp only [List.length_cons]; omega)
          exact fun f hf => ⟨(escapeFindings_inside f hf).1, (escapeFindings_inside f hf).2⟩
    · refine ((charEnd_fits 2 rest (by omega)).after ?_).weaken (Nat.zero_le _)
        (by simp only [List.length_cons]; omega)
      exact fun f hf => ⟨(plainFindings_inside f hf).1, (plainFindings_inside f hf).2⟩

theorem symbol_fits (b : UInt8) (rest : Text) : (symbol b rest).Fits 0 rest.length := by
  have hone : (symbol1 b).Fits 0 rest.length := by
    unfold symbol1
    split
    · exact .clean le_rfl (Nat.zero_le _)
    · exact .whole le_rfl (Nat.zero_le _) rfl
  unfold symbol
  split
  · split_ifs with hr
    · cases rest with
      | nil => cases hr
      | cons => exact .clean (Nat.zero_le _) (by simp)
    · exact hone
  · exact hone

/-- **A lexeme takes bytes that are there**, and its findings lie inside it. -/
theorem lexeme_fits (b : UInt8) (rest : Text) : (lexeme b rest).Fits 0 rest.length := by
  unfold lexeme
  split_ifs
  · exact .clean (Nat.zero_le _) (List.takeWhile_sublist _).length_le
  · exact .clean (Nat.zero_le _) (List.takeWhile_sublist _).length_le
  · exact (stringFrom_fits 1 rest le_rfl).weaken (Nat.zero_le _) (by omega)
  · exact charFrom_fits rest
  · exact symbol_fits b rest

theorem stringFrom_kind (off : Nat) (t : Text) :
    (stringFrom off t).kind = .invalid ∨ (stringFrom off t).kind = .strLit := by
  fun_induction stringFrom off t with
  | case1 | case3 | case4 | case5 => exact .inl rfl
  | case2 => exact .inr rfl
  | case6 _ _ _ _ _ _ ih | case7 _ _ _ _ _ _ ih => exact ih

theorem charEnd_kind (off : Nat) (t : Text) :
    (charEnd off t).kind = .invalid ∨ (charEnd off t).kind = .charLit := by
  simp only [charEnd]
  split_ifs <;> simp

theorem charFrom_kind (t : Text) : (charFrom t).kind = .invalid ∨ (charFrom t).kind = .charLit := by
  unfold charFrom
  split
  · exact .inl rfl
  · split_ifs
    · exact .inl rfl
    · exact .inl rfl
    · split
      · exact charEnd_kind 2 []
      · split_ifs <;> exact charEnd_kind _ _
    · exact charEnd_kind _ _

theorem symbol_valid {rest : Text} (h : (symbol b rest).kind = .eof) : (symbol b rest).findings = [] := by
  have hone : (symbol1 b).kind = .eof → (symbol1 b).findings = [] := by
    unfold symbol1
    split
    · exact fun _ => rfl
    · rintro ⟨⟩
  unfold symbol at h ⊢
  split at h
  · split_ifs at h ⊢
    · rfl
    · exact hone h
  · exact hone h

theorem lexeme_kind (b : UInt8) (rest : Text) : (lexeme b rest).kind ≠ .eof := by
  intro h
  by_cases hf : (lexeme b rest).findings = []
  · have hs := lexeme_spells hf
    rw [h] at hs
    cases hs
  · unfold lexeme at h hf
    split_ifs at h hf
    · exact hf rfl
    · cases h
    · rcases stringFrom_kind 1 rest with hk | hk <;> rw [hk] at h <;> cases h
    · rcases charFrom_kind rest with hk | hk <;> rw [hk] at h <;> cases h
    · exact hf (symbol_valid h)

/-! ## Covering -/

def slice (content : Text) (a b : Nat) : Text := (content.drop a).take (b - a)

def Inside (file : UInt32) (a b : Nat) (d : Diagnostic) : Prop :=
  d.IsA .lexical ∧ ∃ i j, a ≤ i ∧ i < j ∧ j ≤ b ∧ d.span = ⟨file, i.toUInt32, j.toUInt32⟩

/-- The steps cover the content of a file from the offset `off` on: trivia and tokens alternate, the
    end of the file comes last. -/
inductive Covers (file : UInt32) (content : Text) : Nat → List Step → Prop
  | eof {off s} : off ≤ content.length →
    IsTrivia [] (slice content off content.length) →
    s.token = ⟨.eof, ⟨file, content.length.toUInt32, content.length.toUInt32⟩, []⟩ →
    s.diagnostics = [] → Covers file content off [s]
  | token {off a b k s ss} : off ≤ a → a < b → b ≤ content.length →
    IsTrivia (content.drop a) (slice content off a) → k ≠ .eof →
    s.token = ⟨k, ⟨file, a.toUInt32, b.toUInt32⟩, slice content a b⟩ →
    (∀ d ∈ s.diagnostics, Inside file a b d) → (k = .invalid → s.diagnostics ≠ []) →
    Covers file content b ss → Covers file content off (s :: ss)

theorem steps_covers (file : UInt32) (content : Text) {off : Nat} (hoff : off ≤ content.length) :
    Covers file content off (steps file off (content.drop off)) := by
  induction hn : content.length - off using Nat.strong_induction_on generalizing off with
  | _ n ih =>
    set skip := triviaLength false (content.drop off) with hskip
    have htrivia := (triviaLength_trivia (content.drop off)).1
    have hle := triviaLength_le false (content.drop off)
    rw [← hskip, List.drop_drop] at htrivia
    rw [← hskip, List.length_drop] at hle
    have hslice : slice content off (off + skip) = (content.drop off).take skip := by
      rw [slice, Nat.add_sub_cancel_left]
    rw [steps]
    cases hd : content.drop (off + skip) with
    | nil =>
      have hlen := congrArg List.length hd
      rw [List.length_drop, List.length_nil] at hlen
      have hend : off + skip = content.length := by omega
      have hnext : next file off (content.drop off) =
          ⟨⟨.eof, ⟨file, content.length.toUInt32, content.length.toUInt32⟩, []⟩, [], skip⟩ := by
        simp only [next, ← hskip, List.drop_drop, hd]
        rw [hend]
      rw [hnext, dif_pos rfl]
      rw [hd, ← hslice, hend] at htrivia
      exact .eof hoff htrivia rfl rfl
    | cons b rest =>
      have hlen := congrArg List.length hd
      rw [List.length_drop, List.length_cons] at hlen
      have hfits := lexeme_fits b rest
      have hmost := hfits.most
      set size := (lexeme b rest).more + 1 with hsize
      have hnext : next file off (content.drop off) =
          ⟨⟨(lexeme b rest).kind, ⟨file, (off + skip).toUInt32, (off + skip + size).toUInt32⟩,
            slice content (off + skip) (off + skip + size)⟩,
            (lexeme b rest).findings.map (·.diagnostic file (off + skip)), skip + size⟩ := by
        simp only [next, ← hskip, List.drop_drop, hd, slice, Nat.add_sub_cancel_left, hsize]
      have hrest : Covers file content (off + skip + size)
          (steps file (off + (skip + size)) ((content.drop off).drop (skip + size))) := by
        rw [List.drop_drop, show off + (skip + size) = off + skip + size by omega]
        exact ih (content.length - (off + skip + size)) (by omega) (by omega) rfl
      rw [hnext, dif_neg (lexeme_kind b rest)]
      rw [← hslice] at htrivia
      refine .token (Nat.le_add_right off skip) (by omega) (by omega) htrivia (lexeme_kind b rest) rfl ?_ ?_
        hrest
      · intro d hdiag
        obtain ⟨f, hf, rfl⟩ := List.mem_map.1 hdiag
        obtain ⟨h1, h2⟩ := hfits.inside f hf
        exact ⟨⟨rfl, f.fault.category_code⟩, off + skip + f.start, off + skip + f.stop, by omega, by omega,
          by omega, rfl⟩
      · intro hk hnone
        have hspells := lexeme_spells (List.map_eq_nil_iff.1 hnone)
        rw [hk] at hspells
        exact hspells

/-! ## Gaps -/

def gaps (off : Nat) : List Token → List (Nat × Nat)
  | [] => []
  | t :: ts => (off, t.span.start.toNat) :: gaps t.span.stop.toNat ts

section
variable {file : UInt32} {content : Text} {off : Nat} {ss : List Step}

theorem toNat_offset {n : Nat} (hlen : content.length < 2 ^ 32) (hn : n ≤ content.length) :
    n.toUInt32.toNat = n := UInt32.toNat_ofNat_of_lt' (by show n < 2 ^ 32; omega)

theorem Covers.gaps (hlen : content.length < 2 ^ 32) (h : Covers file content off ss) :
    ∀ g ∈ gaps off (ss.map (·.token)), g.1 ≤ g.2 ∧ g.2 ≤ content.length ∧
      IsTrivia (content.drop g.2) (slice content g.1 g.2) := by
  induction h with
  | eof hoff htrivia htoken _ =>
    intro g hg
    simp only [List.map_cons, List.map_nil, Scan.gaps, htoken, toNat_offset hlen le_rfl,
      List.mem_singleton] at hg
    subst hg
    exact ⟨hoff, le_rfl, by rwa [List.drop_eq_nil_of_le le_rfl]⟩
  | token hoff hab hb htrivia _ htoken _ _ _ ih =>
    intro g hg
    simp only [List.map_cons, Scan.gaps, htoken, toNat_offset hlen hb, toNat_offset hlen (hab.le.trans hb),
      List.mem_cons] at hg
    rcases hg with rfl | hg
    · exact ⟨hoff, hab.le.trans hb, htrivia⟩
    · exact ih g hg

theorem Covers.mem (h : Covers file content off ss) {s : Step} (hs : s ∈ ss) (hk : s.token.kind ≠ .eof) :
    ∃ a b, off ≤ a ∧ a < b ∧ b ≤ content.length ∧
      s.token = ⟨s.token.kind, ⟨file, a.toUInt32, b.toUInt32⟩, slice content a b⟩ ∧
      (∀ d ∈ s.diagnostics, Inside file a b d) ∧ (s.token.kind = .invalid → s.diagnostics ≠ []) := by
  induction h with
  | eof _ _ htoken _ =>
    obtain rfl := List.mem_singleton.1 hs
    rw [htoken] at hk
    exact absurd rfl hk
  | @token off a b k r ss hoff hab hb _ _ htoken hinside hinvalid _ ih =>
    rcases List.mem_cons.1 hs with rfl | hs
    · exact ⟨a, b, hoff, hab, hb, by rw [htoken], hinside, by rw [htoken]; exact hinvalid⟩
    · obtain ⟨a', b', ha', hrest⟩ := ih hs
      exact ⟨a', b', by omega, hrest⟩

theorem Covers.ordered (hlen : content.length < 2 ^ 32) (h : Covers file content off ss) :
    ∃ rs e, ss = rs ++ [e] ∧
      e.token = ⟨.eof, ⟨file, content.length.toUInt32, content.length.toUInt32⟩, []⟩ ∧
      e.diagnostics = [] ∧ (∀ r ∈ rs, r.token.kind ≠ .eof) ∧
      rs.Pairwise fun r r' => r.token.span.stop ≤ r'.token.span.start := by
  induction h with
  | @eof off s _ _ htoken hclean => exact ⟨[], s, rfl, htoken, hclean, by simp, List.Pairwise.nil⟩
  | @token off a b k r ss _ hab hb _ hk htoken _ _ hrest ih =>
    obtain ⟨rs, e, rfl, he, hclean, hkinds, hpair⟩ := ih
    refine ⟨r :: rs, e, rfl, he, hclean, List.forall_mem_cons.2 ⟨by rw [htoken]; exact hk, hkinds⟩, ?_⟩
    refine List.pairwise_cons.2 ⟨fun r' hr' => ?_, hpair⟩
    obtain ⟨a', b', ha', hab', hb', htoken', -⟩ :=
      hrest.mem (List.mem_append_left _ hr') (hkinds r' hr')
    rw [htoken, htoken']
    refine UInt32.le_iff_toNat_le.2 ?_
    simp only [toNat_offset hlen hb, toNat_offset hlen (hab'.le.trans hb')]
    exact ha'

end

/-- **Scanning loses nothing.**  The tokens of a file end with the end of the file; every other token
    has at least one byte and is spelled by the bytes of its span; the spans are in order and do not
    overlap; and before, between and behind them there are blanks and comments only.  Every lexical
    error is about a part of one token, and an invalid token has one. -/
theorem all_lossless {f : File} (hlen : f.content.length < 2 ^ 32) :
    ∃ ts eof, (Lexer.start f).all.1 = ts ++ [eof] ∧
      eof.kind = .eof ∧ eof.span = ⟨f.id, f.content.length.toUInt32, f.content.length.toUInt32⟩ ∧
      (∀ t ∈ ts, t.kind ≠ .eof ∧ t.span.file = f.id ∧ t.span.start < t.span.stop ∧
        t.span.stop.toNat ≤ f.content.length ∧ t.text = f.slice t.span.start t.span.stop) ∧
      (ts.Pairwise fun t u => t.span.stop ≤ u.span.start) ∧
      (∀ g ∈ gaps 0 (ts ++ [eof]), g.1 ≤ g.2 ∧ g.2 ≤ f.content.length ∧
        IsTrivia (f.content.drop g.2) (slice f.content g.1 g.2)) ∧
      (∀ d ∈ diagnostics f.id f.content, d.IsA .lexical ∧ ∃ t ∈ ts, t.span.contains d.span = true) ∧
      ∀ t ∈ ts, t.kind = .invalid →
        ∃ d ∈ diagnostics f.id f.content, d.IsA .lexical ∧ t.span.contains d.span = true := by
  have hcovers : Covers f.id f.content 0 (steps f.id 0 f.content) := steps_covers f.id f.content (Nat.zero_le _)
  have hgaps := hcovers.gaps hlen
  have hall : (Lexer.start f).all.1 = (steps f.id 0 f.content).map (·.token) := rfl
  obtain ⟨rs, e, hsteps, he, hclean, hkinds, hpair⟩ := hcovers.ordered hlen
  -- the diagnostics of a step are about its token
  have hcontains : ∀ r ∈ rs, ∀ d ∈ r.diagnostics, d.IsA .lexical ∧ r.token.span.contains d.span = true := by
    intro r hr d hd
    obtain ⟨a, b, -, hab, hb, htoken, hinside, -⟩ :=
      hcovers.mem (hsteps ▸ List.mem_append_left _ hr) (hkinds r hr)
    obtain ⟨hlexical, i, j, hai, hij, hjb, hspan⟩ := hinside d hd
    refine ⟨hlexical, ?_⟩
    rw [htoken, hspan]
    simp only [Span.contains, BEq.rfl, Bool.true_and, Bool.and_eq_true, decide_eq_true_eq,
      UInt32.le_iff_toNat_le, toNat_offset hlen (hab.le.trans hb), toNat_offset hlen hb,
      toNat_offset hlen (hjb.trans hb), toNat_offset hlen (hij.le.trans (hjb.trans hb))]
    exact ⟨hai, hjb⟩
  rw [hall, hsteps, List.map_append, List.map_singleton]
  rw [hsteps, List.map_append, List.map_singleton] at hgaps
  refine ⟨rs.map (·.token), e.token, rfl, by rw [he], by rw [he], ?_, List.pairwise_map.2 hpair, hgaps, ?_, ?_⟩
  · intro t ht
    obtain ⟨r, hr, rfl⟩ := List.mem_map.1 ht
    obtain ⟨a, b, -, hab, hb, htoken, -⟩ := hcovers.mem (hsteps ▸ List.mem_append_left _ hr) (hkinds r hr)
    have ha' := toNat_offset hlen (hab.le.trans hb)
    have hb' := toNat_offset hlen hb
    refine ⟨hkinds r hr, ?_⟩
    rw [htoken]
    refine ⟨rfl, UInt32.lt_iff_toNat_lt.2 (by simp only [ha', hb']; exact hab), by simp only [hb']; exact hb, ?_⟩
    simp only [slice, File.slice, ha', hb']
  · intro d hd
    obtain ⟨r, hr, hdr⟩ := List.mem_flatMap.1 hd
    rw [hsteps] at hr
    rcases List.mem_append.1 hr with hr | hr
    · obtain ⟨hlexical, hin⟩ := hcontains r hr d hdr
      exact ⟨hlexical, r.token, List.mem_map_of_mem hr, hin⟩
    · rw [List.mem_singleton.1 hr, hclean] at hdr
      cases hdr
  · intro t ht hk
    obtain ⟨r, hr, rfl⟩ := List.mem_map.1 ht
    obtain ⟨a, b, -, -, -, -, -, hinvalid⟩ :=
      hcovers.mem (hsteps ▸ List.mem_append_left _ hr) (hkinds r hr)
    obtain ⟨d, ds, hds⟩ := List.exists_cons_of_ne_nil (hinvalid hk)
    have hmem : d ∈ r.diagnostics := by rw [hds]; exact List.mem_cons_self
    refine ⟨d, List.mem_flatMap.2 ⟨r, hsteps ▸ List.mem_append_left _ hr, hmem⟩, hcontains r hr d hmem⟩

/-- A text in which most lexemes are wrong: a letter after a backslash, a string that its line does
    not close, two letters in quotes, half a symbol. -/
def scraps : File where
  id := 3
  path := lit "scraps.wacc"
  flags := 0
  content := lit "\"a\\q\" # one\n 'ab' &&&\"open\n\t7x#end"

theorem all_lossless_scraps : scraps.content.length < 2 ^ 32 ∧ ∃ ts eof,
    (Lexer.start scraps).all.1 = ts ++ [eof] ∧
    ts.map (·.kind) = [.strLit, .invalid, .andAnd, .invalid, .invalid, .intLit, .ident] ∧
    (∀ t ∈ ts, t.text = scraps.slice t.span.start t.span.stop) ∧
    (∀ t ∈ ts, t.kind = .invalid → ∃ d ∈ diagnostics scraps.id scraps.content,
      t.span.contains d.span = true) := by
  have hlen : scraps.content.length < 2 ^ 32 := by decide
  obtain ⟨ts, eof, hall, -, -, htext, -, -, -, hinvalid⟩ := all_lossless hlen
  have hkinds : (Lexer.start scraps).all.1.map (·.kind) =
      [.strLit, .invalid, .andAnd, .invalid, .invalid, .intLit, .ident] ++ [.eof] := by decide +kernel
  rw [hall, List.map_append] at hkinds
  refine ⟨hlen, ts, eof, hall, (List.append_inj' hkinds rfl).1, fun t ht => (htext t ht).2.2.2.2,
    fun t ht hk => ?_⟩
  obtain ⟨d, hd, -, hin⟩ := hinvalid t ht hk
  exact ⟨d, hd, hin⟩

end Wacc.Scan
