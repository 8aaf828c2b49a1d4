/-
  Statements, functions and programs of the grammar can be read.
-/
import Wacc.Proofs.Tree.Complete
import Wacc.Proofs.Tree.SoundProgram

namespace Wacc.Rule

open Grammar (head)

variable {r : Reader} {p m : Nat} {T : Tree} {rest ws : List Terminal}
  {us : List Token} {slot : Bool} {text : Text} {many : Bool}

/-! ## Statements -/

theorem head_of_type (h : Grammar.IsType slot T) (ws : List Terminal) :
    (head (T.unparse ++ ws)).isBaseType = true ∨ head (T.unparse ++ ws) = .kwPair := by
  induction h generalizing ws with
  | base hk =>
    rw [unparse_baseType hk]
    exact .inl hk
  | bare => exact .inr (by rw [Tree.unparse_node]; exact congrArg Terminal.kind (Terminal.ofText_name _ (by decide)))
  | pair => exact .inr (by rw [Tree.unparse_node]; rfl)
  | array _ ih | pairs _ _ ih =>
    rw [Tree.unparse_node, List.map_singleton, NodeKind.layout, List.append_assoc]
    exact ih _

theorem head_of_place (h : Grammar.IsPlace T) (ws : List Terminal) :
    head (T.unparse ++ ws) ∈ [Kind.ident, .kwFst, .kwSnd] := by
  cases h with
  | element hk ht =>
    obtain ⟨text, rfl⟩ | ⟨text, is, -, -, rfl⟩ := ht.element_cases hk
    · exact List.mem_cons_self
    · rw [Tree.unparse_node]
      exact List.mem_cons_self
  | slot hk hc => exact List.mem_cons_of_mem _ (head_of_slot (.slot hk hc) rfl ws)

theorem declare_accepts {t v : Tree} (ht : Grammar.IsType false t) (hv : Grammar.IsValue v) (hrest : Stops 0 rest) :
    Accepts declare (.node .declare [] {} [t, Grammar.ident text, v]) rest := by
  intro r p hr
  simp only [row_steps, NodeKind.layout] at hr
  simp only [declare, symbol, wp_steps]
  refine (type_accepts ht ((Grammar.ident text).unparse ++ _) ⟨(by rintro ⟨⟩), (by rintro ⟨⟩)⟩).call hr rfl fun t1 s1 ht1 h1 => ?_
  refine (ident_accepts text _).call h1 rfl fun t2 s2 ht2 h2 => ?_
  refine wp_expect_accepts h2 fun _ s3 h3 => ?_
  simp only [wp_steps]
  exact (value_accepts hv rest hrest).call h3 rfl fun t3 s4 ht3 h4 =>
    ht1 ▸ ht2 ▸ ht3 ▸ gives_build [t1, t2, t3] h4

theorem assign_accepts {l v : Tree} (hl : Grammar.IsPlace l) (hv : Grammar.IsValue v) (hrest : Stops 0 rest) :
    Accepts assign (.node .assign [] {} [l, v]) rest := by
  intro r p hr
  simp only [row_steps, NodeKind.layout] at hr
  simp only [assign, symbol, wp_steps]
  refine (place_accepts hl (Kind.assign.terminal :: _) (by rw [hr.length]; exact Nat.lt_succ_self _) (by rintro ⟨⟩)).call hr rfl
    fun t1 s1 ht1 h1 => ?_
  simp only [wp_steps]
  refine wp_expect_accepts h1 fun _ s2 h2 => ?_
  simp only [wp_steps]
  exact (value_accepts hv rest hrest).call h2 rfl fun t2 s3 ht2 h3 => ht1 ▸ ht2 ▸ gives_build [t1, t2] h3

/-- From less than `m` terminals the rule reads the sequence `T`, unless it is continued. -/
def AcceptsBody (m : Nat) (x : Rule (Option Tree)) (T : Tree) : Prop :=
  ∀ rest, (T.unparse ++ rest).length < m → Stops 0 rest → head rest ≠ .semicolon → Accepts x T rest

theorem AcceptsBody.call {x : Rule (Option Tree)} {k : Kind} {Q : Option Tree → Reader → Prop} (h : AcceptsBody m x T)
    (hr : r.Before ws p) (hws : ws = T.unparse ++ k.terminal :: rest) (hm : ws.length < m)
    (hk : k ≠ .lbracket ∧ Grammar.level? k = none ∧ k ≠ .semicolon)
    (hq : ∀ t s, t.bare = T → s.Before (k.terminal :: rest) p → Q (some t) s) : Wp x Q r :=
  (h _ (hws ▸ hm) (stops_of hk.1 hk.2.1) hk.2.2).call hr hws hq

section
variable {x : Rule (Option Tree)} {ss : List Tree}

theorem stats_accepts {n : Nat} {done : List Tree} (hne : ss ≠ []) (hss : ∀ s ∈ ss, AcceptsUnder m x s)
    (hr : r.Before (List.intercalate [Kind.semicolon.terminal] (ss.map Tree.unparse) ++ rest) p)
    (hm : r.unread.length < m) (hn : r.unread.length < n) (hrest : Stops 0 rest) (hsemi : head rest ≠ .semicolon) :
    Wp (stats x n done) (fun os s => (∃ ts, os = done ++ ts ∧ ts.map Tree.bare = ss) ∧ s.Before rest p) r := by
  induction ss generalizing r n done with
  | nil => exact absurd rfl hne
  | cons c cs ih =>
    obtain ⟨hc, hcs⟩ := List.forall_mem_cons.1 hss
    have hlen := hr.length
    have hclean : ∀ {s : Reader} {ws : List Terminal}, s.Before ws p → ¬ r.problems.length < s.problems.length := by
      intro s ws hs
      rw [hr.problems, hs.problems]
      exact lt_irrefl p
    cases n with
    | zero => omega
    | succ n =>
      simp only [stats, statsStep, wp_steps]
      cases cs with
      | nil =>
        have hr : r.Before (c.unparse ++ rest) p := by simpa using hr
        refine (hc rest (by rw [← hr.length]; exact hm) hrest).call hr rfl fun t s ht hs => ?_
        simp only [hclean hs, decide_false, Bool.false_eq_true, if_false, beq_iff_eq]
        rw [if_neg (by rw [hs.peek_kind]; exact hsemi)]
        exact ⟨⟨[t], rfl, by rw [List.map_singleton, ht]⟩, hs⟩
      | cons d ds =>
        rw [List.map_cons, List.intercalate_cons_of_ne_nil (by simp), List.append_assoc, List.append_assoc,
          List.cons_append] at hr
        refine (hc (Kind.semicolon.terminal :: _) (by rw [← hr.length]; exact hm) (stops_of (by decide) rfl)).call hr
          rfl fun t s ht hs => ?_
        have hk : s.peek.kind = .semicolon := hs.peek_kind
        simp only [hclean hs, decide_false, Bool.false_eq_true, if_false, beq_iff_eq]
        rw [if_pos hk]
        have hlen' := hs.advance.length
        have hlen'' := hr.length
        simp only [List.length_append, List.length_cons, List.nil_append] at hlen' hlen''
        refine (ih (n := n) (by simp) hcs hs.advance (by omega) (by omega)).weaken ?_
        rintro _ s' ⟨⟨ts, rfl, hts⟩, hs'⟩
        exact ⟨⟨t :: ts, by simp, by simp [ht, hts]⟩, hs'⟩

theorem seq_accepts_one {s : Tree} (hs : AcceptsUnder m x s) : AcceptsBody m (seq x) s := by
  intro rest hm hrest hsemi r p hr
  simp only [seq, wp_steps]
  have hone : ∀ t ∈ [s], AcceptsUnder m x t := by simpa using hs
  refine (stats_accepts (List.cons_ne_nil s []) hone (by simpa using hr)
    (by rw [hr.length]; exact hm) (Nat.lt_succ_self _) hrest hsemi).weaken ?_
  rintro ts s' ⟨⟨_, rfl, hts⟩, hs'⟩
  obtain ⟨t, rfl, ht⟩ := List.map_eq_singleton_iff.1 hts
  exact ⟨⟨t, rfl, ht⟩, hs'⟩

theorem seq_accepts (hlen : 2 ≤ ss.length) (hss : ∀ s ∈ ss, AcceptsUnder m x s) :
    AcceptsBody m (seq x) (.node .seq [] {} ss) := by
  intro rest hm hrest hsemi r p hr
  have hne : ss ≠ [] := by
    rintro rfl
    simp at hlen
  have hr' := hr
  rw [Tree.unparse_node, NodeKind.layout] at hr'
  simp only [seq, wp_steps]
  refine (stats_accepts hne hss hr' (by rw [hr.length]; exact hm) (Nat.lt_succ_self _) hrest hsemi).weaken ?_
  rintro ts s' ⟨⟨_, rfl, hts⟩, hs'⟩
  have hts' : ts.length = ss.length := by rw [← hts, List.length_map]
  obtain ⟨a, b, ts, rfl⟩ : ∃ a b us, ts = a :: b :: us := by
    rcases ts with _ | ⟨a, _ | ⟨b, us⟩⟩
    · simp at hts'; omega
    · simp at hts'; omega
    · exact ⟨a, b, us, rfl⟩
  exact ⟨⟨_, rfl, by rw [Tree.bare_make, ← hts]⟩, hs'⟩

end

section
variable {body stat : Rule (Option Tree)} {c a b : Tree}

theorem ifThen_accepts (hc : Grammar.IsExpr 0 c) (ha : AcceptsBody m body a)
    (hm : ((Tree.node .if [] {} [c, a]).unparse ++ rest).length < m + 1) :
    Accepts (ifStat body) (.node .if [] {} [c, a]) rest := by
  intro r p hr
  simp only [row_steps, NodeKind.layout, List.length_cons, List.length_append] at hr hm
  simp only [ifStat, keyword, wp_steps]
  refine expr_call hc hr.advance rfl (by decide) fun t1 s1 ht1 h1 => ?_
  refine wp_expect_accepts h1 fun _ s2 h2 => ?_
  refine ha.call h2 rfl (by simp; omega) (by decide) fun t2 s3 ht2 h3 => ?_
  have hk : s3.peek.kind = .kwFi := h3.peek_kind
  simp only [hk, beq_iff_eq, reduceCtorEq, if_false]
  exact wp_expect_accepts h3 fun _ s4 h4 => ht1 ▸ ht2 ▸ gives_build [t1, t2] h4

theorem ifElse_accepts (hc : Grammar.IsExpr 0 c) (ha : AcceptsBody m body a) (hb : AcceptsBody m body b)
    (hm : ((Tree.node .if [] {} [c, a, b]).unparse ++ rest).length < m + 1) :
    Accepts (ifStat body) (.node .if [] {} [c, a, b]) rest := by
  intro r p hr
  simp only [row_steps, NodeKind.layout, List.length_cons, List.length_append] at hr hm
  simp only [ifStat, keyword, wp_steps]
  refine expr_call hc hr.advance rfl (by decide) fun t1 s1 ht1 h1 => ?_
  refine wp_expect_accepts h1 fun _ s2 h2 => ?_
  refine ha.call h2 rfl (by simp; omega) (by decide) fun t2 s3 ht2 h3 => ?_
  have hk : s3.peek.kind = .kwElse := h3.peek_kind
  simp only [hk, beq_self_eq_true, if_true]
  refine hb.call h3.advance rfl (by simp; omega) (by decide) fun t3 s4 ht3 h4 => ?_
  exact wp_expect_accepts h4 fun _ s5 h5 => ht1 ▸ ht2 ▸ ht3 ▸ gives_build [t1, t2, t3] h5

theorem while_accepts (hc : Grammar.IsExpr 0 c) (hb : AcceptsBody m body b)
    (hm : ((Tree.node .while [] {} [c, b]).unparse ++ rest).length < m + 1) :
    Accepts (whileStat body) (.node .while [] {} [c, b]) rest := by
  intro r p hr
  simp only [row_steps, NodeKind.layout, List.length_cons, List.length_append] at hr hm
  simp only [whileStat, keyword, wp_steps]
  refine expr_call hc hr.advance rfl (by decide) fun t1 s1 ht1 h1 => ?_
  refine wp_expect_accepts h1 fun _ s2 h2 => ?_
  refine hb.call h2 rfl (by simp; omega) (by decide) fun t2 s3 ht2 h3 => ?_
  exact wp_expect_accepts h3 fun _ s4 h4 => ht1 ▸ ht2 ▸ gives_build [t1, t2] h4

theorem for_accepts {i st : Tree} (hi : AcceptsUnder m stat i) (hc : Grammar.IsExpr 0 c)
    (hst : AcceptsUnder m stat st) (hb : AcceptsBody m body b)
    (hm : ((Tree.node .for [] {} [i, c, st, b]).unparse ++ rest).length < m + 1) :
    Accepts (forStat stat body) (.node .for [] {} [i, c, st, b]) rest := by
  intro r p hr
  simp only [row_steps, NodeKind.layout, List.length_cons, List.length_append] at hr hm
  simp only [forStat, keyword, symbol, wp_steps]
  refine wp_expect_accepts hr.advance fun _ s1 h1 => ?_
  simp only [wp_steps]
  refine (hi (Kind.semicolon.terminal :: _) (by simp; omega) (stops_of (by decide) rfl)).call h1 rfl
    fun t1 s2 ht1 h2 => ?_
  refine wp_expect_accepts h2 fun _ s3 h3 => ?_
  refine expr_call hc h3 rfl (by decide) fun t2 s4 ht2 h4 => ?_
  refine wp_expect_accepts h4 fun _ s5 h5 => ?_
  refine (hst (Kind.rparen.terminal :: _) (by simp; omega) (stops_of (by decide) rfl)).call h5 rfl
    fun t3 s6 ht3 h6 => ?_
  refine wp_expect_accepts h6 fun _ s7 h7 => ?_
  refine wp_expect_accepts h7 fun _ s8 h8 => ?_
  refine hb.call h8 rfl (by simp; omega) (by decide) fun t4 s9 ht4 h9 => ?_
  exact wp_expect_accepts h9 fun _ s0 h0 => ht1 ▸ ht2 ▸ ht3 ▸ ht4 ▸ gives_build [t1, t2, t3, t4] h0

theorem block_accepts (hb : AcceptsBody m body b)
    (hm : ((Tree.node .block [] {} [b]).unparse ++ rest).length < m + 1) :
    Accepts (blockStat body) (.node .block [] {} [b]) rest := by
  intro r p hr
  simp only [row_steps, NodeKind.layout, List.length_cons, List.length_append] at hr hm
  simp only [blockStat, keyword, wp_steps]
  refine hb.call hr.advance rfl (by simp; omega) (by decide) fun t1 s1 ht1 h1 => ?_
  exact wp_expect_accepts h1 fun _ s2 h2 => ht1 ▸ gives_build [t1] h2

end

theorem wordKind_of {n : NodeKind} (h : Tree.isWord n = true) : ∃ k, wordKind? k = some n := by
  cases n with
  | free => exact ⟨.kwFree, rfl⟩
  | «return» => exact ⟨.kwReturn, rfl⟩
  | exit => exact ⟨.kwExit, rfl⟩
  | print => exact ⟨.kwPrint, rfl⟩
  | println => exact ⟨.kwPrintln, rfl⟩
  | _ => cases h

theorem stat_accepts (h : Grammar.IsStat many T) :
    (many = false → ∀ m, AcceptsUnder m (stat m) T) ∧ ∀ m, AcceptsBody m (seq (stat m)) T := by
  have hone : ∀ {T}, (∀ m rest r p, r.Before (T.unparse ++ rest) p → (T.unparse ++ rest).length < m + 1 →
      Stops 0 rest → Wp (stat (m + 1)) (Gives T rest p) r) →
      (false = false → ∀ m, AcceptsUnder m (stat m) T) ∧ ∀ m, AcceptsBody m (seq (stat m)) T := by
    intro T h
    have hstat : ∀ m, AcceptsUnder m (stat m) T := by
      intro m rest hm hrest r p hr
      obtain ⟨m, rfl⟩ := Nat.exists_eq_succ_of_ne_zero (Nat.ne_of_gt (Nat.zero_lt_of_lt hm))
      exact h m rest r p hr hm hrest
    exact ⟨fun _ => hstat, fun m => seq_accepts_one (hstat m)⟩
  induction h with
  | skip =>
    refine hone fun m rest r p hr hm hrest => ?_
    rw [Tree.unparse_node] at hr
    have hk : r.peek.kind = .kwSkip := hr.peek_kind
    simp only [stat, statStep, wp_steps, hk, wordKind?]
    exact ⟨⟨_, rfl, by rw [Tree.bare_make]; rfl⟩, hr.advance⟩
  | @declare t v text ht hv =>
    refine hone fun m rest r p hr hm hrest => ?_
    have hread := declare_accepts ht hv hrest r p hr
    have hk : r.peek.kind.isBaseType = true ∨ r.peek.kind = .kwPair := by
      rw [hr.peek_kind]
      simp only [row_steps, NodeKind.layout]
      exact head_of_type ht _
    have hcases : r.peek.kind ∈ [Kind.kwInt, .kwBool, .kwChar, .kwString, .kwPair] := by
      revert hk
      generalize r.peek.kind = k
      cases k <;> simp [Kind.isBaseType]
    simp only [stat, statStep, wp_steps]
    simp only [List.mem_cons, List.not_mem_nil, or_false] at hcases
    rcases hcases with h | h | h | h | h <;> simp only [h, wordKind?] <;> exact hread
  | @assign l v hl hv =>
    refine hone fun m rest r p hr hm hrest => ?_
    have hread := assign_accepts hl hv hrest r p hr
    have hk : r.peek.kind ∈ [Kind.ident, .kwFst, .kwSnd] := by
      rw [hr.peek_kind]
      simp only [row_steps, NodeKind.layout]
      exact head_of_place hl _
    simp only [stat, statStep, wp_steps]
    simp only [List.mem_cons, List.not_mem_nil, or_false] at hk
    rcases hk with h | h | h <;> simp only [h, wordKind?] <;> exact hread
  | @read l hl =>
    refine hone fun m rest r p hr hm hrest => ?_
    simp only [row_steps, NodeKind.layout] at hr
    have hk : r.peek.kind = .kwRead := hr.peek_kind
    simp only [stat, statStep, wp_steps, hk, wordKind?]
    exact (place_accepts hl rest (by rw [hr.advance.length]; omega) hrest.1).call hr.advance rfl
      fun t s ht hs => ht ▸ gives_build [t] hs
  | @word k e hk he =>
    refine hone fun m rest r p hr hm hrest => ?_
    obtain ⟨w, hw⟩ := wordKind_of hk
    rw [Tree.unparse_node, List.map_singleton, (layout_word hw _).2.2.1, List.cons_append] at hr
    have hkind : r.peek.kind = w := hr.peek_kind
    simp only [stat, statStep, wp_steps, hkind, hw]
    exact (expr_accepts he rest hrest).call hr.advance rfl fun t s ht hs => ht ▸ gives_build [t] hs
  | ifThen hc _ ih =>
    refine hone fun m rest r p hr hm hrest => ?_
    have hk : r.peek.kind = .kwIf := by rw [hr.peek_kind, Tree.unparse_node]; rfl
    simp only [stat, statStep, wp_steps, hk, wordKind?]
    exact ifThen_accepts hc (ih.2 m) hm r p hr
  | ifElse hc _ _ iha ihb =>
    refine hone fun m rest r p hr hm hrest => ?_
    have hk : r.peek.kind = .kwIf := by rw [hr.peek_kind, Tree.unparse_node]; rfl
    simp only [stat, statStep, wp_steps, hk, wordKind?]
    exact ifElse_accepts hc (iha.2 m) (ihb.2 m) hm r p hr
  | «while» hc _ ih =>
    refine hone fun m rest r p hr hm hrest => ?_
    have hk : r.peek.kind = .kwWhile := by rw [hr.peek_kind, Tree.unparse_node]; rfl
    simp only [stat, statStep, wp_steps, hk, wordKind?]
    exact while_accepts hc (ih.2 m) hm r p hr
  | «for» _ hc _ _ ihi ihs ihb =>
    refine hone fun m rest r p hr hm hrest => ?_
    have hk : r.peek.kind = .kwFor := by rw [hr.peek_kind, Tree.unparse_node]; rfl
    simp only [stat, statStep, wp_steps, hk, wordKind?]
    exact for_accepts (ihi.1 rfl m) hc (ihs.1 rfl m) (ihb.2 m) hm r p hr
  | block _ ih =>
    refine hone fun m rest r p hr hm hrest => ?_
    have hk : r.peek.kind = .kwBegin := by rw [hr.peek_kind, Tree.unparse_node]; rfl
    simp only [stat, statStep, wp_steps, hk, wordKind?]
    exact block_accepts (ih.2 m) hm r p hr
  | one _ ih => exact ⟨(by rintro ⟨⟩), ih.2⟩
  | seq hlen _ ih => exact ⟨(by rintro ⟨⟩), fun m => seq_accepts hlen fun s hs => (ih s hs).1 rfl m⟩

theorem body_accepts (h : Grammar.IsStat true T) (rest : List Terminal) (hrest : Stops 0 rest)
    (hsemi : head rest ≠ .semicolon) : Accepts body T rest := by
  intro r p hr
  simp only [body, wp_steps]
  exact (stat_accepts h).2 _ rest (by rw [hr.length]; omega) hrest hsemi r p hr

/-! ## Looking ahead -/

section
variable {t : Token} {vs : List Token} {d : Nat}

theorem afterParens_open (h : t.kind = .lparen) : afterParens d (t :: vs) = afterParens (d + 1) vs := by
  simp [afterParens, h]

theorem afterParens_close (h : t.kind = .rparen) :
    afterParens (d + 1) (t :: vs) = if d = 0 then some vs else afterParens d vs := by
  simp [afterParens, h]

theorem afterParens_other (h : t.kind ≠ .lparen) (h' : t.kind ≠ .rparen) :
    afterParens (d + 1) (t :: vs) = afterParens (d + 1) vs := by
  rw [afterParens]
  split <;> simp_all

end

def Passed (ws : List Terminal) : Prop :=
  ∀ d us vs, us.map Token.terminal = ws → afterParens (d + 1) (us ++ vs) = afterParens (d + 1) vs

namespace Passed

theorem append {ws' : List Terminal} (h : Passed ws) (h' : Passed ws') : Passed (ws ++ ws') := by
  intro d us vs hus
  obtain ⟨u, u', rfl, hu, hu'⟩ := List.map_eq_append_iff.1 hus
  rw [List.append_assoc, h d u _ hu, h' d u' vs hu']

theorem single {w : Terminal} (h : w.kind ≠ .lparen) (h' : w.kind ≠ .rparen) : Passed [w] := by
  intro d us vs hus
  obtain ⟨t, rfl, rfl⟩ := List.map_eq_singleton_iff.1 hus
  exact afterParens_other h h'

theorem close {us vs : List Token} {d : Nat} (h : Passed ws)
    (hus : us.map Token.terminal = Kind.lparen.terminal :: (ws ++ [Kind.rparen.terminal])) :
    afterParens d (us ++ vs) = if d = 0 then some vs else afterParens d vs := by
  obtain ⟨t, us, rfl, ht, hus⟩ := List.map_eq_cons_iff.1 hus
  obtain ⟨u, u', rfl, hu, hu'⟩ := List.map_eq_append_iff.1 hus
  obtain ⟨t', rfl, ht'⟩ := List.map_eq_singleton_iff.1 hu'
  have hopen : t.kind = .lparen := congrArg Terminal.kind ht
  have hclose : t'.kind = .rparen := congrArg Terminal.kind ht'
  rw [List.cons_append, afterParens_open hopen, List.append_assoc, h d u _ hu, List.cons_append, List.nil_append,
    afterParens_close hclose]

theorem parens (h : Passed ws) : Passed (Kind.lparen.terminal :: (ws ++ [Kind.rparen.terminal])) := by
  intro d us vs hus
  rw [h.close hus, if_neg (Nat.add_one_ne_zero d)]

end Passed

theorem type_passed (h : Grammar.IsType slot T) : Passed T.unparse := by
  have hbrackets : Passed [Kind.lbracket.terminal, Kind.rbracket.terminal] :=
    (Passed.single (w := Kind.lbracket.terminal) (by decide) (by decide)).append (.single (by decide) (by decide))
  induction h with
  | @base slot k hk =>
    rw [unparse_baseType hk]
    refine .single ?_ ?_ <;> rintro (rfl : k = _) <;> cases hk
  | bare =>
    rw [Tree.unparse_node]
    exact .single (by decide) (by decide)
  | @pair a b _ _ iha ihb =>
    have hslots : Passed (a.unparse ++ Kind.comma.terminal :: b.unparse) :=
      iha.append ((Passed.single (w := Kind.comma.terminal) (by decide) (by decide)).append ihb)
    have hall := (Passed.single (w := Kind.kwPair.terminal) (by decide) (by decide)).append hslots.parens
    simpa [NodeKind.layout] using hall
  | array _ ih | pairs _ _ ih =>
    rw [Tree.unparse_node, List.map_singleton]
    exact ih.append hbrackets

theorem afterType_eq (h : Grammar.IsType false T) : ∀ us vs, us.map Token.terminal = T.unparse →
    afterType? (us ++ vs) = some (afterDimensions vs) := by
  generalize hslot : false = slot at h
  induction h with
  | @base slot k hk =>
    intro us vs hus
    rw [unparse_baseType hk] at hus
    obtain ⟨t, rfl, ht⟩ := List.map_eq_singleton_iff.1 hus
    have hkind : t.kind = k := congrArg Terminal.kind ht
    simp only [List.cons_append, List.nil_append, afterType?, hkind, hk, if_true]
  | bare | pairs => cases hslot
  | @pair a b ha hb =>
    intro us vs hus
    have hslots : Passed (a.unparse ++ Kind.comma.terminal :: b.unparse) :=
      (type_passed ha).append ((Passed.single (w := Kind.comma.terminal) (by decide) (by decide)).append (type_passed hb))
    have hus : us.map Token.terminal = Kind.kwPair.terminal :: Kind.lparen.terminal ::
        (a.unparse ++ Kind.comma.terminal :: b.unparse ++ [Kind.rparen.terminal]) := by
      rw [hus, Tree.unparse_node]
      simp [NodeKind.layout]
    obtain ⟨t, us, rfl, ht, hus⟩ := List.map_eq_cons_iff.1 hus
    have hkind : t.kind = .kwPair := congrArg Terminal.kind ht
    have hclose : afterParens 0 (us ++ vs) = _ := hslots.close hus
    obtain ⟨u, us', rfl, hu, -⟩ := List.map_eq_cons_iff.1 hus
    have hopen : u.kind = .lparen := congrArg Terminal.kind hu
    rw [List.cons_append, if_pos rfl] at hclose
    simp only [List.cons_append, afterType?, hkind, Kind.isBaseType, Bool.false_eq_true, if_false, if_true, hopen,
      hclose, Option.map_some]
  | @array slot t _ ih =>
    intro us vs hus
    rw [Tree.unparse_node, List.map_singleton, NodeKind.layout] at hus
    obtain ⟨u, u', rfl, hu, hu'⟩ := List.map_eq_append_iff.1 hus
    obtain ⟨l, l', rfl, hl, hl'⟩ := List.map_eq_cons_iff.1 hu'
    obtain ⟨c, rfl, hc⟩ := List.map_eq_singleton_iff.1 hl'
    have hopen : l.kind = .lbracket := congrArg Terminal.kind hl
    have hclose : c.kind = .rbracket := congrArg Terminal.kind hc
    rw [List.append_assoc, ih hslot u _ hu, List.cons_append, List.cons_append, List.nil_append, afterDimensions,
      if_pos ⟨hopen, hclose⟩]

theorem startsFunction_type (h : Grammar.IsType false T) {w : Terminal} (hus : us.map Token.terminal = T.unparse ++
      ⟨.ident, text⟩ :: w :: rest) : startsFunction us = (w.kind == .lparen) := by
  obtain ⟨u, u', rfl, hu, hu'⟩ := List.map_eq_append_iff.1 hus
  obtain ⟨n, us, rfl, hn, hus⟩ := List.map_eq_cons_iff.1 hu'
  obtain ⟨t, us, rfl, ht, -⟩ := List.map_eq_cons_iff.1 hus
  have hname : n.kind = .ident := congrArg Terminal.kind hn
  have hnext : t.kind = w.kind := congrArg Terminal.kind ht
  rw [startsFunction, afterType_eq h u _ hu, afterDimensions, hname, if_neg (by simp)]
  simp only [hname, hnext, beq_self_eq_true, Bool.true_and]

theorem startsFunction_other (hus : us.map Token.terminal = ws) (hb : (head ws).isBaseType = false)
    (hp : head ws ≠ .kwPair) : startsFunction us = false := by
  have hnone : afterType? us = none := by
    cases us with
    | nil => rfl
    | cons t us =>
      obtain rfl := hus
      have hb : t.kind.isBaseType = false := hb
      have hp : t.kind ≠ .kwPair := hp
      simp only [afterType?, hb, Bool.false_eq_true, if_false, hp]
  rw [startsFunction, hnone]

theorem startsFunction_stat (h : Grammar.IsStat many T) : ∀ (us : List Token) (rest : List Terminal),
    us.map Token.terminal = T.unparse ++ rest → startsFunction us = false := by
  induction h with
  | @declare t v text ht hv =>
    intro us rest hus
    have hus : us.map Token.terminal = t.unparse ++ ⟨.ident, text⟩ :: Kind.assign.terminal :: (v.unparse ++ rest) := by
      simpa [NodeKind.layout, Grammar.ident] using hus
    rw [startsFunction_type ht hus]
    rfl
  | @assign l v hl hv =>
    intro us rest hus
    have hmem : head (l.unparse ++ Kind.assign.terminal :: (v.unparse ++ rest)) ∈ [Kind.ident, .kwFst, .kwSnd] :=
      head_of_place hl _
    simp only [row_steps, NodeKind.layout] at hus
    simp only [List.mem_cons, List.not_mem_nil, or_false] at hmem
    refine startsFunction_other hus ?_ ?_ <;> rcases hmem with h | h | h <;> rw [h] <;> decide
  | @word k e hk he =>
    intro us rest hus
    obtain ⟨w, hw⟩ := wordKind_of hk
    rw [Tree.unparse_node, List.map_singleton, (layout_word hw _).2.2.1] at hus
    cases w <;> cases hw <;> exact startsFunction_other hus rfl (by rintro ⟨⟩)
  | one _ ih => exact ih
  | @seq ss hlen _ ih =>
    intro us rest hus
    obtain ⟨s, ss, rfl⟩ := List.exists_cons_of_ne_nil (l := ss) (by rintro rfl; simp at hlen)
    obtain ⟨ws, hws⟩ := intercalate_eq_append [Kind.semicolon.terminal] s.unparse (ss.map Tree.unparse)
    rw [Tree.unparse_node, List.map_cons, NodeKind.layout, hws, List.append_assoc] at hus
    exact ih s List.mem_cons_self us _ hus
  | _ =>
    intro us rest hus
    rw [Tree.unparse_node] at hus
    exact startsFunction_other hus rfl (by rintro ⟨⟩)

/-! ## Functions and programs -/

theorem param_accepts (h : Grammar.IsParam T) (rest : List Terminal) : Accepts param T rest := by
  intro r p hr
  obtain @⟨t, text, ht⟩ := h
  simp only [row_steps, NodeKind.layout] at hr
  simp only [param, wp_steps]
  refine (type_accepts ht ((Grammar.ident text).unparse ++ _) ⟨(by rintro ⟨⟩), (by rintro ⟨⟩)⟩).call hr rfl fun t1 s1 ht1 h1 => ?_
  exact (ident_accepts text rest).call h1 rfl fun t2 s2 ht2 h2 => ht1 ▸ ht2 ▸ gives_build [t1, t2] h2

theorem params_accepts {ps : List Tree} (h : ∀ q ∈ ps, Grammar.IsParam q) (rest : List Terminal) :
    Accepts params (.node .paramList [] {} ps) rest := by
  intro r p hr
  simp only [row_steps, NodeKind.layout] at hr
  simp only [params, symbol, wp_steps]
  refine wp_expect_accepts hr fun opening s1 h1 => ?_
  simp only [wp_steps]
  have hhead : ∀ q ∈ ps, ∀ ws, head (q.unparse ++ ws) ≠ .rparen := by
    intro q hq ws hk
    obtain @⟨t, text, ht⟩ := h q hq
    simp only [row_steps, NodeKind.layout] at hk
    rcases head_of_type ht ((Grammar.ident text).unparse ++ ws) with hb | hb
    · rw [hk] at hb
      cases hb
    · rw [hk] at hb
      cases hb
  refine (items_accepts (fun q hq rest _ _ => param_accepts (h q hq) rest) hhead h1 (Nat.lt_succ_self _)
    (by decide)).weaken ?_
  rintro _ s ⟨⟨ts, rfl, hts⟩, hs⟩
  exact wp_expect_accepts hs fun c s' hs' => hts ▸ gives_build ts hs'

theorem func_accepts (h : Grammar.IsFunc T) (rest : List Terminal) : Accepts func T rest := by
  intro r p hr
  obtain @⟨t, b, text, ps, ht, hps, hb⟩ := h
  have hr : r.Before (t.unparse ++ ((Grammar.ident text).unparse ++ ((Tree.node .paramList [] {} ps).unparse ++
      Kind.kwIs.terminal :: (b.unparse ++ Kind.kwEnd.terminal :: rest)))) p := by
    simpa [NodeKind.layout] using hr
  simp only [func, keyword, wp_steps, ite_prop_iff_and]
  refine (type_accepts ht ((Grammar.ident text).unparse ++ _) ⟨(by rintro ⟨⟩), (by rintro ⟨⟩)⟩).call hr rfl fun t1 s1 ht1 h1 => ?_
  refine (ident_accepts text _).call h1 rfl fun t2 s2 ht2 h2 => ?_
  refine (params_accepts hps _).call h2 rfl fun t3 s3 ht3 h3 => ?_
  refine wp_expect_accepts h3 fun _ s4 h4 => ?_
  refine (body_accepts hb (Kind.kwEnd.terminal :: _) (stops_of (by decide) rfl) (by rintro ⟨⟩)).call h4 rfl
    fun t4 s5 ht4 h5 => ?_
  refine wp_expect_accepts h5 fun _ s6 h6 => ⟨fun hfailed => ?_, fun _ =>
    ht1 ▸ ht2 ▸ ht3 ▸ ht4 ▸ gives_build [t1, t2, t3, t4] h6⟩
  rw [hr.problems, h6.problems] at hfailed
  simp at hfailed

theorem startsFunction_func (h : Grammar.IsFunc T) (hus : us.map Token.terminal = T.unparse ++ rest) :
    startsFunction us = true := by
  obtain @⟨t, b, text, ps, ht, hps, hb⟩ := h
  have hus : us.map Token.terminal = t.unparse ++ ⟨.ident, text⟩ :: Kind.lparen.terminal ::
      (NodeKind.commas (ps.map Tree.unparse) ++ Kind.rparen.terminal :: Kind.kwIs.terminal ::
        (b.unparse ++ Kind.kwEnd.terminal :: rest)) := by
    simpa [NodeKind.layout, Grammar.ident] using hus
  rw [startsFunction_type ht hus]
  rfl

theorem funcs_accepts {n : Nat} {fs done : List Tree} (hfs : ∀ f ∈ fs, Grammar.IsFunc f)
    (hr : r.Before ((fs.map Tree.unparse).flatten ++ rest) p) (hn : fs.length < n)
    (hrest : ∀ us : List Token, us.map Token.terminal = rest → startsFunction us = false) :
    Wp (funcs n done) (fun os s => (∃ ts, os = done ++ ts ∧ ts.map Tree.bare = fs) ∧ s.Before rest p) r := by
  induction fs generalizing r n done with
  | nil =>
    cases n with
    | zero => omega
    | succ n =>
      simp only [funcs, funcsStep, wp_steps]
      rw [hrest r.unread hr.terminals, if_neg (by decide)]
      exact ⟨⟨[], by simp, rfl⟩, hr⟩
  | cons f fs ih =>
    obtain ⟨hf, hfs⟩ := List.forall_mem_cons.1 hfs
    cases n with
    | zero => omega
    | succ n =>
      rw [List.map_cons, List.flatten_cons, List.append_assoc] at hr
      simp only [funcs, funcsStep, wp_steps]
      rw [startsFunction_func hf hr.terminals, if_pos rfl]
      refine (func_accepts hf _).call hr rfl fun t s ht hs => ?_
      refine (ih (n := n) hfs hs (by simpa using hn)).weaken ?_
      rintro _ s' ⟨⟨ts, rfl, hts⟩, hs'⟩
      exact ⟨⟨t :: ts, by simp, by simp [ht, hts]⟩, hs'⟩

theorem length_func (h : Grammar.IsFunc T) : 0 < T.unparse.length := by
  obtain ⟨ht, hps, hb⟩ := h
  simp [NodeKind.layout, Grammar.ident]

theorem length_funcs {fs : List Tree} (hfs : ∀ f ∈ fs, Grammar.IsFunc f) :
    fs.length ≤ (fs.map Tree.unparse).flatten.length := by
  induction fs with
  | nil => simp
  | cons f fs ih =>
    obtain ⟨hf, hfs⟩ := List.forall_mem_cons.1 hfs
    have hone := length_func hf
    have hrest := ih hfs
    simp only [List.map_cons, List.flatten_cons, List.length_append, List.length_cons]
    omega

theorem program_accepts (h : Grammar.IsProgram T) : Accepts program T [] := by
  intro r p hr
  obtain @⟨fs, main, hfs, hmain⟩ := h
  have hr : r.Before (Kind.kwBegin.terminal :: ((fs.map Tree.unparse).flatten ++
      (main.unparse ++ [Kind.kwEnd.terminal]))) p := by
    simpa [NodeKind.layout] using hr
  simp only [program, keyword, wp_steps]
  refine wp_expect_accepts hr fun start s1 h1 => ?_
  simp only [wp_steps]
  have hfuel : fs.length < s1.unread.length + 1 := by
    have := length_funcs hfs
    have := h1.length
    rw [List.length_append] at this
    omega
  refine (funcs_accepts hfs h1 hfuel fun us hus => startsFunction_stat hmain us _ hus).weaken ?_
  rintro ts s2 ⟨⟨_, rfl, hts⟩, h2⟩
  refine (body_accepts hmain [Kind.kwEnd.terminal] (stops_of (by decide) rfl) (by rintro ⟨⟩)).call h2 rfl
    fun t s3 ht h3 => ?_
  refine wp_expect_accepts h3 fun stop s4 h4 => ?_
  have hend : s4.unread = [] := List.eq_nil_of_length_eq_zero h4.length
  rw [if_neg (not_not.2 hend)]
  refine ⟨⟨.make .program [] (coverToken start.span stop) (ts ++ [t]), ?_, ?_⟩, h4⟩
  · rw [← build_map, List.map_append]
    rfl
  · rw [Tree.bare_make, List.map_append, List.map_singleton, hts, ht]

end Wacc.Rule

namespace Wacc

theorem File.reader_before (f : File) : f.reader.Before f.terminals 0 := ⟨rfl, rfl, f.reader_ended⟩

/-- **A file has a tree exactly if its terminals are those of a program of the grammar.**  But for its spans
    the tree is that program, so that no terminals belong to two programs. -/
theorem Parsed.tree_iff_grammar (f : File) (T : Tree) :
    ((Parsed.ofFile f).tree? 0).map Tree.bare = some T ↔
      (Parsed.ofFile f).lexical = [] ∧ Grammar.IsProgram T ∧ T.unparse = f.terminals := by
  constructor
  · intro h
    obtain ⟨t, ht, rfl⟩ := Option.map_eq_some_iff.1 h
    obtain ⟨hlex, hsyn, ht⟩ := Parsed.tree?_eq_some ht
    obtain ⟨t', ht', hprogram, hterms, -⟩ := Parsed.exists_tree hlex hsyn
    cases ht'.symm.trans ht
    exact ⟨hlex, hprogram, by rw [Tree.unparse_bare, hterms]⟩
  · rintro ⟨hlex, hprogram, hterms⟩
    obtain ⟨⟨t, ht, hbare⟩, hend⟩ :=
      Rule.program_accepts hprogram f.reader 0 (f.reader_before.cast (by rw [hterms, List.append_nil]))
    have htree : (Parsed.ofFile f).tree? 0 = some t := by
      rw [Parsed.tree?, Parsed.count, hlex, Parsed.syntactic_eq_nil hend.problems]
      exact ht
    rw [htree, Option.map_some, hbare]

end Wacc
