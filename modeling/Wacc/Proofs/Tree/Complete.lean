/-
  What is in the grammar can be read.

  Which way a rule goes depends only on the kinds of the next tokens.  The terminals after a
  construct must not continue it: an expression is not followed by an operator that binds its last
  operand, and neither an expression nor a type by a bracket.
-/
import Wacc.Proofs.Tree.Sound

namespace Wacc

def Grammar.head : List Terminal → Kind
  | [] => .eof
  | w :: _ => w.kind

structure Reader.Before (r : Reader) (ws : List Terminal) (p : Nat) : Prop where
  terminals : r.terminals = ws
  problems : r.problems.length = p
  eof : r.eof.kind = .eof

open Grammar (head)

namespace Reader.Before

variable {r : Reader} {w w' : Terminal} {ws : List Terminal} {p : Nat}

theorem length (h : r.Before ws p) : r.unread.length = ws.length := by rw [← h.terminals, length_terminals]

theorem peek_kind (h : r.Before ws p) : r.peek.kind = head ws := by
  cases ws with
  | nil =>
    have hnil : r.unread = [] := List.eq_nil_of_length_eq_zero h.length
    rw [Reader.peek, Reader.peekAt, hnil]
    exact h.eof
  | cons w ws => exact congrArg Terminal.kind (peek_of_terminals h.terminals).1

theorem peek_text (h : r.Before (w :: ws) p) : r.peek.text = w.text :=
  congrArg Terminal.text (peek_of_terminals h.terminals).1

theorem advance (h : r.Before (w :: ws) p) : r.advance.Before ws p := by
  refine ⟨(peek_of_terminals h.terminals).2, ?_, ?_⟩
  · rw [← h.problems, Reader.advance]
    split <;> rfl
  · rw [← h.eof, Reader.advance]
    split <;> rfl

theorem second_kind (h : r.Before (w :: ws) p) : (r.peekAt 1).kind = head ws := by
  rw [← r.peek_advance]
  exact h.advance.peek_kind

theorem cast (h : r.Before ws p) {ws' : List Terminal} (he : ws = ws') : r.Before ws' p := he ▸ h

end Reader.Before

namespace Rule

/-- A tree that is `T` but for its spans is given, and the terminals `rest` are left. -/
def Gives (T : Tree) (rest : List Terminal) (p : Nat) (o : Option Tree) (s : Reader) : Prop :=
  (∃ t, o = some t ∧ t.bare = T) ∧ s.Before rest p

/-- From the terminals of `T` and `rest`, the rule reads `T` and leaves `rest`. -/
def Accepts (x : Rule (Option Tree)) (T : Tree) (rest : List Terminal) : Prop :=
  ∀ r p, r.Before (T.unparse ++ rest) p → Wp x (Gives T rest p) r

variable {r : Reader} {p : Nat} {T : Tree} {rest ws : List Terminal}
  {Q : Option Tree → Reader → Prop} {n : Nat} {k : Kind} {t : Tree} {slot : Bool}

theorem Accepts.call {x : Rule (Option Tree)} (h : Accepts x T rest) (hr : r.Before ws p)
    (hws : ws = T.unparse ++ rest) (hq : ∀ t s, t.bare = T → s.Before rest p → Q (some t) s) : Wp x Q r :=
  (h r p (hr.cast hws)).weaken fun _ s ⟨⟨t, ho, ht⟩, hs⟩ => ho ▸ hq t s ht hs

theorem gives_build {k : NodeKind} {text : Text} {span : Span} (ts : List Tree) {s : Reader} (hs : s.Before rest p) :
    Gives (.node k text {} (ts.map Tree.bare)) rest p (build k text span (ts.map some)) s :=
  ⟨⟨_, build_map .., Tree.bare_make ..⟩, hs⟩

/-- Rewriting with these puts the terminals of a tree in a row. -/
theorem row_steps :
    (∀ k text s ts, (Tree.node k text s ts).unparse = k.layout text (ts.map Tree.unparse)) ∧
    (∀ t ts, (t :: ts).map Tree.unparse = t.unparse :: ts.map Tree.unparse) ∧ [].map Tree.unparse = [] ∧
    (∀ us vs ws : List Terminal, us ++ vs ++ ws = us ++ (vs ++ ws)) ∧
    (∀ w (us vs : List Terminal), w :: us ++ vs = w :: (us ++ vs)) ∧ ∀ ws : List Terminal, [] ++ ws = ws :=
  ⟨Tree.unparse_node, fun _ _ => rfl, rfl, List.append_assoc, fun _ _ _ => rfl, fun _ => rfl⟩

theorem wp_expect_accepts {c : Code} (h : r.Before (k.terminal :: ws) p) {Q : Option Token → Reader → Prop}
    (hq : ∀ t s, s.Before ws p → Q (some t) s) : Wp (expect k c) Q r := by
  have hk : r.peek.kind = k := h.peek_kind
  simp only [expect, wp_steps, beq_iff_eq]
  rw [if_pos hk]
  exact hq _ _ h.advance

theorem ident_accepts (text : Text) (rest : List Terminal) : Accepts ident (Grammar.ident text) rest := by
  intro r p h
  have hk : r.peek.kind = .ident := h.peek_kind
  simp only [ident, wp_steps, beq_iff_eq]
  rw [if_pos hk]
  refine ⟨⟨_, rfl, ?_⟩, h.advance⟩
  rw [leaf, Tree.bare_make, h.peek_text]
  rfl

/-! ## Types -/

theorem dimensions_stop (h : r.Before rest p) (hrest : head rest ≠ .lbracket) {Q : Tree → Reader → Prop} (hq : Q t r) :
    Wp (dimensions n t) Q r := by
  have hk : (r.peekAt 0).kind ≠ .lbracket := h.peek_kind ▸ hrest
  cases n with
  | zero => exact hq
  | succ n =>
    simp only [dimensions, dimensionsStep, wp_steps]
    rw [if_neg (fun hb => hk hb.1)]
    exact hq

def typeIn (slot : Bool) (n : Nat) : Rule (Option Tree) := if slot then slotType (pairType n) else type

def Continues (slot : Bool) (T : Tree) : Prop :=
  ∀ n r p rest Q, r.Before (T.unparse ++ rest) p → (T.unparse ++ rest).length < n → head rest ≠ .lparen →
    (∀ t s m, t.bare = T → s.Before rest p → rest.length < m →
      Wp (dimensions m t) (fun t' s' => Q (some t') s') s) → Wp (typeIn slot n) Q r

theorem withDimensions_of (h : r.Before rest p) (hq : ∀ m, rest.length < m → Wp (dimensions m t) (fun t' s' => Q (some
      t') s') r) : Wp (withDimensions (some t)) Q r := by
  simp only [withDimensions, wp_steps]
  exact hq _ (by rw [h.length]; omega)

theorem dimensions_next {m : Nat} {Q : Tree → Reader → Prop} (h : r.Before (Kind.lbracket.terminal ::
      Kind.rbracket.terminal :: rest) p) (hm : rest.length + 2 < m) (hq : ∀ t' s m', t'.bare = .node .arrayType [] {}
      [t.bare] → s.Before rest p → rest.length < m' → Wp (dimensions m' t') Q s) : Wp (dimensions m t) Q r := by
  cases m with
  | zero => omega
  | succ m =>
    simp only [dimensions, dimensionsStep, wp_steps]
    rw [if_pos ⟨h.peek_kind, h.second_kind⟩]
    exact hq _ _ m (by rw [Tree.bare_make]; rfl) h.advance.advance (by omega)

theorem Continues.array (h : Continues slot T) : Continues slot (.node .arrayType [] {} [T]) := by
  intro n r p rest Q hr hn hrest hq
  rw [Tree.unparse_node, List.map_singleton, NodeKind.layout, List.append_assoc] at hr hn
  refine h n r p _ Q hr hn (by rintro ⟨⟩) fun t s m ht hs hm => ?_
  refine dimensions_next hs (by simpa using hm) fun t' s' m' ht' hs' hm' => hq t' s' m' ?_ hs' hm'
  rw [ht', ht]

theorem unparse_baseType (hk : k.isBaseType = true) : (Tree.node .baseType k.name {} []).unparse = [k.terminal] := by
  have hword : k ∈ Kind.keywords ++ Kind.symbols := by
    revert hk
    cases k <;> decide
  rw [Tree.unparse_node, ← Terminal.ofText_name k hword]
  rfl

theorem baseType_accepts (hk : k.isBaseType = true) (rest : List Terminal) :
    Accepts baseType (.node .baseType k.name {} []) rest := by
  intro r p h
  rw [unparse_baseType hk] at h
  have hkind : r.peek.kind = k := h.peek_kind
  simp only [baseType, wp_steps]
  rw [if_pos (by rw [hkind]; exact hk)]
  refine ⟨⟨_, rfl, ?_⟩, h.advance⟩
  rw [leaf, Tree.bare_make, h.peek_text]
  rfl

def PairAccepted (T : Tree) : Prop :=
  ∀ n rest, (T.unparse ++ rest).length < n → Accepts (pairType n) T rest

theorem Continues.accepts (h : Continues true T) (rest : List Terminal) (hn : (T.unparse ++ rest).length < n)
    (hrest : head rest ≠ .lparen ∧ head rest ≠ .lbracket) : Accepts (slotType (pairType n)) T rest := by
  intro r p hr
  refine h n r p rest _ hr hn hrest.1 fun t s m ht hs _ => ?_
  exact dimensions_stop hs hrest.2 ⟨⟨t, rfl, ht⟩, hs⟩

theorem pairType_accepts {a b : Tree} (ha : Continues true a) (hb : Continues true b) :
    PairAccepted (.node .pairType [] {} [a, b]) := by
  intro n rest hn r p hr
  cases n with
  | zero => omega
  | succ n =>
    simp only [row_steps, NodeKind.layout, List.length_cons] at hr hn
    simp only [pairType, pairTypeStep, symbol, wp_steps]
    refine wp_expect_accepts hr.advance fun _ s1 h1 => ?_
    simp only [wp_steps]
    refine (ha.accepts (Kind.comma.terminal :: _) (by simp at hn ⊢; omega) ⟨(by rintro ⟨⟩), (by rintro ⟨⟩)⟩).call h1 rfl fun t1 s2 ht1 h2 => ?_
    refine wp_expect_accepts h2 fun _ s3 h3 => ?_
    refine (hb.accepts (Kind.rparen.terminal :: _) (by simp at hn ⊢; omega) ⟨(by rintro ⟨⟩), (by rintro ⟨⟩)⟩).call h3 rfl fun t2 s4 ht2 h4 => ?_
    exact wp_expect_accepts h4 fun _ s5 h5 => ht1 ▸ ht2 ▸ gives_build [t1, t2] h5

theorem type_continues (h : Grammar.IsType slot T) : Continues slot T ∧ (T.kind = .pairType → PairAccepted T) := by
  induction h with
  | @base slot k hk =>
    refine ⟨fun n r p rest Q hr hn hrest hq => ?_, (by rintro ⟨⟩)⟩
    have hread : Wp (do withDimensions (← baseType)) Q r := by
      simp only [wp_steps]
      refine (baseType_accepts hk rest).call hr rfl fun t s ht hs => ?_
      exact withDimensions_of hs fun m hm => hq t s m ht hs hm
    have hne : (r.peekAt 0).kind ≠ .kwPair := by
      rw [unparse_baseType hk] at hr
      have hkind : (r.peekAt 0).kind = k := hr.peek_kind
      rw [hkind]
      rintro rfl
      cases hk
    cases slot with
    | true =>
      simp only [typeIn, if_true, slotType, wp_steps]
      rw [if_pos hne]
      exact hread
    | false =>
      simp only [typeIn, Bool.false_eq_true, if_false, type, wp_steps, beq_iff_eq]
      rw [if_neg (show r.peek.kind ≠ .kwPair from hne)]
      exact hread
  | bare =>
    refine ⟨fun n r p rest Q hr hn hrest hq => ?_, (by rintro ⟨⟩)⟩
    have hk : (r.peekAt 0).kind = .kwPair := hr.peek_kind
    have hk' : (r.peekAt 1).kind ≠ .lparen := hr.second_kind ▸ hrest
    simp only [typeIn, if_true, slotType, wp_steps]
    rw [if_neg (not_not.2 hk), if_pos hk']
    refine withDimensions_of hr.advance fun m hm => hq _ _ m ?_ hr.advance hm
    rw [leaf, Tree.bare_make, hr.peek_text]
    rfl
  | @pair a b _ _ iha ihb =>
    have hpair := pairType_accepts iha.1 ihb.1
    refine ⟨fun n r p rest Q hr hn hrest hq => ?_, fun _ => hpair⟩
    have hk : r.peek.kind = .kwPair := hr.peek_kind
    simp only [typeIn, Bool.false_eq_true, if_false, type, wp_steps, beq_iff_eq]
    rw [if_pos hk]
    refine (hpair _ rest ?_).call hr rfl fun t s ht hs => withDimensions_of hs fun m hm => hq t s m ht hs hm
    rw [hr.length]
    omega
  | array _ ih => exact ⟨ih.1.array, (by rintro ⟨⟩)⟩
  | @pairs t hk ht ih =>
    refine ⟨fun n r p rest Q hr hn hrest hq => ?_, (by rintro ⟨⟩)⟩
    rw [Tree.unparse_node, List.map_singleton, NodeKind.layout, List.append_assoc] at hr hn
    obtain ⟨a, b, rfl⟩ : ∃ a b, t = .node .pairType [] {} [a, b] := by
      cases ht with
      | pair => exact ⟨_, _, rfl⟩
      | base | array => cases hk
    have h0 : (r.peekAt 0).kind = .kwPair := hr.peek_kind
    have h1 : (r.peekAt 1).kind = .lparen := hr.second_kind
    simp only [typeIn, if_true, slotType, wp_steps]
    rw [if_neg (not_not.2 h0), if_neg (not_not.2 h1)]
    refine (ih.2 rfl n _ hn).call hr rfl fun t s ht hs => ?_
    have hb : s.peek.kind = .lbracket := hs.peek_kind
    simp only [wp_steps, beq_iff_eq]
    rw [if_pos hb]
    refine withDimensions_of hs fun m hm => ?_
    refine dimensions_next hs (by simpa using hm) fun t' s' m' ht' hs' hm' => hq t' s' m' ?_ hs' hm'
    rw [ht', ht]

theorem type_accepts (h : Grammar.IsType false T) (rest : List Terminal) (hrest : head rest ≠ .lparen ∧ head rest ≠ .lbracket) :
    Accepts type T rest := by
  intro r p hr
  refine (type_continues h).1 _ r p rest _ hr (Nat.lt_succ_self _) hrest.1 fun t s m ht hs _ => ?_
  exact dimensions_stop hs hrest.2 ⟨⟨t, rfl, ht⟩, hs⟩

/-! ## Expressions -/

def Stops (n : Nat) (rest : List Terminal) : Prop :=
  head rest ≠ .lbracket ∧ ∀ m, Grammar.level? (head rest) = some m → m < n

theorem mem_levels : ∀ {k : Kind} {n : Nat} (_ : Grammar.level? k = some n), ∃ h : n < levels.length, k ∈ levels[n] := by
  intro k n h
  cases k <;> cases h <;> exact ⟨by decide, by decide⟩

theorem Stops.succ (h : Stops n rest) : Stops (n + 1) rest := ⟨h.1, fun m hm => Nat.lt_succ_of_lt (h.2 m hm)⟩

def ExprAccepted (n : Nat) (T : Tree) : Prop :=
  ∀ m rest, (T.unparse ++ rest).length < m → Stops n rest → Accepts (binary (unary m) (levels.drop n)) T rest

/-- An expression of level `n` is read, and then what may follow on the same level. -/
def ExprContinues (n : Nat) (T : Tree) : Prop :=
  ∀ hn : n < levels.length, ∀ m r p rest Q, r.Before (T.unparse ++ rest) p → (T.unparse ++ rest).length < m →
    Stops (n + 1) rest → (∀ t s f, t.bare = T → s.Before rest p → rest.length < f →
      Wp (operands (binary (unary m) (levels.drop (n + 1))) levels[n] f t) Q s) →
    Wp (binary (unary m) (levels.drop n)) Q r

theorem operands_stop {n f : Nat} {x : Rule (Option Tree)} (hn : n < levels.length) (h : r.Before rest p)
    (hrest : Stops n rest) (hq : Q (some t) r) : Wp (operands x levels[n] f t) Q r := by
  cases f with
  | zero => exact hq
  | succ f =>
    simp only [operands, operandsStep, wp_steps, List.contains_iff_mem]
    rw [if_neg]
    · exact hq
    · intro hmem
      exact absurd (hrest.2 n (h.peek_kind ▸ level_of_mem n hn _ hmem)) (lt_irrefl n)

theorem ExprContinues.accepted (hn : n < levels.length) (h : ExprContinues n T) : ExprAccepted n T := by
  intro m rest hm hrest r p hr
  exact h hn m r p rest _ hr hm hrest.succ fun t s f ht hs _ => operands_stop hn hs hrest ⟨⟨t, rfl, ht⟩, hs⟩

theorem ExprAccepted.continues (h : ExprAccepted (n + 1) T) : ExprContinues n T := by
  intro hn m r p rest Q hr hm hrest hq
  rw [List.drop_eq_getElem_cons hn]
  simp only [binary, wp_steps]
  refine (h m rest hm hrest).call hr rfl fun t s ht hs => ?_
  exact hq t s _ ht hs (by rw [hs.length]; omega)

theorem ExprContinues.binary {op : Kind} {l r : Tree} (hop : Grammar.level? op = some n) (hl : ExprContinues n l)
    (hr : ExprAccepted (n + 1) r) : ExprContinues n (.node .binary op.name {} [l, r]) := by
  intro hn m rd p rest Q hrd hm hrest hq
  have hword := Grammar.mem_of_level hop
  simp only [row_steps, NodeKind.layout, Terminal.ofText_name _ hword] at hrd hm
  have hstop : Stops (n + 1) (op.terminal :: (r.unparse ++ rest)) := by
    refine ⟨?_, fun k hk => ?_⟩
    · rintro (rfl : op = .lbracket)
      cases hop
    · cases hop.symm.trans hk
      exact Nat.lt_succ_self _
  refine hl hn m rd p _ Q hrd hm hstop fun t s f ht hs hf => ?_
  cases f with
  | zero => omega
  | succ f =>
    have hk : s.peek.kind = op := hs.peek_kind
    have hmem : s.peek.kind ∈ levels[n] := hk ▸ (mem_levels hop).2
    simp only [operands, operandsStep, wp_steps, List.contains_iff_mem]
    rw [if_pos hmem]
    refine (hr m rest (by simp at hm ⊢; omega) hrest).call hs.advance rfl fun t' s' ht' hs' => ?_
    refine hq _ s' f ?_ hs' (by simp at hf; omega)
    rw [Tree.bare_make, List.map_cons, List.map_singleton, ht, ht', hs.peek_text]
    rfl

/-- From less than `m` terminals the rule reads `T`, unless it is continued. -/
def AcceptsUnder (m : Nat) (x : Rule (Option Tree)) (T : Tree) : Prop :=
  ∀ rest, (T.unparse ++ rest).length < m → Stops 0 rest → Accepts x T rest

theorem ExprAccepted.under (h : ExprAccepted 0 T) (m : Nat) : AcceptsUnder m (binary (unary m) levels) T :=
  fun rest hm hrest => h m rest hm hrest

theorem stops_of (hk : k ≠ .lbracket) (hl : Grammar.level? k = none) : Stops 0 (k.terminal :: rest) :=
  ⟨hk, fun m hm => by simp [head, Kind.terminal, hl] at hm⟩

section
variable {m : Nat} {x : Rule (Option Tree)}

theorem indices_accepts {n : Nat} {span : Span} {parts is : List Tree} (his : ∀ i ∈ is, AcceptsUnder m x i)
    (hr : r.Before (is.flatMap (fun i => Kind.lbracket.terminal :: i.unparse ++ [Kind.rbracket.terminal]) ++ rest) p)
    (hm : r.unread.length < m) (hn : r.unread.length < n) (hrest : head rest ≠ .lbracket) :
    Wp (indices x n (span, parts)) (Gives (.node .arrayElem [] {} (parts.map Tree.bare ++ is)) rest p) r := by
  induction is generalizing r n span parts with
  | nil =>
    have hk : r.peek.kind ≠ .lbracket := hr.peek_kind ▸ hrest
    cases n with
    | zero => omega
    | succ n =>
      simp only [indices, indicesStep, wp_steps, beq_iff_eq]
      rw [if_neg hk]
      exact ⟨⟨_, rfl, by rw [Tree.bare_node, List.append_nil]⟩, hr⟩
  | cons i is ih =>
    obtain ⟨hi, his⟩ := List.forall_mem_cons.1 his
    rw [List.flatMap_cons, List.append_assoc, List.cons_append, List.cons_append, List.append_assoc,
      List.cons_append] at hr
    have hlen := hr.length
    have hk : r.peek.kind = .lbracket := hr.peek_kind
    simp only [List.length_cons, List.length_append] at hlen
    cases n with
    | zero => omega
    | succ n =>
      simp only [indices, indicesStep, symbol, wp_steps, beq_iff_eq]
      rw [if_pos hk]
      refine (hi (Kind.rbracket.terminal :: _) ?_ (stops_of (by decide) rfl)).call hr.advance rfl fun t s ht hs => ?_
      · simp only [List.length_cons, List.length_append]
        omega
      refine wp_expect_accepts hs fun c s' hs' => ?_
      have hlen' := hs'.length
      simp only [List.length_append] at hlen'
      refine (ih his hs' (by omega) (by omega)).weaken fun o s'' h => ?_
      rwa [List.map_append, List.map_singleton, ht, List.append_assoc] at h

theorem element_accepts {text : Text} {is : List Tree} (hne : is ≠ []) (his : ∀ i ∈ is, AcceptsUnder m x i)
    (hm : ((Tree.node .arrayElem [] {} (Grammar.ident text :: is)).unparse ++ rest).length < m + 1)
    (hrest : head rest ≠ .lbracket) :
    Accepts (element x) (.node .arrayElem [] {} (Grammar.ident text :: is)) rest := by
  intro r p hr
  simp only [row_steps, NodeKind.layout, List.flatMap_map, List.length_append] at hr hm
  simp only [element, wp_steps]
  refine (ident_accepts text _).call hr rfl fun t s ht hs => ?_
  have hlen := hs.length
  have hname : (Grammar.ident text).unparse.length = 1 := rfl
  rw [List.length_append] at hlen
  have hk : s.peek.kind = .lbracket := by
    obtain ⟨i, is, rfl⟩ := List.exists_cons_of_ne_nil hne
    exact hs.peek_kind
  simp only [wp_steps, beq_iff_eq]
  rw [if_pos hk]
  refine (indices_accepts his hs (by omega) (Nat.lt_succ_self _) hrest).weaken fun o s' h => ?_
  rwa [List.map_singleton, ht] at h

theorem name_accepts (text : Text) (rest : List Terminal) (hrest : head rest ≠ .lbracket) :
    Accepts (element x) (Grammar.ident text) rest := by
  intro r p hr
  simp only [element, wp_steps]
  refine (ident_accepts text rest).call hr rfl fun t s ht hs => ?_
  have hk : s.peek.kind ≠ .lbracket := hs.peek_kind ▸ hrest
  simp only [wp_steps, beq_iff_eq]
  rw [if_neg hk]
  exact ⟨⟨t, rfl, ht⟩, hs⟩

theorem literal_accepts {w : Terminal} {k : NodeKind} (hk : literalKind? w.kind = some k) (hr : r.Before (w :: rest) p) :
    Wp (atom x) (Gives (.node k w.text {} []) rest p) r := by
  have hkind : r.peek.kind = w.kind := hr.peek_kind
  simp only [atom, wp_steps, hkind, hk]
  refine ⟨⟨_, rfl, ?_⟩, hr.advance⟩
  rw [leaf, Tree.bare_make, hr.peek_text]
  rfl

end

theorem unary_of_atom {m : Nat} {w : Terminal} (hr : r.Before (w :: ws) p) (hw : isUnaryOp w.kind = false)
    (h : Wp (atom (binary (unary m) levels)) Q r) : Wp (unary (m + 1)) Q r := by
  have hkind : r.peek.kind = w.kind := hr.peek_kind
  have hne : w.kind ≠ .minus := by
    intro h
    rw [h] at hw
    cases hw
  simp only [unary, unaryStep, wp_steps]
  rw [if_neg (fun h => hne (hkind ▸ h.1)), if_neg (by rw [hkind, hw]; decide)]
  exact h

theorem exprAccepted_literal {w : Terminal} {k : NodeKind} (hk : literalKind? w.kind = some k)
    (hT : (Tree.node k w.text {} []).unparse = [w]) : ExprAccepted Grammar.tightest (.node k w.text {} []) := by
  intro m rest hm _ r p hr
  rw [hT] at hr hm
  cases m with
  | zero => omega
  | succ m =>
    refine unary_of_atom hr ?_ (literal_accepts hk hr)
    revert hk
    generalize w.kind = kind
    cases kind <;> simp [literalKind?, isUnaryOp]

theorem exprAccepted_signed (digits : Text) :
    ExprAccepted Grammar.tightest (.node .intLit ('-'.toUInt8 :: digits) {} []) := by
  intro m rest hm _ r p hr
  cases m with
  | zero => omega
  | succ m =>
    show Wp (unary (m + 1)) _ r
    simp only [unary, unaryStep, wp_steps]
    rw [if_pos ⟨hr.peek_kind, hr.second_kind⟩]
    refine ⟨⟨_, rfl, ?_⟩, hr.advance.advance⟩
    rw [Tree.bare_make, ← r.peek_advance, hr.advance.peek_text]
    rfl

theorem exprAccepted_int (text : Text) : ExprAccepted Grammar.tightest (.node .intLit text {} []) := by
  cases text with
  | nil => exact exprAccepted_literal (w := ⟨.intLit, []⟩) rfl (Tree.unparse_node ..)
  | cons c digits =>
    by_cases hc : c = '-'.toUInt8
    · subst hc
      exact exprAccepted_signed digits
    · refine exprAccepted_literal (w := ⟨.intLit, c :: digits⟩) rfl ?_
      exact if_neg hc

theorem exprAccepted_element {is : List Tree} {text : Text} (hne : is ≠ []) (his : ∀ i ∈ is, ExprAccepted 0 i) :
    ExprAccepted Grammar.tightest (.node .arrayElem [] {} (Grammar.ident text :: is)) := by
  intro m rest hm hrest r p hr
  cases m with
  | zero => omega
  | succ m =>
    have hk : r.peek.kind = .ident := by
      exact hr.peek_kind
    refine unary_of_atom (w := ⟨.ident, text⟩) (hr.cast (by rw [Tree.unparse_node]; rfl)) rfl ?_
    simp only [atom, wp_steps, hk, literalKind?, if_true]
    exact element_accepts hne (fun i hi => (his i hi).under m) hm hrest.1 r p hr

theorem exprAccepted_paren {c : Tree} (hc : ExprAccepted 0 c) :
    ExprAccepted Grammar.tightest (.node .paren [] {} [c]) := by
  intro m rest hm _ r p hr
  have hr : r.Before (Kind.lparen.terminal :: (c.unparse ++ Kind.rparen.terminal :: rest)) p := by
    simpa [NodeKind.layout] using hr
  cases m with
  | zero => omega
  | succ m =>
    have hk : r.peek.kind = .lparen := hr.peek_kind
    refine unary_of_atom hr rfl ?_
    simp only [atom, symbol, wp_steps, hk, literalKind?, reduceCtorEq, if_false, if_true]
    refine (hc.under m (Kind.rparen.terminal :: rest) ?_ (stops_of (by decide) rfl)).call hr.advance rfl
      fun t s ht hs => ?_
    · simpa [NodeKind.layout] using hm
    exact wp_expect_accepts hs fun cl s' hs' => ht ▸ gives_build [t] hs'

theorem isUnaryOp_of_mem : ∀ k ∈ Grammar.prefixes, isUnaryOp k = true := by decide

theorem exprAccepted_unary {op : Kind} {c : Tree} (hop : op ∈ Grammar.prefixes)
    (hc : Grammar.IsExpr Grammar.tightest c) (hsign : op = .minus → Grammar.isUnsigned c = false)
    (h : ExprAccepted Grammar.tightest c) : ExprAccepted Grammar.tightest (.node .unary op.name {} [c]) := by
  intro m rest hm hrest r p hr
  have hword := Grammar.mem_of_prefixes hop
  simp only [row_steps, NodeKind.layout, Terminal.ofText_name _ hword, List.length_cons] at hr hm
  cases m with
  | zero => omega
  | succ m =>
    have hk : r.peek.kind = op := hr.peek_kind
    have hnot : ¬ (r.peek.kind = .minus ∧ (r.peekAt 1).kind = .intLit) := by
      rintro ⟨hminus, hint⟩
      obtain ⟨w, ws, hws, -, hunsigned⟩ := hc.unparse_cons
      have hnext := hr.second_kind
      rw [hws] at hnext
      rw [hunsigned rfl (hnext.symm.trans hint)] at hsign
      exact absurd (hsign (hk.symm.trans hminus)) (by decide)
    have hunary : isUnaryOp op = true := isUnaryOp_of_mem op hop
    show Wp (unary (m + 1)) _ r
    simp only [unary, unaryStep, wp_steps]
    rw [if_neg hnot, if_pos (by rw [hk, hunary])]
    have htext : r.peek.text = op.name := hr.peek_text
    exact (h m rest (by omega) hrest).call hr.advance rfl fun t s ht hs => ht ▸ htext ▸ gives_build [t] hs

theorem expr_accepted (h : Grammar.IsExpr n T) : ExprAccepted n T ∧ ExprContinues n T := by
  have htight : ∀ {T}, ExprAccepted Grammar.tightest T →
      ExprAccepted Grammar.tightest T ∧ ExprContinues Grammar.tightest T :=
    fun h => ⟨h, fun hn => absurd hn (by decide)⟩
  induction h with
  | int => exact htight (exprAccepted_int _)
  | @bool k hk =>
    have hword : k ∈ Kind.keywords ++ Kind.symbols := by
      revert k
      decide
    refine htight (exprAccepted_literal (w := k.terminal) ?_ ?_)
    · revert k
      decide
    · rw [← Terminal.ofText_name k hword]
      exact Tree.unparse_node ..
  | @char text => exact htight (exprAccepted_literal (w := ⟨.charLit, text⟩) rfl (Tree.unparse_node ..))
  | @str text => exact htight (exprAccepted_literal (w := ⟨.strLit, text⟩) rfl (Tree.unparse_node ..))
  | null =>
    refine htight (exprAccepted_literal (w := Kind.kwNull.terminal) rfl ?_)
    exact Tree.unparse_node ..
  | @ident text =>
    refine htight fun m rest hm hrest r p hr => ?_
    cases m with
    | zero => omega
    | succ m =>
      have hk : r.peek.kind = .ident := hr.peek_kind
      refine unary_of_atom (w := ⟨.ident, text⟩) hr rfl ?_
      simp only [atom, wp_steps, hk, literalKind?, if_true]
      exact name_accepts text rest hrest.1 r p hr
  | elem hne _ ih => exact htight (exprAccepted_element hne fun i hi => (ih i hi).1)
  | paren _ ih => exact htight (exprAccepted_paren ih.1)
  | unary hop hc hsign ih => exact htight (exprAccepted_unary hop hc hsign ih.1)
  | binary hop _ _ ihl ihr =>
    have hc := ExprContinues.binary hop ihl.2 ihr.1
    exact ⟨hc.accepted (mem_levels hop).1, hc⟩
  | @tighter n t h ih =>
    have hlt : n < levels.length := h.level_le
    have hc := ih.1.continues
    exact ⟨hc.accepted hlt, hc⟩

theorem expr_accepts (h : Grammar.IsExpr 0 T) (rest : List Terminal) (hrest : Stops 0 rest) : Accepts expr T rest := by
  intro r p hr
  simp only [expr, wp_steps]
  exact (expr_accepted h).1 _ rest (by rw [hr.length]; omega) hrest r p hr

theorem expr_call (h : Grammar.IsExpr 0 T) (hr : r.Before ws p)
    (hws : ws = T.unparse ++ k.terminal :: rest) (hk : k ≠ .lbracket ∧ Grammar.level? k = none)
    (hq : ∀ t s, t.bare = T → s.Before (k.terminal :: rest) p → Q (some t) s) : Wp expr Q r :=
  (expr_accepts h _ (stops_of hk.1 hk.2)).call hr hws hq

theorem expr_under (h : Grammar.IsExpr 0 T) (m : Nat) : AcceptsUnder m expr T := fun rest _ hrest =>
  expr_accepts h rest hrest

theorem head_of_expr (h : Grammar.IsExpr n T) (ws : List Terminal) :
    Grammar.opens (head (T.unparse ++ ws)) = true := by
  obtain ⟨w, us, hT, hw, -⟩ := h.unparse_cons
  rw [hT]
  exact hw

/-! ## Lists -/

theorem intercalate_eq_append (sep : List Terminal) (c : List Terminal) (cs : List (List Terminal)) :
    ∃ us, List.intercalate sep (c :: cs) = c ++ us := by
  cases cs with
  | nil => exact ⟨[], by simp⟩
  | cons d ds => exact ⟨_, by rw [List.intercalate_cons_of_ne_nil (by simp), List.append_assoc]⟩

def GivesAll (cs : List Tree) (rest : List Terminal) (p : Nat) (os : List (Option Tree)) (s : Reader) : Prop :=
  (∃ ts : List Tree, os = ts.map some ∧ ts.map Tree.bare = cs) ∧ s.Before rest p

section
variable {m : Nat} {x : Rule (Option Tree)} {cs : List Tree}

theorem commaList_accepts {n : Nat} (done : List Tree) (hne : cs ≠ []) (hcs : ∀ c ∈ cs, AcceptsUnder m x c)
    (hr : r.Before (NodeKind.commas (cs.map Tree.unparse) ++ rest) p) (hm : r.unread.length < m)
    (hn : r.unread.length < n) (hrest : Stops 0 rest) (hcomma : head rest ≠ .comma) :
    Wp (commaList x n (done.map some)) (GivesAll (done.map Tree.bare ++ cs) rest p) r := by
  induction cs generalizing r n done with
  | nil => exact absurd rfl hne
  | cons c cs ih =>
    obtain ⟨hc, hcs⟩ := List.forall_mem_cons.1 hcs
    cases n with
    | zero => omega
    | succ n =>
      simp only [commaList, commaListStep, wp_steps, beq_iff_eq]
      cases cs with
      | nil =>
        have hr : r.Before (c.unparse ++ rest) p := by simpa [NodeKind.commas] using hr
        refine (hc rest (by rw [← hr.length]; exact hm) hrest).call hr rfl fun t s ht hs => ?_
        rw [if_neg (by rw [hs.peek_kind]; exact hcomma)]
        refine ⟨⟨done ++ [t], by simp, by simp [ht]⟩, hs⟩
      | cons d ds =>
        rw [List.map_cons, NodeKind.commas, List.intercalate_cons_of_ne_nil (by simp), List.append_assoc,
          List.append_assoc, List.cons_append] at hr
        refine (hc (Kind.comma.terminal :: _) (by rw [← hr.length]; exact hm) (stops_of (by decide) rfl)).call hr rfl
          fun t s ht hs => ?_
        have hk : s.peek.kind = .comma := hs.peek_kind
        rw [if_pos hk]
        have hlen' := hs.advance.length
        have hlen'' := hr.length
        simp only [List.length_append, List.length_cons, List.nil_append] at hlen' hlen''
        have hnext := @ih s.advance n (done ++ [t]) (by simp) hcs hs.advance (by omega) (by omega)
        simpa [ht] using hnext

theorem items_accepts {closing : Kind} (hcs : ∀ c ∈ cs, AcceptsUnder m x c)
    (hhead : ∀ c ∈ cs, ∀ ws, head (c.unparse ++ ws) ≠ closing)
    (hr : r.Before (NodeKind.commas (cs.map Tree.unparse) ++ closing.terminal :: rest) p) (hm : r.unread.length < m)
    (hk : closing ≠ .lbracket ∧ Grammar.level? closing = none ∧ closing ≠ .comma) :
    Wp (items closing x) (GivesAll cs (closing.terminal :: rest) p) r := by
  simp only [items, wp_steps, beq_iff_eq]
  by_cases hne : cs = []
  · subst hne
    have hk : r.peek.kind = closing := hr.peek_kind
    rw [if_pos hk]
    exact ⟨⟨[], rfl, rfl⟩, hr⟩
  · have hstart : r.peek.kind ≠ closing := by
      obtain ⟨c, cs, rfl⟩ := List.exists_cons_of_ne_nil hne
      obtain ⟨us, hus⟩ := intercalate_eq_append [Kind.comma.terminal] c.unparse (cs.map Tree.unparse)
      rw [hr.peek_kind, List.map_cons, NodeKind.commas, hus, List.append_assoc]
      exact hhead c List.mem_cons_self _
    rw [if_neg hstart]
    exact commaList_accepts [] hne hcs hr hm (Nat.lt_succ_self _) (stops_of hk.1 hk.2.1) hk.2.2

end

/-! ## Values -/

def item (n : Nat) : Rule (Option Tree) := do if ← isAt .lbracket then arrayLit n else expr

theorem head_of_item (h : Grammar.IsItem T) (ws : List Terminal) : head (T.unparse ++ ws) ≠ .rbracket := by
  cases h with
  | expr h =>
    intro hk
    have := head_of_expr h ws
    rw [hk] at this
    cases this
  | array =>
    exact nofun

theorem arrayLit_accepts {m : Nat} {cs : List Tree} (hitem : ∀ c ∈ cs, Grammar.IsItem c)
    (hcs : ∀ c ∈ cs, AcceptsUnder m (item m) c)
    (hm : ((Tree.node .arrayLit [] {} cs).unparse ++ rest).length < m + 1) :
    Accepts (arrayLit (m + 1)) (.node .arrayLit [] {} cs) rest := by
  intro r p hr
  simp only [row_steps, NodeKind.layout, List.length_cons] at hr hm
  simp only [arrayLit, arrayLitStep, symbol, wp_steps]
  have hlt : r.advance.unread.length < m := by rw [hr.advance.length]; omega
  refine (items_accepts hcs (fun c hc => head_of_item (hitem c hc)) hr.advance hlt (by decide)).weaken ?_
  rintro _ s ⟨⟨ts, rfl, hts⟩, hs⟩
  exact wp_expect_accepts hs fun c s' hs' => hts ▸ gives_build ts hs'

theorem item_accepts (h : Grammar.IsItem T) (m : Nat) : AcceptsUnder m (item m) T := by
  induction h generalizing m with
  | expr h =>
    intro rest hm hrest r p hr
    have hk : r.peek.kind ≠ .lbracket := by
      intro hk
      have := head_of_expr h rest
      rw [← hr.peek_kind, hk] at this
      cases this
    simp only [item, wp_steps, beq_iff_eq]
    rw [if_neg hk]
    exact expr_accepts h rest hrest r p hr
  | @array cs hcs ih =>
    intro rest hm hrest r p hr
    have hk : r.peek.kind = .lbracket := by
      rw [hr.peek_kind, Tree.unparse_node]
      rfl
    simp only [item, wp_steps, beq_iff_eq]
    rw [if_pos hk]
    cases m with
    | zero => omega
    | succ m => exact arrayLit_accepts hcs (fun c hc => ih c hc m) hm r p hr

theorem arguments_accepts {args : List Tree} (h : ∀ a ∈ args, Grammar.IsExpr 0 a) (rest : List Terminal) :
    Accepts arguments (.node .argList [] {} args) rest := by
  intro r p hr
  simp only [row_steps, NodeKind.layout] at hr
  simp only [arguments, symbol, wp_steps]
  refine wp_expect_accepts hr fun opening s1 h1 => ?_
  simp only [wp_steps]
  have hhead : ∀ a ∈ args, ∀ ws, head (a.unparse ++ ws) ≠ .rparen := by
    intro a ha ws hk
    have := head_of_expr (h a ha) ws
    rw [hk] at this
    cases this
  refine (items_accepts (fun a ha => expr_under (h a ha) _) hhead h1 (Nat.lt_succ_self _) (by decide)).weaken ?_
  rintro _ s ⟨⟨ts, rfl, hts⟩, hs⟩
  exact wp_expect_accepts hs fun c s' hs' => hts ▸ gives_build ts hs'

theorem place_accepts (h : Grammar.IsPlace T) (rest : List Terminal) (hn : (T.unparse ++ rest).length < n)
    (hrest : head rest ≠ .lbracket) : Accepts (target n) T rest := by
  induction h generalizing n with
  | @element t hk ht =>
    cases n with
    | zero => omega
    | succ n =>
      intro r p hr
      have hread : Accepts (element expr) t rest := by
        obtain ⟨text, rfl⟩ | ⟨text, is, hne, his, rfl⟩ := ht.element_cases hk
        · exact name_accepts text rest hrest
        · exact element_accepts hne (fun i hi => expr_under (his i hi) n) hn hrest
      have hkind : r.peek.kind = .ident := by
        obtain ⟨text, rfl⟩ | ⟨text, is, -, -, rfl⟩ := ht.element_cases hk
        · exact hr.peek_kind
        · rw [hr.peek_kind, Tree.unparse_node]
          rfl
      simp only [target, targetStep, wp_steps, hkind, reduceCtorEq, or_self, if_false, if_true]
      exact hread r p hr
  | @slot k c hk _ ih =>
    cases n with
    | zero => omega
    | succ n =>
      intro r p hr
      have hword : k ∈ Kind.keywords ++ Kind.symbols := by
        rcases List.mem_pair.1 hk with rfl | rfl <;> decide
      simp only [row_steps, NodeKind.layout, Terminal.ofText_name _ hword, List.length_cons] at hr hn
      have hkind : r.peek.kind = k := hr.peek_kind
      simp only [target, targetStep, wp_steps]
      rw [if_pos (by rw [hkind]; simpa using hk)]
      have htext : r.peek.text = k.name := hr.peek_text
      exact (ih (by omega)).call hr.advance rfl fun t s ht hs => ht ▸ htext ▸ gives_build [t] hs

theorem head_of_slot (h : Grammar.IsPlace T) (hk : T.kind = .pairElem) (ws : List Terminal) :
    head (T.unparse ++ ws) ∈ [Kind.kwFst, .kwSnd] := by
  cases h with
  | element h => rcases h with h | h <;> rw [h] at hk <;> cases hk
  | @slot k c hmem =>
    have hword : k ∈ Kind.keywords ++ Kind.symbols := by
      rcases List.mem_pair.1 hmem with rfl | rfl <;> decide
    rw [Tree.unparse_node]
    show (Terminal.ofText k.name).kind ∈ _
    rw [Terminal.ofText_name k hword]
    exact hmem

theorem value_accepts (h : Grammar.IsValue T) (rest : List Terminal) (hrest : Stops 0 rest) :
    Accepts value T rest := by
  intro r p hr
  simp only [value, symbol, wp_steps]
  cases h with
  | item h =>
    cases h with
    | expr h =>
      have hopens := head_of_expr h rest
      rw [← hr.peek_kind] at hopens
      split
      case h_6 => exact expr_accepts h rest hrest r p hr
      all_goals
        rename_i hk
        rw [hk] at hopens
        cases hopens
    | @array cs hcs =>
      have hk : r.peek.kind = .lbracket := by
        rw [hr.peek_kind, Tree.unparse_node]
        rfl
      simp only [hk, wp_steps]
      exact arrayLit_accepts hcs (fun c hc => item_accepts (hcs c hc) _) (by rw [hr.length]; omega) r p hr
  | @newPair a b ha hb =>
    simp only [row_steps, NodeKind.layout] at hr
    have hk : r.peek.kind = .kwNewpair := hr.peek_kind
    simp only [hk, wp_steps]
    refine wp_expect_accepts hr.advance fun _ s1 h1 => ?_
    simp only [wp_steps]
    refine expr_call ha h1 rfl (by decide) fun t1 s2 ht1 h2 => ?_
    refine wp_expect_accepts h2 fun _ s3 h3 => ?_
    refine expr_call hb h3 rfl (by decide) fun t2 s4 ht2 h4 => ?_
    exact wp_expect_accepts h4 fun _ s5 h5 => ht1 ▸ ht2 ▸ gives_build [t1, t2] h5
  | slot hk h =>
    have hread : Wp (target (r.unread.length + 1)) (Gives T rest p) r :=
      place_accepts h rest (by rw [hr.length]; omega) hrest.1 r p hr
    have hmem := head_of_slot h hk rest
    rw [← hr.peek_kind] at hmem
    rcases List.mem_pair.1 hmem with hkind | hkind
    · simp only [hkind, wp_steps]
      exact hread
    · simp only [hkind, wp_steps]
      exact hread
  | @call text args h =>
    have hr : r.Before (Kind.kwCall.terminal :: ((Grammar.ident text).unparse ++
        ((Tree.node .argList [] {} args).unparse ++ rest))) p := by simpa [NodeKind.layout] using hr
    have hk : r.peek.kind = .kwCall := hr.peek_kind
    simp only [hk, wp_steps]
    refine (ident_accepts text _).call hr.advance rfl fun t1 s1 ht1 h1 => ?_
    exact (arguments_accepts h rest).call h1 rfl fun t2 s2 ht2 h2 => ht1 ▸ ht2 ▸ gives_build [t1, t2] h2

end Rule

end Wacc
