/-
  What the rules read.

  A rule takes tokens from a reader and moves it on.  If it reports no problem, it has taken the tokens
  of the tree that it gives: the tree is in the grammar, it is written with the terminals taken, and it
  stands where they stood.
-/
import Wacc.Proofs.Tree.Grammar
import Wacc.Proofs.Tree.Places

namespace Wacc

def Reader.terminals (r : Reader) : List Terminal := r.unread.map Token.terminal

namespace Reader

variable {r : Reader}

@[simp] theorem length_terminals (r : Reader) : r.terminals.length = r.unread.length := by
  rw [terminals, List.length_map]

theorem peek_advance (r : Reader) : r.advance.peek = r.peekAt 1 := by
  unfold Reader.advance Reader.peek Reader.peekAt
  split <;> simp_all

theorem terminals_eq (h : r.eof.kind = .eof) (hk : r.peek.kind ≠ .eof) :
    r.terminals = r.peek.terminal :: r.advance.terminals := by
  unfold Reader.advance Reader.terminals Reader.peek Reader.peekAt at *
  cases hu : r.unread with
  | nil => simp [hu, h] at hk
  | cons t rest => simp

theorem peek_of_terminals {w : Terminal} {ws : List Terminal} (h : r.terminals = w :: ws) :
    r.peek.terminal = w ∧ r.advance.terminals = ws := by
  unfold Reader.advance Reader.terminals Reader.peek Reader.peekAt at *
  cases hu : r.unread with
  | nil => simp [hu] at h
  | cons t rest => simpa [hu] using h

end Reader

theorem Kind.Spells.eq_name {k : Kind} {t : Text} (h : k.Spells t) (hk : k ∈ keywords ++ symbols) :
    t = k.name := by
  cases k <;> first | exact h | exact absurd hk (by decide)

/-! ## Pieces -/

/-- What is read: a token, or the tokens of a tree. -/
inductive Piece where
  | word (w : Terminal) (s : Span)
  | tree (t : Tree)

namespace Piece

@[simp] def terminals : Piece → List Terminal
  | word w _ => [w]
  | tree t => t.unparse

@[simp] def tree? : Piece → Option Tree
  | word .. => none
  | tree t => some t

@[simp] def mark? : Piece → Option Span
  | word _ s => some s
  | tree _ => none

def node : Piece → Tree
  | word _ s => .node .unknown [] s []
  | tree t => t

/-- The pieces stand one behind the other, from `a` up to `b` at most. -/
def InRow (f : File) (a b : Nat) (ps : List Piece) : Prop := Tree.Row f a b (ps.map node)

variable {f : File} {a b m : Nat} {ps qs : List Piece} {s : Span}

theorem InRow.word {w : Terminal} (h : Within f a b s) : InRow f a b [.word w s] :=
  .single ⟨⟨⟨h.file, Nat.zero_le _, h.pos, h.stop, h.stop⟩, by simp [Tree.Copies, NodeKind.isCopy], h.pos.le⟩, h.lo, h.hi⟩

theorem InRow.append (h : InRow f a m ps) (h' : InRow f m b qs) : InRow f a b (ps ++ qs) := by
  rw [InRow, List.map_append]
  exact Tree.Row.append h h'

theorem InRow.split (h : InRow f a b (ps ++ qs)) : ∃ m, InRow f a m ps ∧ InRow f m b qs := by
  induction ps generalizing a with
  | nil => exact ⟨a, le_rfl, h⟩
  | cons p ps ih =>
    obtain ⟨hp, ha, h⟩ := h
    obtain ⟨m, h, h'⟩ := ih h
    exact ⟨m, ⟨hp, ha, h⟩, h'⟩

theorem InRow.row (h : InRow f a b ps) : Tree.Row f a b (ps.filterMap tree?) := by
  induction ps generalizing a with
  | nil => exact h
  | cons p ps ih =>
    obtain ⟨hp, ha, h⟩ := h
    cases p with
    | word => exact .weaken (ih h) (ha.trans hp.within.pos.le) le_rfl
    | tree => exact ⟨hp, ha, ih h⟩

theorem InRow.mark (h : InRow f a b ps) (hs : s ∈ ps.filterMap mark?) : Within f a b s := by
  obtain ⟨_ | _, hp, ⟨⟩⟩ := List.mem_filterMap.1 hs
  exact (Tree.Row.mem h (List.mem_map_of_mem hp)).within

theorem InRow.make {k : NodeKind} {text : Text} (h : InRow f a b ps) (hs : s ∈ ps.filterMap mark?)
    (hcopy : k.isCopy text = false) : (Tree.make k text s (ps.filterMap tree?)).Stands f a b :=
  .make (h.mark hs) h.row hcopy

theorem InRow.makeCover {k : NodeKind} {text : Text} {s' : Span} (h : InRow f a b ps) (hs : s ∈ ps.filterMap mark?)
    (hs' : s' ∈ ps.filterMap mark?) (hcopy : k.isCopy text = false) :
    (Tree.make k text (s.cover s') (ps.filterMap tree?)).Stands f a b :=
  .make ((h.mark hs).cover (h.mark hs')) h.row hcopy

end Piece

namespace Rule

/-! ## Going on -/

structure Onward (r s : Reader) : Prop where
  ended : s.eof.kind = .eof
  unread : s.unread <:+ r.unread
  problems : r.problems.length ≤ s.problems.length
  on : ∀ f, r.On f → s.On f

/-- Between `r` and `s` the pieces were read. -/
structure Taken (r : Reader) (ps : List Piece) (s : Reader) : Prop where
  terminals : r.terminals = ps.flatMap Piece.terminals ++ s.terminals
  row : ∀ f, r.On f → Piece.InRow f r.here s.here ps

structure Upto (r s : Reader) (Φ : List Piece → Prop) : Prop where
  onward : Onward r s
  clean : r.Spelled → s.problems.length ≤ r.problems.length → ∃ ps, Taken r ps s ∧ Φ ps

inductive Both (Φ Ψ : List Piece → Prop) : List Piece → Prop
  | mk {u v} (hu : Φ u) (hv : Ψ v) : Both Φ Ψ (u ++ v)

inductive Tree? (P : Tree → Prop) : Option Tree → List Piece → Prop
  | mk (t) (h : P t.bare) : Tree? P (some t) [.tree t]

inductive Token? (k : Kind) : Option Token → List Piece → Prop
  | mk (t) (h : t.text = k.name) : Token? k (some t) [.word k.terminal t.span]

/-- The pieces are those of the tree. -/
abbrev Whole (P : Tree → Prop) (o : Option Tree) (ps : List Piece) : Prop :=
  ∃ t, o = some t ∧ P t.bare ∧ ps.flatMap Piece.terminals = t.unparse ∧
    ∀ f a b, Piece.InRow f a b ps → t.Stands f a b

/-- A tree that the rule gives without a problem satisfies `P`, and its tokens were taken. -/
def Sound (P : Tree → Prop) (x : Rule (Option Tree)) : Prop :=
  ∀ r : Reader, r.eof.kind = .eof → Wp x (fun o s => Upto r s (Tree? P o)) r

def SoundUnder (m : Nat) (P : Tree → Prop) (x : Rule (Option Tree)) : Prop :=
  ∀ r : Reader, r.eof.kind = .eof → r.unread.length < m → Wp x (fun o s => Upto r s (Tree? P o)) r

variable {r s s' : Reader} {Φ Ψ : List Piece → Prop} {P : Tree → Prop}
  {x : Rule (Option Tree)} {o : Option Tree} {Q : Option Token → Reader → Prop} {n : Nat} {P' : Tree → Prop}

namespace Onward

theorem refl (h : r.eof.kind = .eof) : Onward r r := ⟨h, List.suffix_refl _, le_rfl, fun _ => id⟩

theorem trans (h : Onward r s) (h' : Onward s s') : Onward r s' :=
  ⟨h'.ended, h'.unread.trans h.unread, h.problems.trans h'.problems, fun f hf => h'.on f (h.on f hf)⟩

theorem length (h : Onward r s) : s.unread.length ≤ r.unread.length := h.unread.length_le

theorem spelled (h : Onward r s) (hr : r.Spelled) : s.Spelled :=
  ⟨fun t ht => hr.unread t (h.unread.subset ht), h.ended⟩

theorem complain {f : Token → SyntaxFault} (hr : r.eof.kind = .eof)
    (hf : ∀ t c k t', f t = .expected c k t' → c.category = .syntactic) : Onward r (r.report r.place (f r.peek)) :=
  ⟨hr, List.suffix_refl _, Nat.le_succ _, fun _ h => (h.report h.place (hf _)).on⟩

theorem advance (h : r.eof.kind = .eof) : Onward r r.advance := by
  refine ⟨?_, ?_, ?_, fun _ h => h.advance.on⟩ <;> unfold Reader.advance <;> split <;> simp_all

end Onward

namespace Upto

theorem refl (h : r.eof.kind = .eof) : Upto r r (· = []) :=
  ⟨.refl h, fun _ _ => ⟨[], ⟨rfl, fun _ _ => le_rfl⟩, rfl⟩⟩

theorem map (h : Upto r s Φ) (hq : ∀ ps, Φ ps → Ψ ps) : Upto r s Ψ :=
  ⟨h.onward, fun hs hc => let ⟨ps, ht, hp⟩ := h.clean hs hc; ⟨ps, ht, hq ps hp⟩⟩

theorem seq (h : Upto r s Φ) (h' : Upto s s' Ψ) : Upto r s' (Both Φ Ψ) := by
  refine ⟨h.onward.trans h'.onward, fun hs hc => ?_⟩
  have h1 := h.onward.problems
  have h2 := h'.onward.problems
  obtain ⟨u, hu, hΦ⟩ := h.clean hs (by omega)
  obtain ⟨v, hv, hΨ⟩ := h'.clean (h.onward.spelled hs) (by omega)
  refine ⟨u ++ v, ⟨?_, fun f hf => (hu.row f hf).append (hv.row f (h.onward.on f hf))⟩, hΦ, hΨ⟩
  rw [hu.terminals, hv.terminals, List.flatMap_append, List.append_assoc]

/-- The pieces are put together in a tree. -/
theorem fold {o : Option Tree} (h : Upto r s Φ) (hq : ∀ ps, Φ ps → Whole P o ps) : Upto r s (Tree? P o) := by
  refine ⟨h.onward, fun hs hc => ?_⟩
  obtain ⟨ps, ht, hp⟩ := h.clean hs hc
  obtain ⟨t, rfl, hP, hw, hstands⟩ := hq ps hp
  refine ⟨[.tree t], ⟨?_, fun f hf => .single (hstands f _ _ (ht.row f hf))⟩, t, hP⟩
  rw [ht.terminals, hw]
  simp

theorem starts (h : Upto r s Φ) :
    Upto r s fun ps => Φ ps ∧ ∃ rest, r.terminals = ps.flatMap Piece.terminals ++ rest :=
  ⟨h.onward, fun hs hc => let ⟨ps, ht, hp⟩ := h.clean hs hc; ⟨ps, ht, hp, _, ht.terminals⟩⟩

theorem dirty (h : Onward r s) (hp : r.problems.length < s.problems.length) : Upto r s Φ :=
  ⟨h, fun _ hc => by omega⟩

theorem complain {f : Token → SyntaxFault} (hr : r.eof.kind = .eof)
    (hf : ∀ t c k t', f t = .expected c k t' → c.category = .syntactic) : Upto r (r.report r.place (f r.peek)) Φ :=
  dirty (.complain hr hf) (Nat.lt_succ_self _)

theorem noToken {k : Kind} (h : Upto r s (Both Ψ (Token? k none))) : Upto r s Φ :=
  h.map (by rintro _ ⟨-, ⟨⟩⟩)

theorem noTree (h : Upto r s (Tree? P none)) : Upto r s Φ := h.map nofun

theorem clear (h : Upto r s (Both (· = []) Φ)) : Upto r s Φ := h.map (by rintro _ ⟨rfl, h⟩; exact h)

section
variable (h : r.eof.kind = .eof) (hk : r.peek.kind ≠ .eof)
include h hk

theorem take : Upto r r.advance fun ps => r.peek.kind.Spells r.peek.text ∧ ps = [.word r.peek.terminal r.peek.span] := by
  refine ⟨.advance h, fun hs _ => ⟨_, ⟨?_, fun f hf => ?_⟩, r.peek_spelled hs hk, rfl⟩⟩
  · exact r.terminals_eq h hk
  · exact .word (hf.take hk).2.2

theorem leaf {k : NodeKind} (hleaf : r.peek.kind.leaf? = some k ∨ k.isCopy r.peek.text = false)
    (hP : r.peek.kind.Spells r.peek.text →
      P (.node k r.peek.text {} []) ∧ [r.peek.terminal] = k.layout r.peek.text []) :
    Upto r r.advance (Tree? P (some (leaf k r.peek))) := by
  refine ⟨.advance h, fun hs _ => ?_⟩
  obtain ⟨hP, hw⟩ := hP (r.peek_spelled hs hk)
  refine ⟨_, ⟨?_, fun f hf => ?_⟩, _, by rwa [Rule.leaf, Tree.bare_make]⟩
  · rw [r.terminals_eq h hk, ← List.singleton_append, hw]
    simp [Rule.leaf]
  · obtain ⟨-, ht, hw⟩ := hf.take hk
    exact .single (leaf_stands ht hw hleaf)

end

theorem takeOf {k : Kind} (h : r.eof.kind = .eof) (hk : r.peek.kind = k) (hw : k ∈ Kind.keywords ++ Kind.symbols) :
    Upto r r.advance (Token? k (some r.peek)) := by
  have hne : k ≠ .eof := by
    rintro rfl
    exact (by decide : Kind.eof ∉ Kind.keywords ++ Kind.symbols) hw
  subst hk
  refine (take h hne).map ?_
  rintro _ ⟨hspell, rfl⟩
  have htext := hspell.eq_name hw
  rw [Token.terminal, htext]
  exact ⟨_, htext⟩

end Upto

theorem length_advance (h : r.eof.kind = .eof) (hk : r.peek.kind ≠ .eof) :
    r.advance.unread.length < r.unread.length := by
  have := congrArg List.length (r.terminals_eq h hk)
  simp only [Reader.length_terminals, List.length_cons] at this
  omega

theorem Wp.and {α : Type} {x : Rule α} {Q Q' : α → Reader → Prop} (h : Wp x Q r) (h' : Wp x Q' r) :
    Wp x (fun a s => Q a s ∧ Q' a s) r := ⟨h, h'⟩

/-- After the pieces that were read there is what the rule reads. -/
theorem Upto.call (h : Upto r s Φ) (hx : Sound P x) {Q : Option Tree → Reader → Prop}
    (hq : ∀ o s', Upto r s' (Both Φ (Tree? P o)) → Q o s') : Wp x Q s :=
  hq _ _ (h.seq (hx s h.onward.ended))

theorem Upto.callUnder {m : Nat} (h : Upto r s Φ) (hx : SoundUnder m P x) (hm : r.unread.length < m)
    {Q : Option Tree → Reader → Prop} (hq : ∀ o s', Upto r s' (Both Φ (Tree? P o)) → Q o s') : Wp x Q s :=
  hq _ _ (h.seq (hx s h.onward.ended (h.onward.length.trans_lt hm)))

theorem Sound.under (h : Sound P x) (m : Nat) : SoundUnder m P x := fun r hr _ => h r hr

theorem Upto.weaken (h : Upto r s (Tree? P o)) (hp : ∀ t, P t → P' t) :
    Upto r s (Tree? P' o) := h.map fun _ ⟨t, ht⟩ => ⟨t, hp _ ht⟩

theorem Sound.weaken (h : Sound P x) (hp : ∀ t, P t → P' t) :
    Sound P' x := fun r hr => Upto.weaken (h r hr) hp

theorem Upto.expect {k : Kind} {c : Code} (h : Upto r s Φ) (hw : k ∈ Kind.keywords ++ Kind.symbols ∧
      c.category = .syntactic) (hq : ∀ o s', Upto r s' (Both Φ (Token? k o)) → Q o s') : Wp (expect k c) Q s := by
  simp only [Rule.expect, wp_steps, beq_iff_eq]
  split_ifs with hk
  · exact hq _ _ (h.seq (.takeOf h.onward.ended hk hw.1))
  · refine hq _ _ (h.seq (.complain h.onward.ended ?_))
    rintro _ _ _ _ ⟨⟩
    exact hw.2

theorem build_map (k : NodeKind) (text : Text) (span : Span) (ts : List Tree) :
    build k text span (ts.map some) = some (.make k text span ts) := by
  have hparts : (ts.map some).mapM id = some ts := by
    induction ts with
    | nil => rfl
    | cons t ts ih => simp [ih]
  rw [build, hparts]
  rfl

theorem built {k : NodeKind} {text : Text} {span : Span} {ps : List Piece} (ts : List Tree)
    (hP : P (.node k text {} (ts.map Tree.bare)))
    (hw : ps.flatMap Piece.terminals = k.layout text (ts.map Tree.unparse))
    (hs : ∀ f a b, Piece.InRow f a b ps → (Tree.make k text span ts).Stands f a b) :
    Whole P (some (.make k text span ts)) ps :=
  ⟨_, rfl, by rwa [Tree.bare_make], by rwa [Tree.unparse_make], hs⟩

theorem ident_sound : Sound (fun t => ∃ text, t = Grammar.ident text) ident := by
  intro r hr
  simp only [ident, wp_steps, beq_iff_eq]
  split_ifs with hk
  · refine .leaf hr (by rw [hk]; decide) (.inl (by rw [Kind.leaf?, if_pos hk])) fun _ => ⟨⟨_, rfl⟩, ?_⟩
    rw [Token.terminal, hk]
    rfl
  · exact .complain hr (by simp)

/-! ## Types -/

theorem baseType_sound {slot : Bool} : Sound (Grammar.IsType slot) baseType := by
  intro r hr
  simp only [baseType, wp_steps]
  split_ifs with hk
  · have hword : r.peek.kind ≠ .eof ∧ r.peek.kind ≠ .ident ∧ r.peek.kind ∈ Kind.keywords ++ Kind.symbols := by
      revert hk
      generalize r.peek.kind = k
      cases k <;> decide
    obtain ⟨hne, hident, hw⟩ := hword
    refine .leaf hr hne (.inl (by rw [Kind.leaf?, if_neg hident, if_pos hk])) fun hspell => ?_
    rw [Token.terminal, hspell.eq_name hw]
    exact ⟨.base hk, congrArg (fun t => [t]) (Terminal.ofText_name _ hw).symm⟩
  · exact .complain hr (by simp)

theorem dimensions_sound {t : Tree} {r0 r : Reader} (hP : ∀ t, P t → P (.node .arrayType [] {} [t]))
    (hr : Upto r0 r (Tree? P (some t))) :
    Wp (dimensions n t) (fun t' s => Upto r0 s (Tree? P (some t')) ∧ (t'.kind = .arrayType ∨ t' = t ∧ s = r)) r := by
  induction n generalizing t r with
  | zero => exact ⟨hr, .inr ⟨rfl, rfl⟩⟩
  | succ n ih =>
    simp only [dimensions, dimensionsStep, wp_steps]
    split_ifs with hk
    · have hopen := Upto.takeOf hr.onward.ended hk.1 (by decide)
      have hkind : r.advance.peek.kind = .rbracket := by rw [r.peek_advance, hk.2]
      have hclose := Upto.takeOf hopen.onward.ended hkind (by decide)
      have hnext : Upto r0 r.advance.advance (Tree? P (some (.make .arrayType [] r.advance.peek.span [t]))) := by
        refine (hr.seq <| hopen.seq hclose).fold ?_
        rintro _ ⟨⟨t, hp⟩, ⟨-, -⟩, -, -⟩
        exact built [t] (hP _ hp) (by simp [NodeKind.layout]) fun _ _ _ h => h.make (by simp) rfl
      obtain ⟨hup, hkind⟩ := ih hnext
      refine ⟨hup, .inl ?_⟩
      rcases hkind with h | ⟨h, -⟩
      · exact h
      · rw [h]
        rfl
    · exact ⟨hr, .inr (by simp)⟩

theorem withDimensions_sound {r0 r : Reader} (hP : ∀ t, P t → P (.node .arrayType [] {} [t]))
    (hr : Upto r0 r (Tree? P o)) :
    Wp (withDimensions o) (fun o' s => Upto r0 s (Tree? P o') ∧
      (o'.all (·.kind == .arrayType) ∨ o' = o ∧ s = r)) r := by
  cases o with
  | none => exact ⟨hr, .inr ⟨rfl, rfl⟩⟩
  | some t =>
    simp only [withDimensions, wp_steps]
    obtain ⟨hup, hkind⟩ := dimensions_sound (n := r.unread.length + 1) hP hr
    refine ⟨hup, ?_⟩
    rcases hkind with h | h
    · exact .inl (by rw [Option.all_some, h]; rfl)
    · exact .inr ⟨by rw [h.1], h.2⟩

def IsSlot (t : Tree) : Prop := Grammar.IsType true t ∨ t.kind = .pairType ∧ Grammar.IsType false t

theorem IsSlot.array {t : Tree} (h : IsSlot t) : IsSlot (.node .arrayType [] {} [t]) := by
  rcases h with h | ⟨hk, h⟩
  · exact .inl (.array h)
  · exact .inl (.pairs hk h)

/-- What a slot of a pair type reads; after a pair type that is not in an array there is a bracket. -/
def SlotRead (r : Reader) (o : Option Tree) (s : Reader) : Prop :=
  Upto r s (Tree? (Grammar.IsType true) o) ∨ Onward r s ∧ s.peek.kind = .lbracket

theorem slotType_sound {pair : Rule (Option Tree)} {r : Reader} (hr : r.eof.kind = .eof)
    (hplaces : ∀ f, PlacesInside f pair)
    (hpair : r.peek.kind = .kwPair →
      Wp pair (fun o s => Upto r s (Tree? (fun t => t.kind = .pairType ∧ Grammar.IsType false t) o)) r) :
    Wp (slotType pair) (SlotRead r) r := by
  have hslot : ∀ t, Grammar.IsType true t → Grammar.IsType true (.node .arrayType [] {} [t]) := fun _ => .array
  simp only [slotType, wp_steps]
  split_ifs with hk hp
  · exact .inl (withDimensions_sound hslot (@baseType_sound true r hr)).1
  · have hkind : r.peek.kind = .kwPair := not_not.1 hk
    refine .inl (withDimensions_sound hslot
      (.leaf hr (by rw [hkind]; decide) (.inr rfl) fun hspell => ?_)).1
    rw [Token.terminal, hspell.eq_name (by rw [hkind]; decide), hkind]
    exact ⟨.bare, congrArg (fun t => [t]) (Terminal.ofText_name _ (by decide)).symm⟩
  · have hkind : r.peek.kind = .kwPair := not_not.1 hk
    have hplaced : Wp pair (fun o s => ∀ f, r.On f → Placed f r o s) r :=
      fun f hf => hplaces f r hf (by rw [hkind]; decide)
    refine (Wp.and (hpair hkind) hplaced).weaken ?_
    rintro o s ⟨ho, hplaced⟩
    cases o with
    | none => exact .inl ho.noTree
    | some t =>
      simp only [wp_steps, beq_iff_eq]
      split_ifs with hb
      · obtain ⟨hup, harray | ⟨-, hsame⟩⟩ :=
          withDimensions_sound (P := IsSlot) (fun _ => .array) (ho.weaken fun _ => .inr)
        · refine .inl (hup.map ?_)
          generalize Prod.fst _ = o at harray
          rintro _ ⟨t', h⟩
          refine ⟨t', h.resolve_right fun hpair => ?_⟩
          have hpk := hpair.1
          rw [Option.all_some, beq_iff_eq] at harray
          rw [Tree.kind_bare, harray] at hpk
          cases hpk
        · refine .inr ⟨hup.onward, ?_⟩
          rw [hsame]
          exact hb
      · have hle := ho.onward.problems
        refine .inl (.dirty ⟨ho.onward.ended, ho.onward.unread, hle.trans (Nat.le_succ _), fun f hf => ?_⟩ (Nat.lt_succ_of_le hle))
        have hf := hplaced f hf
        exact (hf.ahead.on.report (hf.tree t rfl).within.holds (by simp)).on

theorem slot_expect_sound {k : Kind} {c : Code} (h : SlotRead r o s) (hw : k ∈ Kind.keywords ++ Kind.symbols ∧
      c.category = .syntactic) (hk : k ≠ .lbracket) (hq : ∀ o' s', Upto r s' (Both (Tree? (Grammar.IsType true) o)
      (Token? k o')) → Q o' s') : Wp (expect k c) Q s := by
  rcases h with h | ⟨honward, hb⟩
  · exact h.expect hw hq
  · simp only [expect, wp_steps, beq_iff_eq]
    rw [if_neg (by rw [hb]; exact hk.symm)]
    refine hq _ _ (.dirty (honward.trans (.complain honward.ended ?_)) (Nat.lt_succ_of_le honward.problems))
    rintro _ _ _ _ ⟨⟩
    exact hw.2

theorem pairType_sound {r : Reader} (hr : r.eof.kind = .eof) (hk : r.peek.kind = .kwPair) (hn : r.unread.length < n) :
    Wp (pairType n) (fun o s => Upto r s (Tree? (fun t => t.kind = .pairType ∧ Grammar.IsType false t) o)) r := by
  induction n generalizing r with
  | zero => omega
  | succ n ih =>
    have hplaces := fun f => pairType_places (f := f) n
    simp only [pairType, pairTypeStep, symbol, wp_steps]
    have hword := Upto.takeOf hr hk (by decide)
    have hlt := length_advance hr (by rw [hk]; decide)
    refine (Upto.refl hword.onward.ended).expect (by decide) fun op s1 h1 => ?_
    cases op with
    | none => exact (hword.seq h1.clear).noToken
    | some _ =>
      simp only [wp_steps]
      have hle1 := h1.onward.length
      refine (slotType_sound h1.onward.ended hplaces fun hk => ih h1.onward.ended hk (by omega)).weaken
        fun fst s2 h2 => ?_
      refine slot_expect_sound h2 (by decide) (by decide) fun c s3 h3 => ?_
      have hle3 := h3.onward.length
      refine (slotType_sound h3.onward.ended hplaces fun hk => ih h3.onward.ended hk (by omega)).weaken
        fun snd s4 h4 => ?_
      refine slot_expect_sound h4 (by decide) (by decide) fun cl s5 h5 => ?_
      have hall := hword.seq <| h1.seq <| h3.seq h5
      cases cl with
      | none => exact hall.map (by rintro _ ⟨-, -, -, -, ⟨⟩⟩)
      | some closing =>
        refine hall.fold ?_
        rintro _ ⟨⟨-, -⟩, ⟨rfl, -, -⟩, ⟨⟨a, ha⟩, -, -⟩, ⟨b, hb⟩, -, -⟩
        exact built [a, b] ⟨rfl, .pair ha hb⟩ (by simp [NodeKind.layout])
          fun _ _ _ h => h.makeCover (by simp) (by simp) rfl

theorem type_sound : Sound (Grammar.IsType false) type := by
  intro r hr
  have harray : ∀ t, Grammar.IsType false t → Grammar.IsType false (.node .arrayType [] {} [t]) := fun _ => .array
  simp only [type, wp_steps, beq_iff_eq]
  split_ifs with hk
  · refine (pairType_sound hr hk (Nat.lt_succ_self _)).weaken fun o s ho => ?_
    exact (withDimensions_sound harray (ho.weaken fun _ h => h.2)).1
  · exact (withDimensions_sound harray (@baseType_sound false r hr)).1

/-! ## Expressions -/

section
variable {m : Nat} {inner rule : Rule (Option Tree)} {n : Nat} {is : List Tree}

theorem level_of_mem : ∀ n (h : n < levels.length), ∀ k ∈ levels[n], Grammar.level? k = some n := by decide

theorem operands_sound {n fuel : Nat} {ops : List Kind} (hops : ∀ k ∈ ops, Grammar.level? k = some n)
    (hrule : SoundUnder m (Grammar.IsExpr (n + 1)) rule) {left : Tree} {r0 r : Reader} (hm : r.unread.length < m)
    (hr : Upto r0 r (Tree? (Grammar.IsExpr n) (some left))) :
    Wp (operands rule ops fuel left) (fun o s => Upto r0 s (Tree? (Grammar.IsExpr n) o)) r := by
  induction fuel generalizing left r with
  | zero => exact hr
  | succ fuel ih =>
    simp only [operands, operandsStep, wp_steps, List.contains_iff_mem]
    split_ifs with hk
    · have hlevel := hops _ hk
      have hword := Grammar.mem_of_level hlevel
      have hop := Upto.takeOf hr.onward.ended rfl hword
      refine hop.callUnder hrule hm fun o s ho => ?_
      cases o with
      | none => exact (hr.seq ho).map (by rintro _ ⟨-, -, ⟨⟩⟩)
      | some right =>
        have hles := ho.onward.length
        refine ih (by omega) ((hr.seq ho).fold ?_)
        rintro _ ⟨⟨_, hl⟩, ⟨_, htext⟩, _, hright⟩
        refine built [left, right] ?_ ?_ fun _ _ _ h => .make (Tree.Row.mem h.row (.head _)).within h.row rfl
        · rw [htext]
          exact .binary hlevel hl hright
        · simp [htext, NodeKind.layout, Terminal.ofText_name _ hword]
    · exact hr

theorem binary_sound (hn : n ≤ Grammar.tightest) (hinner : SoundUnder m (Grammar.IsExpr Grammar.tightest) inner) :
    SoundUnder m (Grammar.IsExpr n) (binary inner (levels.drop n)) := by
  refine Nat.decreasingInduction (motive := fun n _ => SoundUnder m (Grammar.IsExpr n) (binary inner (levels.drop n)))
    (fun n hlt ih => ?_) hinner hn
  have hlen : n < levels.length := hlt
  rw [List.drop_eq_getElem_cons hlen]
  intro r hr hm
  simp only [binary, wp_steps]
  refine (ih r hr hm).weaken fun o s ho => ?_
  cases o with
  | none => exact ho.noTree
  | some left =>
    simp only [wp_steps]
    have hle := ho.onward.length
    exact operands_sound (level_of_mem n hlen) ih (by omega) (ho.weaken fun _ => .tighter)

def Indexed (name : Tree) (is : List Tree) (span : Span) (ps : List Piece) : Prop :=
  (∃ text, name.bare = Grammar.ident text) ∧ (∀ i ∈ is, Grammar.IsExpr 0 i.bare) ∧
    ps.flatMap Piece.terminals = NodeKind.layout .arrayElem [] ((name :: is).map Tree.unparse) ∧
    ∀ f a b, Piece.InRow f a b ps → Within f a b span ∧ Tree.Row f span.start.toNat span.stop.toNat (name :: is)

def IsElement (t : Tree) : Prop := (t.kind = .ident ∨ t.kind = .arrayElem) ∧ Grammar.IsExpr Grammar.tightest t

theorem Indexed.next {name i : Tree} {span o c : Span} {ps : List Piece} (h : Indexed name is span ps)
    (hi : Grammar.IsExpr 0 i.bare) : Indexed name (is ++ [i]) (span.cover c)
      (ps ++ ([.word Kind.lbracket.terminal o] ++ ([.tree i] ++ [.word Kind.rbracket.terminal c]))) := by
  obtain ⟨hname, his, hw, hrow⟩ := h
  refine ⟨hname, ?_, ?_, fun f a b h => ?_⟩
  · simpa [or_imp, forall_and, hi] using his
  · simp [NodeKind.layout, hw]
  · obtain ⟨m, h, ⟨(ho : Within f 0 _ o), -⟩, (hlo : m ≤ o.start.toNat), (hi : i.Laid f),
      (hlo' : o.stop.toNat ≤ i.span.start.toNat), ⟨(hc : Within f 0 _ c), -⟩,
      (hlo'' : i.span.stop.toNat ≤ c.start.toNat), (hhi : c.stop.toNat ≤ b)⟩ := h.split
    obtain ⟨hs, hrow⟩ := hrow f a m h
    obtain ⟨-, hstart, hstop⟩ := toNat_cover (hs.file.trans hc.file.symm)
    have := hs.hi; have := hs.lo; have := hs.pos; have := ho.pos; have := hi.within.pos; have := hc.pos
    refine ⟨(hs.weaken le_rfl (by omega)).cover ⟨hc.file, by omega, hc.pos, hhi, hc.stop⟩, ?_⟩
    refine Tree.Row.append (m := span.stop.toNat) (.weaken hrow (by omega) le_rfl) (.single ⟨hi, ?_, ?_⟩) <;> omega

theorem indices_sound (hrule : SoundUnder m (Grammar.IsExpr 0) rule) {span : Span} {name : Tree} {r0 r : Reader}
    (hm : r.unread.length < m) (hn : r.unread.length < n) (his : is ≠ [] ∨ r.peek.kind = .lbracket)
    (hr : Upto r0 r (Indexed name is span)) :
    Wp (indices rule n (span, name :: is)) (fun o s => Upto r0 s (Tree? IsElement o)) r := by
  induction n generalizing span is r with
  | zero => omega
  | succ n ih =>
    simp only [indices, indicesStep, symbol, wp_steps, beq_iff_eq]
    split_ifs with hk
    · have hopen := Upto.takeOf hr.onward.ended hk (by decide)
      have hlt := length_advance hr.onward.ended (by rw [hk]; decide)
      refine (Upto.refl hopen.onward.ended).callUnder hrule (by omega) fun o s ho => ?_
      refine ho.expect (by decide) fun c s' hc => ?_
      have hall := hr.seq <| hopen.seq hc
      rcases o, c with ⟨_ | i, _ | c⟩
      · exact hall.map (by rintro _ ⟨-, -, -, ⟨⟩⟩)
      · exact hall.map (by rintro _ ⟨-, -, ⟨-, ⟨⟩⟩, -⟩)
      · exact hall.map (by rintro _ ⟨-, -, -, ⟨⟩⟩)
      · have hle := hc.onward.length
        refine ih (by omega) (by omega) (.inl (by simp)) (hall.map ?_)
        rintro _ ⟨hps, ⟨-, -⟩, ⟨rfl, _, hi⟩, -, -⟩
        exact hps.next hi
    · refine hr.fold ?_
      rintro _ ⟨⟨text, hname⟩, hall, hw, hrow⟩
      refine ⟨_, rfl, ⟨.inr rfl, ?_⟩, by rw [hw, Tree.unparse_node], fun f a b h => ?_⟩
      · rw [Tree.bare_node, List.map_cons, hname]
        refine .elem (by simpa using his.resolve_right hk) ?_
        simpa using hall
      · obtain ⟨hs, hrow⟩ := hrow f a b h
        exact ⟨⟨⟨hs.file, Nat.zero_le _, hs.pos, hs.stop, hs.stop⟩, by simp [Tree.Copies, NodeKind.isCopy], hrow⟩, hs.lo, hs.hi⟩

theorem element_sound (hrule : SoundUnder m (Grammar.IsExpr 0) rule) : SoundUnder (m + 1) IsElement (element rule) := by
  intro r hr hm
  simp only [element, wp_steps]
  have hless : Wp ident (fun o s => o.isSome → s.unread.length < r.unread.length) r := by
    simp only [ident, wp_steps, beq_iff_eq]
    split_ifs with hk
    · exact fun _ => length_advance hr (by rw [hk]; decide)
    · exact nofun
  refine (Wp.and (ident_sound r hr) hless).weaken fun o s ⟨ho, hlt⟩ => ?_
  cases o with
  | none => exact ho.noTree
  | some name =>
    simp only [wp_steps, beq_iff_eq]
    have hlt := hlt rfl
    split_ifs with hk
    · refine indices_sound hrule (by omega) (Nat.lt_succ_self _) (.inr hk) (ho.map ?_)
      rintro _ ⟨_, hname⟩
      refine ⟨hname, List.forall_mem_nil _, by simp [NodeKind.layout], fun f a b h => ?_⟩
      have hname := Tree.Row.mem h.row (.head _)
      exact ⟨hname.within, .single ⟨hname.laid, le_rfl, le_rfl⟩⟩
    · refine ho.weaken ?_
      rintro _ ⟨text, rfl⟩
      exact ⟨.inl rfl, .ident⟩

theorem literalKind_leaf {k : Kind} {n : NodeKind} (h : literalKind? k = some n) :
    k ≠ .eof ∧ k.leaf? = some n := by
  cases k <;> simp only [literalKind?, reduceCtorEq] at h <;> exact ⟨by decide, h⟩

theorem literal_sound {k : NodeKind} (hr : r.eof.kind = .eof) (hk : literalKind? r.peek.kind = some k) :
    Upto r r.advance (Tree? (Grammar.IsExpr Grammar.tightest) (some (leaf k r.peek))) := by
  obtain ⟨hne, hleaf⟩ := literalKind_leaf hk
  refine .leaf hr hne (.inl hleaf) fun hspell => ?_
  rw [Token.terminal]
  revert hk hspell
  generalize r.peek.kind = kind
  generalize r.peek.text = text
  cases kind <;> intro hk hspell <;> cases hk
  case intLit =>
    refine ⟨.int, ?_⟩
    cases text with
    | nil => rfl
    | cons c digits =>
      have hc : c ≠ '-'.toUInt8 := by
        rintro rfl
        exact absurd (List.all_eq_true.1 hspell.2 _ List.mem_cons_self) (by decide)
      exact (if_neg hc).symm
  case charLit => exact ⟨.char, rfl⟩
  case strLit => exact ⟨.str, rfl⟩
  case kwTrue =>
    obtain rfl : text = Kind.kwTrue.name := hspell
    exact ⟨.bool (k := .kwTrue) (by decide), by rw [← Kind.terminal, ← Terminal.ofText_name _ (by decide)]; rfl⟩
  case kwFalse =>
    obtain rfl : text = Kind.kwFalse.name := hspell
    exact ⟨.bool (k := .kwFalse) (by decide), by rw [← Kind.terminal, ← Terminal.ofText_name _ (by decide)]; rfl⟩
  case kwNull =>
    obtain rfl : text = Kind.kwNull.name := hspell
    exact ⟨.null, by rw [← Kind.terminal, ← Terminal.ofText_name _ (by decide)]; rfl⟩

theorem atom_sound (hrule : SoundUnder n (Grammar.IsExpr 0) rule) :
    SoundUnder (n + 1) (Grammar.IsExpr Grammar.tightest) (atom rule) := by
  intro r hr hm
  simp only [atom, symbol, wp_steps]
  cases hlit : literalKind? r.peek.kind with
  | some k =>
    simp only [wp_steps]
    exact literal_sound hr hlit
  | none =>
    simp only [wp_steps]
    split_ifs with hid hparen
    · exact Upto.weaken (element_sound hrule r hr hm) fun _ h => h.2
    · have hopen := Upto.takeOf hr hparen (by decide)
      have hlt := length_advance hr (by rw [hparen]; decide)
      refine (hrule _ hopen.onward.ended (by omega)).weaken fun o s ho => ?_
      refine (hopen.seq ho).expect (by decide) fun c s' hc => ?_
      cases c with
      | none => exact hc.noToken
      | some closing =>
        refine hc.fold ?_
        rintro _ ⟨⟨⟨-, -⟩, c, hc⟩, -, -⟩
        exact built [c] (.paren hc) (by simp [NodeKind.layout]) fun _ _ _ h => h.makeCover (by simp) (by simp) rfl
    · exact .complain hr (by simp)

theorem unary_sound (n : Nat) : SoundUnder n (Grammar.IsExpr Grammar.tightest) (unary n) := by
  induction n with
  | zero => exact fun r _ hm => absurd hm (Nat.not_lt_zero _)
  | succ n ih =>
    intro r hr hm
    simp only [unary, unaryStep, wp_steps]
    split_ifs with hneg hop
    · obtain ⟨hminus, hint⟩ := hneg
      have hsign := Upto.takeOf hr hminus (by decide)
      rw [← r.peek_advance] at hint ⊢
      have hdigits := Upto.take hsign.onward.ended (by rw [hint]; decide)
      refine (hsign.seq hdigits).fold ?_
      rintro _ ⟨⟨-, -⟩, -, rfl⟩
      -- the sign is in the text, so the tree does not copy a token
      refine built [] .int ?_ fun _ _ _ h => h.makeCover (by simp) (by simp) rfl
      simp [Token.terminal, hint]
      rfl
    · have hprefix : r.peek.kind ∈ Grammar.prefixes := by
        revert hop
        generalize r.peek.kind = k
        cases k <;> decide
      have hword := Grammar.mem_of_prefixes hprefix
      have htake := Upto.takeOf hr rfl hword
      have hlt := length_advance hr (by intro h; rw [h] at hop; cases hop)
      refine (ih _ htake.onward.ended (by omega)).weaken fun o s ho => (htake.seq ho.starts).fold ?_
      rintro _ ⟨⟨_, htext⟩, ⟨c, hc⟩, rest, hrest⟩
      have hsigned : r.peek.kind = .minus → Grammar.isUnsigned c.bare = false := by
        intro hminus
        by_contra hu
        have hdigits := hc.unparse_unsigned (by simpa using hu)
        rw [Tree.unparse_bare] at hdigits
        simp only [List.flatMap_singleton, Piece.terminals, hdigits] at hrest
        have hkind := congrArg Terminal.kind (Reader.peek_of_terminals hrest).1
        exact hneg ⟨hminus, by rw [← r.peek_advance]; exact hkind⟩
      refine built [c] ?_ ?_ fun _ _ _ h => h.make (by simp) rfl
      · rw [htext]
        exact .unary hprefix hc hsigned
      · simp [htext, NodeKind.layout, Terminal.ofText_name _ hword]
    · exact atom_sound (binary_sound (Nat.zero_le _) ih) r hr hm

theorem expr_sound : Sound (Grammar.IsExpr 0) expr := by
  intro r hr
  simp only [expr, wp_steps]
  exact binary_sound (Nat.zero_le _) (unary_sound _) r hr (Nat.lt_succ_self _)

end

/-! ## Lists -/

theorem intercalate_concat (sep : List Terminal) (parts : List (List Terminal)) (last : List Terminal) :
    List.intercalate sep (parts ++ [last]) = parts.flatMap (· ++ sep) ++ last := by
  induction parts with
  | nil => simp
  | cons p ps ih =>
    rw [List.cons_append, List.intercalate_cons_of_ne_nil (by simp), ih]
    simp

/-- The pieces are the trees, with the terminals `ws`. -/
structure Parts (P : Tree → Prop) (ts : List Tree) (ws : List Terminal) (ps : List Piece) : Prop where
  all : ∀ t ∈ ts, P t.bare
  terminals : ps.flatMap Piece.terminals = ws
  trees : ps.filterMap Piece.tree? = ts

def Ended (sep : Kind) (P : Tree → Prop) (ts : List Tree) : List Piece → Prop :=
  Parts P ts (ts.flatMap fun t => t.unparse ++ [sep.terminal])

def Listed (sep : Kind) (P : Tree → Prop) (ts : List Tree) : List Piece → Prop :=
  Parts P ts (List.intercalate [sep.terminal] (ts.map Tree.unparse))

section
variable {sep : Kind} {ts : List Tree} {t : Tree} {u v : List Piece}

theorem Parts.nil : Parts P [] [] [] := ⟨List.forall_mem_nil _, rfl, rfl⟩

theorem Parts.append {ts' : List Tree} {ws ws' : List Terminal} (h : Parts P ts ws u) (h' : Parts P ts' ws' v) :
    Parts P (ts ++ ts') (ws ++ ws') (u ++ v) :=
  ⟨List.forall_mem_append.2 ⟨h.all, h'.all⟩, by rw [List.flatMap_append, h.terminals, h'.terminals],
    by rw [List.filterMap_append, h.trees, h'.trees]⟩

theorem Parts.single (ht : P t.bare) : Parts P [t] t.unparse [.tree t] :=
  ⟨by simpa using ht, by simp, rfl⟩

theorem Parts.word {w : Terminal} {s : Span} : Parts P [] [w] [.word w s] := ⟨List.forall_mem_nil _, rfl, rfl⟩

theorem Ended.concat {s : Span} (h : Ended sep P ts u) (ht : P t.bare) :
    Ended sep P (ts ++ [t]) (u ++ ([.tree t] ++ [.word sep.terminal s])) := by
  have := Parts.append h ((Parts.single ht).append (.word (w := sep.terminal) (s := s)))
  simpa [Ended] using this

theorem Ended.last (h : Ended sep P ts u) (ht : P t.bare) : Listed sep P (ts ++ [t]) (u ++ [.tree t]) := by
  rw [Listed, List.map_append, List.map_singleton, intercalate_concat, List.flatMap_map]
  exact Parts.append h (.single ht)

end

section
variable {m : Nat} {item : Rule (Option Tree)}

def Present (Q : List Tree → List Piece → Prop) (os : List (Option Tree)) (ps : List Piece) : Prop :=
  ∃ ts, os = ts.map some ∧ Q ts ps

theorem commaList_sound {n : Nat} (hitem : SoundUnder m P item) {done : List (Option Tree)} {r0 r : Reader}
    (hm : r.unread.length < m) (hn : r.unread.length < n) (hr : Upto r0 r (Present (Ended .comma P) done)) :
    Wp (commaList item n done) (fun os s => Upto r0 s (Present (Listed .comma P) os)) r := by
  induction n generalizing done r with
  | zero => omega
  | succ n ih =>
    simp only [commaList, commaListStep, wp_steps, beq_iff_eq]
    refine (hitem r hr.onward.ended hm).weaken fun o s ho => ?_
    have hle := ho.onward.length
    split_ifs with hk
    · have hcomma := Upto.takeOf ho.onward.ended hk (by decide)
      have hlt := length_advance ho.onward.ended (by rw [hk]; decide)
      refine ih (by omega) (by omega) ((hr.seq <| ho.seq hcomma).map ?_)
      rintro _ ⟨⟨ts, rfl, hts⟩, ⟨t, ht⟩, -, -⟩
      exact ⟨ts ++ [t], by simp, hts.concat ht⟩
    · refine (hr.seq ho).map ?_
      rintro _ ⟨⟨ts, rfl, hts⟩, t, ht⟩
      exact ⟨ts ++ [t], by simp, hts.last ht⟩

theorem Upto.items {closing : Kind} (h : Upto r s Φ) (hitem : SoundUnder m P item) (hm : s.unread.length < m)
    {Q : List (Option Tree) → Reader → Prop}
    (hq : ∀ os s', Upto r s' (Both Φ (Present (Listed .comma P) os)) → Q os s') : Wp (items closing item) Q s := by
  simp only [Rule.items, wp_steps]
  have hnil {Q : List Tree → List Piece → Prop} (hQ : Q [] []) : Upto s s (Present Q []) :=
    (Upto.refl h.onward.ended).map fun _ hp => hp ▸ ⟨[], rfl, hQ⟩
  split_ifs
  · exact hq _ _ (h.seq (hnil .nil))
  · exact (commaList_sound hitem hm (Nat.lt_succ_self _) (hnil .nil)).weaken fun os s' hs => hq os s' (h.seq hs)

end

/-! ## Values -/

/-- A list between two tokens is put together in a tree. -/
theorem Upto.bracketed {k : NodeKind} {k₁ k₂ : Kind} {t₁ t₂ : Token} {os : List (Option Tree)} {Q : Tree → Prop}
    (h : Upto r s (Both (Both (Token? k₁ (some t₁)) (Present (Listed .comma P) os)) (Token? k₂ (some t₂))))
    (hk : ∀ parts, k.layout [] parts = k₁.terminal :: NodeKind.commas parts ++ [k₂.terminal])
    (hcopy : k.isCopy [] = false) (hQ : ∀ ts, (∀ t ∈ ts, P t) → Q (.node k [] {} ts)) :
    Upto r s (Tree? Q (build k [] (t₁.span.cover t₂.span) os)) := by
  refine h.fold ?_
  rintro _ ⟨⟨⟨-, -⟩, ts, rfl, hts⟩, -, -⟩
  rw [build_map]
  refine built ts (hQ _ (by simpa using hts.all)) ?_ fun f a b hrow => ?_
  · simp [hk, hts.terminals, NodeKind.commas]
  · refine .make ((hrow.mark (by simp)).cover (hrow.mark (by simp))) ?_ hcopy
    simpa [List.filterMap_cons, hts.trees] using hrow.row

theorem arrayLit_sound (hr : r.eof.kind = .eof) (hk : r.peek.kind = .lbracket) (hn : r.unread.length < n) :
    Wp (arrayLit n) (fun o s => Upto r s (Tree? Grammar.IsItem o)) r := by
  induction n generalizing r with
  | zero => omega
  | succ n ih =>
    have hitem : SoundUnder n Grammar.IsItem (do if ← isAt .lbracket then arrayLit n else expr) := by
      intro r hr hm
      simp only [wp_steps, beq_iff_eq]
      split_ifs with hk
      · exact ih hr hk hm
      · exact (Sound.weaken expr_sound fun _ => .expr) r hr
    simp only [arrayLit, arrayLitStep, symbol, wp_steps]
    have hopen := Upto.takeOf hr hk (by decide)
    have hlt := length_advance hr (by rw [hk]; decide)
    refine hopen.items hitem (by omega) fun os s hs => ?_
    refine hs.expect (by decide) fun c s' hc => ?_
    cases c with
    | none => exact hc.noToken
    | some closing => exact hc.bracketed (fun _ => rfl) rfl fun _ => .array

theorem arguments_sound :
    Sound (fun t => ∃ args, t = .node .argList [] {} args ∧ ∀ a ∈ args, Grammar.IsExpr 0 a) arguments := by
  intro r hr
  simp only [arguments, symbol, wp_steps]
  refine (Upto.refl hr).expect (by decide) fun o s1 h1 => ?_
  cases o with
  | none => exact h1.noToken
  | some opening =>
    simp only [wp_steps]
    refine h1.clear.items (Sound.under expr_sound _) (Nat.lt_succ_self _) fun os s2 h2 => ?_
    refine h2.expect (by decide) fun c s3 h3 => ?_
    cases c with
    | none => exact h3.noToken
    | some closing => exact h3.bracketed (fun _ => rfl) rfl fun ts hts => ⟨ts, rfl, hts⟩

def AtSlot (r : Reader) : Prop := r.peek.kind = .kwFst ∨ r.peek.kind = .kwSnd

theorem target_sound (hr : r.eof.kind = .eof) (hn : r.unread.length < n) :
    Wp (target n) (fun o s => Upto r s (Tree? (fun t => Grammar.IsPlace t ∧ (AtSlot r → t.kind = .pairElem)) o)) r := by
  induction n generalizing r with
  | zero => omega
  | succ n ih =>
    simp only [target, targetStep, wp_steps]
    split_ifs with hslot hid
    · have hmem : r.peek.kind ∈ [Kind.kwFst, .kwSnd] := by simpa using hslot
      have hword : r.peek.kind ∈ Kind.keywords ++ Kind.symbols := by rcases hslot with h | h <;> rw [h] <;> decide
      have htake := Upto.takeOf hr rfl hword
      have hlt := length_advance hr (by rcases hslot with h | h <;> rw [h] <;> decide)
      refine (ih htake.onward.ended (by omega)).weaken fun o s ho => (htake.seq ho).fold ?_
      rintro _ ⟨⟨_, htext⟩, c, hc⟩
      refine built [c] ?_ ?_ fun _ _ _ h => h.make (by simp) rfl
      · rw [htext]
        exact ⟨.slot hmem hc.1, fun _ => rfl⟩
      · simp [htext, NodeKind.layout, Terminal.ofText_name _ hword]
    · refine Upto.weaken (element_sound (Sound.under expr_sound n) r hr hn) ?_
      exact fun _ ⟨hk, ht⟩ => ⟨.element hk ht, fun h => absurd h hslot⟩
    · exact .complain hr (by simp)

theorem place_sound (n : Nat) : SoundUnder n Grammar.IsPlace (target n) := fun _ hr hn =>
  (target_sound hr hn).weaken fun _ _ ho => ho.weaken fun _ h => h.1

theorem value_sound : Sound Grammar.IsValue value := by
  intro r hr
  simp only [value, symbol, wp_steps]
  split
  · rename_i hk
    simp only [wp_steps]
    exact (arrayLit_sound hr hk (Nat.lt_succ_self _)).weaken fun o s ho => ho.weaken fun _ => .item
  · rename_i hk
    simp only [wp_steps]
    have hword := Upto.takeOf hr hk (by decide)
    refine hword.expect (by decide) fun op s1 h1 => ?_
    cases op with
    | none => exact h1.noToken
    | some _ =>
      simp only [wp_steps]
      refine h1.call expr_sound fun a s2 h2 => ?_
      refine h2.expect (by decide) fun c s3 h3 => ?_
      refine h3.call expr_sound fun b s4 h4 => ?_
      refine h4.expect (by decide) fun cl s5 h5 => h5.fold ?_
      rintro _ ⟨⟨⟨⟨⟨⟨-, -⟩, -, -⟩, a, ha⟩, -, -⟩, b, hb⟩, -, -⟩
      exact built [a, b] (.newPair ha hb) (by simp [NodeKind.layout])
        fun _ _ _ h => h.makeCover (by simp) (by simp) rfl
  · rename_i hk
    simp only [wp_steps]
    refine (target_sound hr (Nat.lt_succ_self _)).weaken fun o s ho => ho.weaken ?_
    exact fun _ h => .slot (h.2 (.inl hk)) h.1
  · rename_i hk
    simp only [wp_steps]
    refine (target_sound hr (Nat.lt_succ_self _)).weaken fun o s ho => ho.weaken ?_
    exact fun _ h => .slot (h.2 (.inr hk)) h.1
  · rename_i hk
    simp only [wp_steps]
    have hword := Upto.takeOf hr hk (by decide)
    refine hword.call ident_sound fun name s1 h1 => ?_
    refine h1.call arguments_sound fun args s2 h2 => h2.fold ?_
    rintro _ ⟨⟨⟨-, -⟩, name, text, hname⟩, args, as, hargs, has⟩
    refine built [name, args] ?_ (by simp [NodeKind.layout]) fun _ _ _ h => h.make (by simp) rfl
    rw [List.map_cons, List.map_singleton, hname, hargs]
    exact .call has
  · exact (Sound.weaken expr_sound fun _ h => .item (.expr h)) r hr

end Rule

end Wacc
