/-
  What the rules read stands in the file.

  A rule takes tokens from a reader.  The unread tokens of a file stand one behind the other, so the
  start of the next one is where the reader stands, and a rule only moves it on.  A type that a rule
  gives stands between the places before and after the rule, also when the rule has reported problems:
  one of them may be that the type is not allowed there.
-/
import Wacc.Proofs.Tree.Spans
import Wacc.Proofs.Tree.Reading
import Wacc.Proofs.Token.Lossless

namespace Wacc

variable {f : File} {a b : Nat}

/-! ## Tokens of a file -/

structure File.Reads (f : File) (t : Token) : Prop where
  mem : t ∈ Scan.tokens f.id f.content
  within : Within f 0 f.content.length t.span
  text : t.text = f.slice t.span.start t.span.stop

theorem Scan.tokens_reads (hlen : f.content.length < 2 ^ 32) : ∃ ts,
    Scan.tokens f.id f.content =
      ts ++ [⟨.eof, ⟨f.id, f.content.length.toUInt32, f.content.length.toUInt32⟩, []⟩] ∧
    (∀ t ∈ ts, f.Reads t) ∧ ts.Pairwise fun t u => t.span.stop.toNat ≤ u.span.start.toNat := by
  have hcovers : Covers f.id f.content 0 (steps f.id 0 f.content) := steps_covers _ _ (Nat.zero_le _)
  obtain ⟨rs, e, hsteps, he, -, hkinds, hpair⟩ := hcovers.ordered hlen
  refine ⟨rs.map (·.token), by rw [tokens, hsteps, List.map_append, List.map_singleton, he], ?_, ?_⟩
  · intro t ht
    obtain ⟨r, hr, rfl⟩ := List.mem_map.1 ht
    have hmem : r ∈ steps f.id 0 f.content := hsteps ▸ List.mem_append_left _ hr
    obtain ⟨a, b, -, hab, hb, htoken, -⟩ := hcovers.mem hmem (hkinds r hr)
    have ha' := toNat_offset hlen (hab.le.trans hb)
    have hb' := toNat_offset hlen hb
    refine ⟨List.mem_map_of_mem hmem, ?_, ?_⟩ <;> rw [htoken]
    · refine ⟨rfl, Nat.zero_le _, ?_, ?_, ?_⟩ <;> simp only [ha', hb'] <;> assumption
    · simp only [slice, File.slice, ha', hb']
  · exact List.pairwise_map.2 (hpair.imp fun h => UInt32.le_iff_toNat_le.1 h)

structure Diagnostic.Points (f : File) (d : Diagnostic) : Prop where
  span : f.Holds d.span
  notes : ∀ n ∈ d.notes, f.Holds n.span

theorem Diagnostic.Points.error {c : Code} {s : Span} {m : Text} (h : f.Holds s) :
    (Diagnostic.error c s m).Points f := ⟨h, by simp [Diagnostic.error]⟩

/-! ## Readers -/

namespace Reader

def here (r : Reader) : Nat := r.peek.span.start.toNat

structure On (f : File) (r : Reader) : Prop where
  unread : ∀ t ∈ r.unread, f.Reads t
  ordered : r.unread.Pairwise fun t u => t.span.stop.toNat ≤ u.span.start.toNat
  eof : r.eof.kind = .eof
  stop : r.eof.span.start.toNat = f.content.length
  last : f.Holds r.last
  problems : ∀ d ∈ r.problems, d.IsA .syntactic ∧ d.Points f

structure Ahead (f : File) (r r' : Reader) : Prop where
  on : r'.On f
  le : r.here ≤ r'.here

variable {r r' s : Reader} {last : Span}

theorem Ahead.refl (h : r.On f) : Ahead f r r := ⟨h, le_rfl⟩

theorem Ahead.trans (h : Ahead f r r') (h' : Ahead f r' s) : Ahead f r s := ⟨h'.on, h.le.trans h'.le⟩

theorem On.place (h : r.On f) : f.Holds r.place := by
  unfold Reader.place
  split
  · exact h.last.atStop
  · rename_i t rest hu
    exact (h.unread t (by simp [hu])).within.holds

theorem On.report {sp : Span} {e : SyntaxFault} (h : r.On f) (hs : f.Holds sp)
    (he : ∀ c k t, e = .expected c k t → c.category = .syntactic) : Ahead f r (r.report sp e) := by
  have hcode : e.code.category = .syntactic := by
    cases e with
    | expected c k t => exact he c k t rfl
    | _ => dsimp only [SyntaxFault.code]; decide
  exact ⟨⟨h.unread, h.ordered, h.eof, h.stop, h.last,
    List.forall_mem_cons.2 ⟨⟨⟨rfl, hcode⟩, .error hs⟩, h.problems⟩⟩, le_rfl⟩

theorem On.here_le (h : r.On f) (hu : s.unread <:+ r.unread) (he : s.eof = r.eof) : r.here ≤ s.here := by
  obtain ⟨dropped, hd⟩ := hu
  cases dropped with
  | nil => simp [here, peek, peekAt, ← hd, he]
  | cons t dropped =>
    have ht := (h.unread t (by simp [← hd])).within
    have hpos := ht.pos
    have hstop := ht.stop
    have hord := h.ordered
    rw [← hd, List.cons_append, List.pairwise_cons] at hord
    cases hs : s.unread with
    | nil => simp [here, peek, peekAt, ← hd, hs, he, h.stop]; omega
    | cons u us =>
      have := hord.1 u (by simp [hs])
      simp [here, peek, peekAt, ← hd, hs]; omega

theorem On.drop {us : List Token} (h : r.On f) (hu : us <:+ r.unread) (hl : f.Holds last) :
    Ahead f r { r with unread := us, last } :=
  ⟨⟨fun t ht => h.unread t (hu.subset ht), h.ordered.sublist hu.sublist, h.eof, h.stop, hl, h.problems⟩,
    h.here_le hu rfl⟩

theorem On.advance (h : r.On f) : Ahead f r r.advance := by
  unfold Reader.advance
  split
  · exact .refl h
  · rename_i t rest hu
    exact h.drop (hu ▸ List.suffix_cons t rest) (h.unread t (by simp [hu])).within.holds

theorem unread_of_peek (h : r.On f) (hk : r.peek.kind ≠ .eof) : r.unread = r.peek :: r.advance.unread := by
  have he := h.eof
  unfold Reader.peek Reader.peekAt Reader.advance at *
  cases hu : r.unread with
  | nil => simp [hu, he] at hk
  | cons t rest => simp

theorem On.take (h : r.On f) (hk : r.peek.kind ≠ .eof) :
    Ahead f r r.advance ∧ f.Reads r.peek ∧ Within f r.here r.advance.here r.peek.span := by
  have hu := unread_of_peek h hk
  have ht := h.unread r.peek (by rw [hu]; exact List.mem_cons_self)
  refine ⟨h.advance, ht, ht.within.file, le_rfl, ht.within.pos, ?_, ht.within.stop⟩
  have hord := h.ordered
  rw [hu, List.pairwise_cons] at hord
  have hstop : r.advance.eof.span.start.toNat = f.content.length := h.advance.on.stop
  show _ ≤ ((r.advance.unread[0]?).getD r.advance.eof).span.start.toNat
  cases hr : r.advance.unread with
  | nil => simpa [hstop] using ht.within.stop
  | cons u us => simpa using hord.1 u (by simp [hr])

theorem peekAt_one (h : r.On f) (hk : r.peek.kind ≠ .eof) : r.peekAt 1 = r.advance.peek := by
  have hu := unread_of_peek h hk
  have he : r.advance.eof = r.eof := by unfold Reader.advance; split <;> rfl
  rw [Reader.peek, Reader.peekAt, Reader.peekAt, he]
  rw [hu]
  rfl

theorem skipToBorder_holds {ts : List Token} (hl : f.Holds last) (hts : ∀ t ∈ ts, f.Reads t) :
    f.Holds (skipToBorder last ts).1 := by
  induction ts generalizing last with
  | nil => exact hl
  | cons t rest ih =>
    obtain ⟨ht, hrest⟩ := List.forall_mem_cons.1 hts
    rw [skipToBorder]
    split_ifs
    · exact hl
    · exact ih ht.within.holds hrest

end Reader

namespace Rule

open Reader (Ahead On)

/-! ## Places of trees -/

/-- The outcome of a rule that may give a tree: the tree stands where the rule took tokens. -/
structure Placed (f : File) (r : Reader) (o : Option Tree) (r' : Reader) : Prop where
  ahead : Ahead f r r'
  tree : ∀ t, o = some t → t.Stands f r.here r'.here

def Places (f : File) (x : Rule (Option Tree)) : Prop := ∀ r : Reader, r.On f → Wp x (Placed f r) r

def PlacesInside (f : File) (x : Rule (Option Tree)) : Prop :=
  ∀ r : Reader, r.On f → r.peek.kind ≠ .eof → Wp x (Placed f r) r

/-- Pieces that may have failed; if all are there, they stand one behind the other. -/
def Pieces (f : File) (a b : Nat) (parts : List (Option Tree)) : Prop :=
  ∀ cs, parts = cs.map some → Tree.Row f a b cs

section
variable {r r' s : Reader} {o : Option Tree} {k : NodeKind} {text : Text} {sp : Span}
  {parts : List (Option Tree)}

theorem Placed.none (h : Ahead f r r') : Placed f r none r' := ⟨h, fun _ h => nomatch h⟩

theorem Placed.some {t : Tree} (h : Ahead f r r') (ht : t.Stands f r.here r'.here) :
    Placed f r (some t) r' := ⟨h, fun _ e => Option.some.inj e ▸ ht⟩

variable {Q : Option Token → Reader → Prop} {x : Rule (Option Tree)}

theorem places_call (h : Places f x) (hr : r.On f) {Q : Option Tree → Reader → Prop}
    (hq : ∀ o s, Placed f r o s → Q o s) : Wp x Q r :=
  (h r hr).weaken hq

theorem inside_call (h : PlacesInside f x) (hr : r.On f) (hk : r.peek.kind ≠ .eof) {Q : Option Tree → Reader → Prop}
    (hq : ∀ o s, Placed f r o s → Q o s) :
    Wp x Q r := (h r hr hk).weaken hq

theorem Pieces.nil (h : a ≤ b) : Pieces f a b [] := fun cs hcs => by
  obtain rfl := List.map_eq_nil_iff.1 hcs.symm
  exact h

theorem Pieces.cons (h : Placed f r o r') (ha : a ≤ r.here) (hp : Pieces f r'.here b parts) :
    Pieces f a b (o :: parts) := fun cs hcs => by
  obtain ⟨c, cs, rfl, hc, hcs⟩ := List.map_eq_cons_iff.1 hcs.symm
  have ht := h.tree c hc.symm
  exact ⟨ht.laid, ha.trans ht.lo, Tree.Row.weaken (hp cs hcs.symm) ht.hi le_rfl⟩

theorem Placed.ofBuild (hk : k.isCopy text = false) (h : Ahead f r r') (hs : Within f r.here r'.here sp)
    (hp : Pieces f r.here r'.here parts) : Placed f r (build k text sp parts) r' := by
  refine ⟨h, fun t e => ?_⟩
  obtain ⟨cs, hcs, rfl⟩ := build_some e
  exact .make hs (hp cs hcs) hk

theorem places_expect {k : Kind} {c : Code} (hr : r.On f) (he : k ≠ .eof) (hc : c.category = .syntactic) (hsome : ∀ t
      s, Ahead f r s → Within f r.here s.here t.span → Q (Option.some t) s)
    (hnone : ∀ s, Ahead f r s → Q Option.none s) : Wp (expect k c) Q r := by
  simp only [expect, wp_steps, beq_iff_eq]
  split_ifs with hk
  · obtain ⟨hl, -, hw⟩ := hr.take (hk ▸ he)
    exact hsome _ _ hl hw
  · exact hnone _ (hr.report hr.place fun _ _ _ h => by cases h; exact hc)

theorem places_ask {k : Kind} {c : Code} (hr : r.On f) (he : k ≠ .eof) (hc : c.category = .syntactic) (h : ∀ o s,
      Ahead f r s → (∀ t : Token, o = Option.some t → Within f r.here s.here t.span) → Q o s) : Wp (expect k c) Q r :=
  places_expect hr he hc (fun _ s hs hw => h _ s hs fun _ e => Option.some.inj e ▸ hw)
    (fun s hs => h _ s hs fun _ e => nomatch e)

theorem leaf_stands {t : Token} (ht : f.Reads t) (hw : Within f a b t.span)
    (hk : t.kind.leaf? = Option.some k ∨ k.isCopy t.text = false) : (leaf k t).Stands f a b := by
  refine ⟨⟨ht.within, fun hcopy => ?_, ht.within.pos.le⟩, hw.lo, hw.hi⟩
  rcases hk with hk | hk
  · exact ⟨t, ht.mem, hk, rfl, rfl, ht.text⟩
  · rw [hk] at hcopy; cases hcopy

end

/-! ## Types -/

theorem baseType_places : Places f baseType := by
  intro r hr
  simp only [baseType, wp_steps]
  split_ifs with hk
  · have hne : r.peek.kind ≠ .eof := by intro he; rw [he] at hk; cases hk
    have hident : r.peek.kind ≠ .ident := by intro he; rw [he] at hk; cases hk
    obtain ⟨hl, ht, hw⟩ := hr.take hne
    exact .some hl (leaf_stands ht hw (.inl (by rw [Kind.leaf?, if_neg hident, if_pos hk])))
  · exact .none (hr.report hr.place (by simp))

theorem dimensions_places {n : Nat} {t : Tree} {r0 r : Reader} (h : Placed f r0 (some t) r) :
    Wp (dimensions n t) (fun t' => Placed f r0 (some t')) r := by
  induction n generalizing t r with
  | zero => exact h
  | succ n ih =>
    simp only [dimensions, dimensionsStep, wp_steps]
    split_ifs with hk
    · have hne : r.peek.kind ≠ .eof := by rw [Reader.peek, hk.1]; decide
      obtain ⟨hl, -, -⟩ := h.ahead.on.take hne
      have hclosing : r.advance.peek.kind ≠ .eof := by
        rw [← Reader.peekAt_one h.ahead.on hne, hk.2]; decide
      obtain ⟨hl', -, hw⟩ := hl.on.take hclosing
      have ht := h.tree t rfl
      refine ih (.some (h.ahead.trans (hl.trans hl')) (.make ?_ (.single (ht.weaken le_rfl ?_)) rfl))
      · exact hw.weaken (h.ahead.le.trans hl.le) le_rfl
      · exact hl.le.trans hl'.le
    · exact h

theorem withDimensions_places {o : Option Tree} {r0 r : Reader} (h : Placed f r0 o r) :
    Wp (withDimensions o) (Placed f r0) r := by
  cases o with
  | none => exact h
  | some t =>
    simp only [withDimensions, wp_steps]
    exact dimensions_places h

theorem slotType_places {pair : Rule (Option Tree)} (hp : PlacesInside f pair) :
    Places f (slotType pair) := by
  intro r hr
  simp only [slotType, wp_steps]
  split_ifs with h0 h1
  · exact places_call baseType_places hr fun o s ho => withDimensions_places ho
  · have hk : r.peek.kind = .kwPair := not_not.1 h0
    obtain ⟨hl, ht, hw⟩ := hr.take (by rw [hk]; decide)
    exact withDimensions_places (.some hl (leaf_stands ht hw (.inr rfl)))
  · have hk : r.peek.kind = .kwPair := not_not.1 h0
    refine inside_call hp hr (by rw [hk]; decide) fun o s ho => ?_
    cases o with
    | none => exact ho
    | some t =>
      simp only [wp_steps]
      split_ifs
      · exact withDimensions_places ho
      · exact .none (ho.ahead.trans (ho.ahead.on.report (ho.tree t rfl).within.holds (by simp)))

theorem pairType_places (n : Nat) : PlacesInside f (pairType n) := by
  induction n with
  | zero => exact fun r hr _ => .none (.refl hr)
  | succ n ih =>
    intro r hr hk
    obtain ⟨hl, -, hw⟩ := hr.take hk
    simp only [pairType, pairTypeStep, symbol, wp_steps]
    refine places_expect hl.on (by decide) rfl (fun _ s1 h1 _ => ?_) fun s hs => .none (hl.trans hs)
    simp only [wp_steps]
    refine places_call (slotType_places ih) h1.on fun a s2 h2 => ?_
    refine places_ask h2.ahead.on (by decide) rfl fun _ s3 h3 _ => ?_
    refine places_call (slotType_places ih) h3.on fun b s4 h4 => ?_
    have hl4 := h1.trans <| h2.ahead.trans <| h3.trans h4.ahead
    refine places_expect h4.ahead.on (by decide) rfl (fun _ s5 h5 hw5 => ?_)
      fun s hs => .none (hl.trans (hl4.trans hs))
    simp only [wp_steps]
    refine .ofBuild rfl (hl.trans (hl4.trans h5)) ?_
      (.cons h2 (hl.trans h1).le (.cons h4 h3.le (.nil h5.le)))
    exact (hw.weaken le_rfl (hl4.trans h5).le).cover (hw5.weaken (hl.trans hl4).le le_rfl)

end Rule

end Wacc
