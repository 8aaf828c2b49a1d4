/-
  Spans of trees.

  The tree of a file keeps its span rules: every node has at least one byte of the file, its children
  lie inside it and stand one behind the other, and a node for a single token copies that token.
-/
import Wacc.Proofs.Tree.Shape
import Wacc.Tree.Program
import Wacc.Tree.Spans

namespace Wacc

variable {f : File} {s s' : Span} {a b a' b' : Nat}

/-! ## Spans -/

structure File.Holds (f : File) (s : Span) : Prop where
  file : s.file = f.id
  le : s.start.toNat ≤ s.stop.toNat
  stop : s.stop.toNat ≤ f.content.length

theorem File.Holds.atStop (h : f.Holds s) : f.Holds s.atStop := ⟨h.file, le_rfl, h.stop⟩

/-- The span is a part of the file with at least one byte, from `a` up to `b` at most. -/
structure Within (f : File) (a b : Nat) (s : Span) : Prop where
  file : s.file = f.id
  lo : a ≤ s.start.toNat
  pos : s.start.toNat < s.stop.toNat
  hi : s.stop.toNat ≤ b
  stop : s.stop.toNat ≤ f.content.length

theorem Within.holds (h : Within f a b s) : f.Holds s := ⟨h.file, h.pos.le, h.stop⟩

theorem Within.weaken (h : Within f a b s) (ha : a' ≤ a) (hb : b ≤ b') : Within f a' b' s :=
  ⟨h.file, ha.trans h.lo, h.pos, h.hi.trans hb, h.stop⟩

theorem Within.not_empty (h : Within f a b s) : s.empty = false := by
  have := h.pos
  rw [Span.empty, beq_eq_false_iff_ne]
  intro he
  rw [he] at this
  omega

theorem toNat_cover (hf : s.file = s'.file) :
    (s.cover s').file = s.file ∧ (s.cover s').start.toNat = min s'.start.toNat s.start.toNat ∧
      (s.cover s').stop.toNat = max s'.stop.toNat s.stop.toNat := by
  rw [Span.cover, if_neg (not_not.2 hf)]
  refine ⟨rfl, ?_, ?_⟩ <;> dsimp only <;> split_ifs with hlt <;> rw [UInt32.lt_iff_toNat_lt] at hlt <;> omega

theorem Within.cover (h : Within f a b s) (h' : Within f a b s') : Within f a b (s.cover s') := by
  obtain ⟨hfile, hstart, hstop⟩ := toNat_cover (h.file.trans h'.file.symm)
  have := h.lo; have := h.pos; have := h.hi; have := h.stop
  have := h'.lo; have := h'.pos; have := h'.hi; have := h'.stop
  refine ⟨hfile.trans h.file, ?_, ?_, ?_, ?_⟩ <;> omega

theorem contains_iff {t : Span} : s.contains t = true ↔
    s.file = t.file ∧ s.start.toNat ≤ t.start.toNat ∧ t.stop.toNat ≤ s.stop.toNat := by
  simp only [Span.contains, Bool.and_eq_true, beq_iff_eq, decide_eq_true_eq, UInt32.le_iff_toNat_le,
    and_assoc]

/-! ## Trees -/

def Kind.leaf? (k : Kind) : Option NodeKind :=
  if k = .ident then some .ident else if k.isBaseType then some .baseType else Rule.literalKind? k

/-- Trees that stand for a single token: names, base types and literals, but no integer with a minus
    sign. -/
def NodeKind.isCopy (k : NodeKind) (text : Text) : Bool :=
  match k with
  | .ident | .baseType | .boolLit | .charLit | .strLit | .pairLit => true
  | .intLit => text.head? != some '-'.toUInt8
  | _ => false

namespace Tree

/-- A tree of this kind, text and span copies a token of the file, if it stands for one. -/
def Copies (f : File) (k : NodeKind) (text : Text) (s : Span) : Prop :=
  k.isCopy text = true → ∃ t ∈ Scan.tokens f.id f.content, t.kind.leaf? = some k ∧ t.text = text ∧
    t.span = s ∧ t.text = f.slice t.span.start t.span.stop

mutual

def Laid (f : File) : Tree → Prop
  | .missing => False
  | .node k text s cs => Within f 0 f.content.length s ∧ Copies f k text s ∧
      Row f s.start.toNat s.stop.toNat cs

/-- The trees keep the span rules and stand one behind the other, from `a` up to `b` at most. -/
def Row (f : File) (a b : Nat) : List Tree → Prop
  | [] => a ≤ b
  | c :: cs => Laid f c ∧ a ≤ c.span.start.toNat ∧ Row f c.span.stop.toNat b cs

end

structure Stands (f : File) (a b : Nat) (t : Tree) : Prop where
  laid : t.Laid f
  lo : a ≤ t.span.start.toNat
  hi : t.span.stop.toNat ≤ b

variable {t c : Tree} {cs : List Tree} {k : NodeKind} {text : Text}

theorem Laid.within (h : t.Laid f) : Within f 0 f.content.length t.span := by
  cases t with
  | missing => exact h.elim
  | node => exact h.1

theorem Stands.within (h : t.Stands f a b) : Within f a b t.span :=
  ⟨h.laid.within.file, h.lo, h.laid.within.pos, h.hi, h.laid.within.stop⟩

theorem Stands.weaken (h : t.Stands f a b) (ha : a' ≤ a) (hb : b ≤ b') : t.Stands f a' b' :=
  ⟨h.laid, ha.trans h.lo, h.hi.trans hb⟩

theorem Row.le (h : Row f a b cs) : a ≤ b := by
  induction cs generalizing a with
  | nil => exact h
  | cons c cs ih =>
    obtain ⟨hc, ha, hr⟩ := h
    have := ih hr
    have := hc.within.pos
    omega

theorem Row.mem (h : Row f a b cs) (hc : c ∈ cs) : c.Stands f a b := by
  induction cs generalizing a with
  | nil => cases hc
  | cons d cs ih =>
    obtain ⟨hd, ha, hr⟩ := h
    obtain rfl | hc := List.mem_cons.1 hc
    · exact ⟨hd, ha, Row.le hr⟩
    · have := hd.within.pos
      exact (ih hr hc).weaken (by omega) le_rfl

theorem Row.pairwise (h : Row f a b cs) : cs.Pairwise fun c d => c.span.stop ≤ d.span.start := by
  induction cs generalizing a with
  | nil => exact .nil
  | cons c cs ih =>
    obtain ⟨-, -, hr⟩ := h
    exact .cons (fun d hd => UInt32.le_iff_toNat_le.2 (Row.mem hr hd).lo) (ih hr)

theorem Row.rebound (h : Row f a b cs) (ha : ∀ c ∈ cs, a' ≤ c.span.start.toNat)
    (hb : ∀ c ∈ cs, c.span.stop.toNat ≤ b') (hle : a' ≤ b') : Row f a' b' cs := by
  induction cs generalizing a a' with
  | nil => exact hle
  | cons c cs ih =>
    obtain ⟨hc, -, hr⟩ := h
    refine ⟨hc, ha c List.mem_cons_self, ih hr (fun d hd => (Row.mem hr hd).lo)
      (fun d hd => hb d (List.mem_cons_of_mem c hd)) (hb c List.mem_cons_self)⟩

theorem Row.weaken (h : Row f a b cs) (ha : a' ≤ a) (hb : b ≤ b') : Row f a' b' cs :=
  Row.rebound h (fun _ hc => ha.trans (Row.mem h hc).lo) (fun _ hc => (Row.mem h hc).hi.trans hb)
    (ha.trans ((Row.le h).trans hb))

theorem Row.single (h : t.Stands f a b) : Row f a b [t] := ⟨h.laid, h.lo, h.hi⟩

theorem Row.append {ds : List Tree} {m : Nat} (h : Row f a m cs) (hd : Row f m b ds) :
    Row f a b (cs ++ ds) := by
  induction cs generalizing a with
  | nil => exact Row.weaken hd h le_rfl
  | cons c cs ih =>
    obtain ⟨hc, ha, hr⟩ := h
    exact ⟨hc, ha, ih hr⟩

/-! ## Making nodes -/

theorem widen_within (hs : Within f a b s) (hcs : ∀ c ∈ cs, c.Stands f a b) :
    Within f a b (cs.foldl widen s) ∧
      (cs.foldl widen s).start.toNat ≤ s.start.toNat ∧ s.stop.toNat ≤ (cs.foldl widen s).stop.toNat ∧
      ∀ c ∈ cs, (cs.foldl widen s).start.toNat ≤ c.span.start.toNat ∧
        c.span.stop.toNat ≤ (cs.foldl widen s).stop.toNat := by
  induction cs generalizing s with
  | nil => exact ⟨hs, le_rfl, le_rfl, by simp⟩
  | cons c cs ih =>
    have hc := (hcs c List.mem_cons_self).within
    have hwiden : widen s c = s.cover c.span := by
      cases c with
      | missing => exact ((hcs _ List.mem_cons_self).laid).elim
      | node => exact if_neg (by rw [hs.not_empty]; simp)
    obtain ⟨-, hstart, hstop⟩ := toNat_cover (hs.file.trans hc.file.symm)
    obtain ⟨hw, hlo, hhi, hall⟩ := ih (hs.cover hc) fun d hd => hcs d (List.mem_cons_of_mem c hd)
    rw [List.foldl_cons, hwiden]
    refine ⟨hw, by omega, by omega, List.forall_mem_cons.2 ⟨⟨by omega, by omega⟩, hall⟩⟩

theorem Stands.ofRow {own : Span} (hcs : Row f a b cs) (hcopy : k.isCopy text = false)
    (hw : Within f a b own) (hall : ∀ c ∈ cs, own.start.toNat ≤ c.span.start.toNat ∧
      c.span.stop.toNat ≤ own.stop.toNat) : (node k text own cs).Stands f a b := by
  refine ⟨⟨⟨hw.file, Nat.zero_le _, hw.pos, hw.stop, hw.stop⟩, by simp [Copies, hcopy], ?_⟩, hw.lo, hw.hi⟩
  exact Row.rebound hcs (fun c hc => (hall c hc).1) (fun c hc => (hall c hc).2) hw.pos.le

theorem Stands.make (hs : Within f a b s) (hcs : Row f a b cs) (hcopy : k.isCopy text = false) :
    (make k text s cs).Stands f a b := by
  obtain ⟨hw, -, -, hall⟩ := widen_within hs fun c hc => Row.mem hcs hc
  exact .ofRow hcs hcopy hw hall

theorem Stands.gather (hcs : Row f a b cs) (hne : cs ≠ []) (hcopy : k.isCopy text = false) :
    (Tree.make k text {} cs).Stands f a b := by
  obtain ⟨c, cs, rfl⟩ := List.exists_cons_of_ne_nil hne
  have hc := (Row.mem hcs List.mem_cons_self).within
  have hwiden : widen {} c = c.span := by
    cases c with
    | missing => exact hcs.1.elim
    | node => rfl
  obtain ⟨hw, hlo, hhi, hall⟩ := widen_within hc fun d hd => Row.mem hcs (List.mem_cons_of_mem c hd)
  have hspan : (c :: cs).foldl widen {} = cs.foldl widen c.span := by rw [List.foldl_cons, hwiden]
  rw [Tree.make, hspan]
  exact .ofRow hcs hcopy hw (List.forall_mem_cons.2 ⟨⟨hlo, hhi⟩, hall⟩)

/-! ## The rules at every node -/

mutual

theorem Laid.preorder : ∀ {t : Tree}, t.Laid f → ∀ n ∈ t.preorder, n.Laid f
  | .missing, h => h.elim
  | .node _ _ _ _, h => List.forall_mem_cons.2 ⟨h, Row.preorderAll h.2.2⟩

theorem Row.preorderAll : ∀ {cs : List Tree} {a b : Nat}, Row f a b cs →
    ∀ n ∈ Tree.preorderAll cs, n.Laid f
  | [], _, _, _ => by simp [Tree.preorderAll]
  | c :: cs, _, _, h => List.forall_mem_append.2 ⟨Laid.preorder h.1, Row.preorderAll h.2.2⟩

end

mutual

theorem Laid.nodeDefect? : ∀ {t : Tree}, t.Laid f → t.nodeDefect? f.id = none
  | .missing, _ => rfl
  | .node k text s cs, h => by
    rw [Tree.nodeDefect?, if_neg (not_not.2 h.1.file)]
    exact Row.childDefect? h.1.file h.2.2

theorem Row.childDefect? : ∀ {cs : List Tree} {k : NodeKind} {s : Span}, s.file = f.id →
    Row f s.start.toNat s.stop.toNat cs → childDefect? f.id k s cs = none
  | [], _, _, _, _ => rfl
  | .missing :: _, _, _, _, h => h.1.elim
  | .node ck text c ccs :: cs, k, s, hs, h => by
    have hin := Row.mem h List.mem_cons_self
    have hcontains : s.contains c = true :=
      contains_iff.2 ⟨hs.trans h.1.within.file.symm, hin.lo, hin.hi⟩
    rw [Tree.childDefect?, hcontains, Laid.nodeDefect? h.1]
    exact Row.childDefect? hs (Row.weaken h.2.2 (hin.lo.trans hin.within.pos.le) le_rfl)

end

theorem Laid.spanDefect?_eq_none (h : t.Laid f) (hlen : f.content.length < 2 ^ 32) :
    t.spanDefect? (some f) = none := by
  cases t with
  | missing => exact h.elim
  | node k text s cs =>
    have hsize : f.content.length.toUInt32.toNat = f.content.length := UInt32.toNat_ofNat_of_lt' hlen
    have := h.1.pos
    have := h.1.stop
    rw [spanDefect?, if_neg, if_neg]
    · exact h.nodeDefect?
    · rw [UInt32.lt_iff_toNat_lt]; omega
    · rw [UInt32.le_iff_toNat_le]; omega

end Tree

end Wacc
