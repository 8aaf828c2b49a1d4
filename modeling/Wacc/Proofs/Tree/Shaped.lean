/-
  Trees of the grammar have their shapes.

  The tree of a file without problems is in the grammar, and its terminals are spelled as their kinds ask.
  So it has the shape of a program, and the bytes of the file pay for its weight.
-/
import Wacc.Proofs.Tree.CompleteProgram

namespace Wacc

/-! ## Bytes of terminals -/

def Kind.room : Kind → Nat
  | .eof => 0
  | .kwInt | .kwBool | .kwChar | .kwString | .kwPair => 3
  | _ => 1

theorem Kind.Spells.room_le {k : Kind} {t : Text} (h : k.Spells t) : k.room ≤ t.length := by
  cases k <;> simp only [Kind.Spells] at h <;> try (subst h; decide)
  case ident => cases t <;> simp_all [IsName, Kind.room]
  case intLit => exact List.length_pos_iff.2 h.1
  case charLit =>
    obtain ⟨c, hc⟩ := h
    cases t <;> simp_all [Literal.char, Literal.body?, Kind.room]
  case strLit =>
    obtain ⟨c, hc⟩ := h
    cases t <;> simp_all [Literal.string, Literal.body?, Kind.room]

namespace Terminal

def rooms (ws : List Terminal) : Nat := (ws.map (·.kind.room)).sum

def Spelled (ws : List Terminal) : Prop := ∀ w ∈ ws, w.kind.Spells w.text

section
variable (w : Terminal) (ws vs : List Terminal) (text : Text)

@[simp] theorem rooms_nil : rooms [] = 0 := rfl

@[simp] theorem rooms_cons : rooms (w :: ws) = w.kind.room + rooms ws := by simp [rooms]

@[simp] theorem rooms_append : rooms (ws ++ vs) = rooms ws + rooms vs := by simp [rooms]

@[simp] theorem rooms_flatten (parts : List (List Terminal)) : rooms parts.flatten = (parts.map rooms).sum := by
  induction parts with
  | nil => rfl
  | cons p parts ih => simp [ih]

@[simp] theorem spelled_cons : Spelled (w :: ws) ↔ w.kind.Spells w.text ∧ Spelled ws := List.forall_mem_cons

@[simp] theorem spelled_append : Spelled (ws ++ vs) ↔ Spelled ws ∧ Spelled vs := List.forall_mem_append

theorem room_ofText : 1 ≤ (ofText text).kind.room := by
  have hroom : ∀ k ∈ Kind.keywords ++ Kind.symbols, 1 ≤ k.room := by decide
  rw [ofText]
  cases h : (Kind.keywords ++ Kind.symbols).find? (·.name == text) with
  | none => exact le_rfl
  | some k => exact hroom k (List.mem_of_find?_eq_some h)

theorem rooms_intercalate (sep : List Terminal) (parts : List (List Terminal)) :
    rooms (List.intercalate sep parts) = (parts.map rooms).sum + (parts.length - 1) * rooms sep := by
  induction parts with
  | nil => simp [List.intercalate]
  | cons p parts ih =>
    cases parts with
    | nil => simp [List.intercalate]
    | cons q parts =>
      rw [List.intercalate_cons_cons, rooms_append, rooms_append, ih]
      simp only [List.map_cons, List.sum_cons, List.length_cons]
      have : parts.length + 1 + 1 - 1 = parts.length + 1 - 1 + 1 := by omega
      rw [this, Nat.add_mul]
      omega

end

theorem Spelled.mono {ws vs : List Terminal} (h : Spelled ws) (hv : ∀ w ∈ vs, w ∈ ws) : Spelled vs :=
  fun w hw => h w (hv w hw)

theorem Spelled.rooms_le {ws : List Terminal} (h : Spelled ws) :
    rooms ws ≤ (ws.map (·.text.length)).sum := by
  induction ws with
  | nil => exact le_rfl
  | cons w ws ih =>
    obtain ⟨hw, hws⟩ := (spelled_cons w ws).1 h
    simpa using Nat.add_le_add hw.room_le (ih hws)

end Terminal

namespace Grammar

open Terminal (rooms rooms_intercalate room_ofText)

/-! ## Weights -/

variable {n : Nat} {cs : List Tree} {slot : Bool} {many : Bool}

theorem weights_le (h : ∀ c ∈ cs, c.weight ≤ rooms c.unparse) :
    Tree.weights cs ≤ (cs.map (rooms ∘ Tree.unparse)).sum := by
  induction cs with
  | nil => simp
  | cons c cs ih =>
    obtain ⟨hc, hcs⟩ := List.forall_mem_cons.1 h
    simpa using Nat.add_le_add hc (ih hcs)

theorem IsType.weight_le {t : Tree} (h : IsType slot t) : t.weight ≤ rooms t.unparse := by
  induction h with
  | @base slot k hk => cases k <;> first | decide | cases hk
  | bare => decide
  | array | pair | pairs =>
    simp_all [NodeKind.weight, NodeKind.layout, Kind.terminal, Kind.room]
    try omega

theorem weights_brackets {is : List Tree} (h : ∀ i ∈ is, i.weight ≤ rooms i.unparse) :
    Tree.weights is + is.length ≤
      rooms ((is.map Tree.unparse).flatMap fun i => Kind.lbracket.terminal :: i ++ [Kind.rbracket.terminal]) := by
  induction is with
  | nil => simp
  | cons i is ih =>
    obtain ⟨hi, his⟩ := List.forall_mem_cons.1 h
    have := ih his
    simp only [Kind.terminal, Tree.weights_cons, List.length_cons, List.map_cons, List.flatMap_cons, List.cons_append,
      Terminal.rooms_cons, Terminal.rooms_append, Kind.room] at this ⊢
    omega

theorem weights_commas (h : ∀ c ∈ cs, c.weight ≤ rooms c.unparse) :
    Tree.weights cs ≤ rooms (NodeKind.commas (cs.map Tree.unparse)) := by
  rw [NodeKind.commas, rooms_intercalate, List.map_map]
  exact (weights_le h).trans (Nat.le_add_right _ _)

theorem IsExpr.weight_le {t : Tree} (h : IsExpr n t) : t.weight ≤ rooms t.unparse := by
  induction h with
  | @int text =>
    rw [Tree.unparse_node]
    simp only [NodeKind.layout, List.map_nil]
    unfold NodeKind.numeral
    split
    · decide
    · split_ifs <;> simp [NodeKind.weight, Kind.room]
  | bool | null =>
    simpa [NodeKind.weight, NodeKind.layout] using room_ofText _
  | char | str | ident => simp [NodeKind.weight, NodeKind.layout, Grammar.ident, Kind.room]
  | elem hne _ ih =>
    have := weights_brackets ih
    have := List.length_pos_iff.2 hne
    simp_all [NodeKind.weight, NodeKind.layout, Grammar.ident, Kind.room]
    omega
  | paren | tighter => simp_all [NodeKind.weight, NodeKind.layout, Kind.terminal, Kind.room]; try omega
  | @unary op | @binary _ op =>
    have := room_ofText op.name
    simp_all [NodeKind.weight, NodeKind.layout]
    omega

theorem IsPlace.weight_le {t : Tree} (h : IsPlace t) : t.weight ≤ rooms t.unparse := by
  induction h with
  | element _ he => exact he.weight_le
  | @slot k =>
    have := room_ofText k.name
    simp_all [NodeKind.weight, NodeKind.layout]
    omega

theorem IsItem.weight_le {t : Tree} (h : IsItem t) : t.weight ≤ rooms t.unparse := by
  induction h with
  | expr he => exact he.weight_le
  | array _ ih =>
    have := weights_commas ih
    simp only [Tree.weight_node, NodeKind.weight, Tree.unparse_node, NodeKind.layout, Kind.terminal, List.cons_append,
      Terminal.rooms_cons, Terminal.rooms_append, Kind.room]
    omega

theorem IsValue.weight_le {t : Tree} (h : IsValue t) : t.weight ≤ rooms t.unparse := by
  cases h with
  | item hi => exact hi.weight_le
  | newPair ha hb =>
    have := ha.weight_le
    have := hb.weight_le
    simp [NodeKind.weight, NodeKind.layout, Kind.terminal, Kind.room]
    omega
  | slot _ hp => exact hp.weight_le
  | call hargs =>
    have := weights_commas fun a ha => (hargs a ha).weight_le
    simp [NodeKind.weight, NodeKind.layout, Kind.terminal, Kind.room, Grammar.ident]
    omega

theorem IsStat.weight_le {t : Tree} (h : IsStat many t) : t.weight ≤ rooms t.unparse := by
  induction h with
  | skip => decide
  | one _ ih => exact ih
  | declare ht hv =>
    have := ht.weight_le
    have := hv.weight_le
    simp [NodeKind.weight, NodeKind.layout, Kind.terminal, Kind.room, Grammar.ident]
    omega
  | assign hl hv =>
    have := hl.weight_le
    have := hv.weight_le
    simp [NodeKind.weight, NodeKind.layout, Kind.terminal, Kind.room]
    omega
  | read hl =>
    have := hl.weight_le
    simp [NodeKind.weight, NodeKind.layout, Kind.terminal, Kind.room]
    omega
  | @word k e hk he =>
    have := he.weight_le
    cases k <;> simp only [Tree.isWord, Bool.false_eq_true] at hk <;>
      simp [NodeKind.weight, NodeKind.layout, Kind.terminal, Kind.room] <;> omega
  | ifThen hc | ifElse hc | «while» hc | «for» _ hc =>
    have := hc.weight_le
    simp_all [NodeKind.weight, NodeKind.layout, Kind.terminal, Kind.room]
    omega
  | block =>
    simp_all [NodeKind.weight, NodeKind.layout, Kind.terminal, Kind.room]
    omega
  | @seq ss hlen _ ih =>
    have := weights_le ih
    simp only [Tree.weight_node, NodeKind.weight, Tree.unparse_node, NodeKind.layout, Kind.terminal,
      rooms_intercalate, List.map_map, List.length_map, Terminal.rooms_cons, Terminal.rooms_nil, Kind.room]
    omega

theorem IsFunc.weight_le {t : Tree} (h : IsFunc t) : t.weight ≤ rooms t.unparse := by
  obtain ⟨ht, hps, hb⟩ := h
  have := ht.weight_le
  have := hb.weight_le
  have := weights_commas fun p hp => by
    obtain ⟨hq⟩ := hps p hp
    have := hq.weight_le
    simp [NodeKind.weight, NodeKind.layout, Kind.room, Grammar.ident]
    omega
  simp [NodeKind.weight, NodeKind.layout, Kind.terminal, Kind.room, Grammar.ident]
  omega

theorem IsProgram.weight_le {t : Tree} (h : IsProgram t) : t.weight ≤ rooms t.unparse := by
  obtain ⟨hfs, hmain⟩ := h
  have := weights_le fun f hf => (hfs f hf).weight_le
  have := hmain.weight_le
  simp [NodeKind.weight, NodeKind.layout, Kind.terminal, Kind.room]
  omega

/-! ## Shapes -/

section
variable {t : Tree} {k : NodeKind} {text : Text}

theorem bare_eq_node {cs : List Tree} :
    t.bare = .node k text {} cs ↔ ∃ s ds, t = .node k text s ds ∧ ds.map Tree.bare = cs := by
  cases t with
  | missing => simp [Tree.bare]
  | node => simp [eq_comm, and_assoc]

theorem bare_eq_leaf : t.bare = .node k text {} [] ↔ ∃ s, t = .node k text s [] := by
  simp [bare_eq_node]

theorem bare_eq_node₁ {a : Tree} (h : t.bare = .node k text {} [a]) :
    ∃ s x, t = .node k text s [x] ∧ x.bare = a := by
  obtain ⟨s, ds, rfl, hds⟩ := bare_eq_node.1 h
  obtain ⟨x, rfl, hx⟩ := List.map_eq_singleton_iff.1 hds
  exact ⟨s, x, rfl, hx⟩

theorem bare_eq_node₂ {a b : Tree} (h : t.bare = .node k text {} [a, b]) :
    ∃ s x y, t = .node k text s [x, y] ∧ x.bare = a ∧ y.bare = b := by
  obtain ⟨s, ds, rfl, hds⟩ := bare_eq_node.1 h
  obtain ⟨x, ds, rfl, hx, hds⟩ := List.map_eq_cons_iff.1 hds
  obtain ⟨y, rfl, hy⟩ := List.map_eq_singleton_iff.1 hds
  exact ⟨s, x, y, rfl, hx, hy⟩

theorem bare_eq_node₃ {a b c : Tree} (h : t.bare = .node k text {} [a, b, c]) :
    ∃ s x y z, t = .node k text s [x, y, z] ∧ x.bare = a ∧ y.bare = b ∧ z.bare = c := by
  obtain ⟨s, ds, rfl, hds⟩ := bare_eq_node.1 h
  obtain ⟨x, ds, rfl, hx, hds⟩ := List.map_eq_cons_iff.1 hds
  obtain ⟨y, ds, rfl, hy, hds⟩ := List.map_eq_cons_iff.1 hds
  obtain ⟨z, rfl, hz⟩ := List.map_eq_singleton_iff.1 hds
  exact ⟨s, x, y, z, rfl, hx, hy, hz⟩

theorem bare_eq_node₄ {a b c d : Tree} (h : t.bare = .node k text {} [a, b, c, d]) :
    ∃ s x y z w, t = .node k text s [x, y, z, w] ∧ x.bare = a ∧ y.bare = b ∧ z.bare = c ∧ w.bare = d := by
  obtain ⟨s, ds, rfl, hds⟩ := bare_eq_node.1 h
  obtain ⟨x, ds, rfl, hx, hds⟩ := List.map_eq_cons_iff.1 hds
  obtain ⟨y, ds, rfl, hy, hds⟩ := List.map_eq_cons_iff.1 hds
  obtain ⟨z, ds, rfl, hz, hds⟩ := List.map_eq_cons_iff.1 hds
  obtain ⟨w, rfl, hw⟩ := List.map_eq_singleton_iff.1 hds
  exact ⟨s, x, y, z, w, rfl, hx, hy, hz, hw⟩

theorem bare_eq_ident (h : t.bare = Grammar.ident text) (hs : IsName text) : t.IsIdent := by
  obtain ⟨s, rfl⟩ := bare_eq_leaf.1 h
  exact .mk hs

end

theorem IsType.shaped {u t : Tree} (h : IsType slot u) (ht : t.bare = u) : t.IsType := by
  induction h generalizing t with
  | @base slot k hk =>
    obtain ⟨s, rfl⟩ := bare_eq_leaf.1 ht
    exact .base (by cases k <;> first | decide | cases hk)
  | bare =>
    obtain ⟨s, rfl⟩ := bare_eq_leaf.1 ht
    exact .bare
  | pair _ _ iha ihb =>
    obtain ⟨s, a, b, rfl, ha, hb⟩ := bare_eq_node₂ ht
    exact .pair (iha ha) (ihb hb)
  | array _ ih | pairs _ _ ih =>
    obtain ⟨s, a, rfl, ha⟩ := bare_eq_node₁ ht
    exact .array (ih ha)

theorem exists_binOp {k : Kind} (h : level? k = some n) : ∃ op, BinOp.ofText? k.name = some op := by
  cases k <;> cases h <;> exact ⟨_, rfl⟩

theorem exists_unOp {k : Kind} (h : k ∈ prefixes) : ∃ op, UnOp.ofText? k.name = some op := by
  have hall : ∀ k ∈ prefixes, (UnOp.ofText? k.name).isSome := by decide
  exact Option.isSome_iff_exists.1 (hall k h)

theorem shaped_all {P : Tree → Prop} {us ts : List Tree} (h : ∀ u ∈ us, ∀ t : Tree, t.bare = u → P t)
    (ht : ts.map Tree.bare = us) : ∀ t ∈ ts, P t :=
  fun t hmem => h _ (ht ▸ List.mem_map_of_mem hmem) t rfl

theorem IsExpr.shaped {u t : Tree} (h : IsExpr n u) (ht : t.bare = u) (hs : Terminal.Spelled u.unparse) : t.IsExpr := by
  induction h generalizing t with
  | int => obtain ⟨s, rfl⟩ := bare_eq_leaf.1 ht; exact .int
  | bool => obtain ⟨s, rfl⟩ := bare_eq_leaf.1 ht; exact .bool
  | null => obtain ⟨s, rfl⟩ := bare_eq_leaf.1 ht; exact .null
  | @char text =>
    obtain ⟨s, rfl⟩ := bare_eq_leaf.1 ht
    obtain ⟨c, hc⟩ := hs ⟨.charLit, text⟩ (by simp [NodeKind.layout])
    exact .char hc
  | @str text =>
    obtain ⟨s, rfl⟩ := bare_eq_leaf.1 ht
    obtain ⟨c, hc⟩ := hs ⟨.strLit, text⟩ (by simp [NodeKind.layout])
    exact .str hc
  | ident => exact .ident (bare_eq_ident ht (hs ⟨.ident, _⟩ (by simp [Grammar.ident, NodeKind.layout])))
  | @elem text is hne _ ih =>
    obtain ⟨s, ds, rfl, hds⟩ := bare_eq_node.1 ht
    obtain ⟨name, ds, rfl, hname, hds⟩ := List.map_eq_cons_iff.1 hds
    have hall : ∀ j ∈ ds, j.IsExpr := shaped_all (fun i hi t ht => ih i hi ht (hs.mono fun w hw => ?_)) hds
    · cases ds with
      | nil => exact absurd hds.symm hne
      | cons i is =>
        obtain ⟨hi, his⟩ := List.forall_mem_cons.1 hall
        exact .elem (bare_eq_ident hname (hs ⟨.ident, _⟩ (by simp [Grammar.ident, NodeKind.layout]))) hi his
    · simp only [Tree.unparse_node, NodeKind.layout, List.map_cons]
      refine List.mem_append_right _ (List.mem_flatMap.2 ⟨_, List.mem_map_of_mem hi, ?_⟩)
      simp [hw]
  | paren _ ih =>
    obtain ⟨s, a, rfl, ha⟩ := bare_eq_node₁ ht
    exact .paren (ih ha (by simp_all [NodeKind.layout]))
  | unary hop _ _ ih =>
    obtain ⟨s, a, rfl, ha⟩ := bare_eq_node₁ ht
    obtain ⟨op, hop⟩ := exists_unOp hop
    exact .unary hop (ih ha (by simp_all [NodeKind.layout]))
  | binary hop _ _ ihl ihr =>
    obtain ⟨s, a, b, rfl, ha, hb⟩ := bare_eq_node₂ ht
    obtain ⟨op, hop⟩ := exists_binOp hop
    exact .binary hop (ihl ha (by simp_all [NodeKind.layout])) (ihr hb (by simp_all [NodeKind.layout]))
  | tighter _ ih => exact ih ht hs

theorem IsPlace.shaped {u t : Tree} (h : IsPlace u) (ht : t.bare = u) (hs : Terminal.Spelled u.unparse) :
    t.IsTarget := by
  induction h generalizing t with
  | element hk he =>
    have hshape := he.shaped ht hs
    have hkind : t.kind = .ident ∨ t.kind = .arrayElem := by rwa [← ht, Tree.kind_bare] at hk
    cases hshape with
    | ident hi => exact .ident hi
    | elem hn hi his => exact .elem hn hi his
    | _ => simp [Tree.kind] at hkind
  | slot _ _ ih =>
    obtain ⟨s, a, rfl, ha⟩ := bare_eq_node₁ ht
    exact .slot (ih ha (by simp_all [NodeKind.layout]))

theorem mem_intercalate {w : Terminal} {sep : List Terminal} {us : List Tree} {u : Tree} (hu : u ∈ us)
    (hw : w ∈ u.unparse) : w ∈ List.intercalate sep (us.map Tree.unparse) := by
  induction us with
  | nil => cases hu
  | cons v us ih =>
    cases us with
    | nil =>
      obtain rfl := List.mem_singleton.1 hu
      simpa [List.intercalate] using hw
    | cons v' us =>
      rw [List.map_cons, List.map_cons, List.intercalate_cons_cons]
      obtain rfl | hu := List.mem_cons.1 hu
      · simp [hw]
      · exact List.mem_append_right _ (ih hu)

theorem IsItem.shaped {u t : Tree} (h : IsItem u) (ht : t.bare = u) (hs : Terminal.Spelled u.unparse) :
    t.IsItem := by
  induction h generalizing t with
  | expr he => exact .expr (he.shaped ht hs)
  | array _ ih =>
    obtain ⟨s, ds, rfl, hds⟩ := bare_eq_node.1 ht
    refine .array (shaped_all (fun u hu t ht => ih u hu ht (hs.mono fun w hw => ?_)) hds)
    simp [NodeKind.layout, NodeKind.commas, mem_intercalate hu hw]

theorem IsValue.shaped {u t : Tree} (h : IsValue u) (ht : t.bare = u) (hs : Terminal.Spelled u.unparse) :
    t.IsValue := by
  cases h with
  | item hi => exact .item (hi.shaped ht hs)
  | newPair ha hb =>
    obtain ⟨s, x, y, rfl, hx, hy⟩ := bare_eq_node₂ ht
    exact .newPair (ha.shaped hx (by simp_all [NodeKind.layout])) (hb.shaped hy (by simp_all [NodeKind.layout]))
  | slot hk hp =>
    have hkind : t.kind = .pairElem := by rwa [← ht, Tree.kind_bare] at hk
    cases hp.shaped ht hs with
    | slot hc => exact .slot hc
    | ident hi => cases hi; cases hkind
    | elem => cases hkind
  | @call text args hargs =>
    obtain ⟨s, name, list, rfl, hname, hlist⟩ := bare_eq_node₂ ht
    obtain ⟨s', as, rfl, has⟩ := bare_eq_node.1 hlist
    refine .call (bare_eq_ident hname (hs ⟨.ident, _⟩ (by simp [Grammar.ident, NodeKind.layout]))) ?_
    refine shaped_all (fun u hu t ht => (hargs u hu).shaped ht (hs.mono fun w hw => ?_)) has
    simp [NodeKind.layout, NodeKind.commas, mem_intercalate hu hw]

theorem IsStat.shaped {u t : Tree} (h : IsStat many u) (ht : t.bare = u) (hs : Terminal.Spelled u.unparse) :
    t.IsStat := by
  induction h generalizing t with
  | skip => obtain ⟨s, rfl⟩ := bare_eq_leaf.1 ht; exact .skip
  | one _ ih => exact ih ht hs
  | declare htype hv =>
    obtain ⟨s, x, name, z, rfl, hx, hname, hz⟩ := bare_eq_node₃ ht
    exact .declare (htype.shaped hx) (bare_eq_ident hname (hs ⟨.ident, _⟩ (by simp [Grammar.ident, NodeKind.layout])))
      (hv.shaped hz (by simp_all [NodeKind.layout]))
  | assign hl hv =>
    obtain ⟨s, x, y, rfl, hx, hy⟩ := bare_eq_node₂ ht
    exact .assign (hl.shaped hx (by simp_all [NodeKind.layout])) (hv.shaped hy (by simp_all [NodeKind.layout]))
  | read hl =>
    obtain ⟨s, x, rfl, hx⟩ := bare_eq_node₁ ht
    exact .read (hl.shaped hx (by simp_all [NodeKind.layout]))
  | @word k e hk he =>
    obtain ⟨s, x, rfl, hx⟩ := bare_eq_node₁ ht
    refine .word hk (he.shaped hx ?_)
    cases k <;> simp only [Tree.isWord, Bool.false_eq_true] at hk <;> simp_all [NodeKind.layout]
  | ifThen hc _ iha =>
    obtain ⟨s, x, y, rfl, hx, hy⟩ := bare_eq_node₂ ht
    exact .ifThen (hc.shaped hx (by simp_all [NodeKind.layout])) (iha hy (by simp_all [NodeKind.layout]))
  | ifElse hc _ _ iha ihb =>
    obtain ⟨s, x, y, z, rfl, hx, hy, hz⟩ := bare_eq_node₃ ht
    exact .ifElse (hc.shaped hx (by simp_all [NodeKind.layout])) (iha hy (by simp_all [NodeKind.layout]))
      (ihb hz (by simp_all [NodeKind.layout]))
  | «while» hc _ ihb =>
    obtain ⟨s, x, y, rfl, hx, hy⟩ := bare_eq_node₂ ht
    exact .while (hc.shaped hx (by simp_all [NodeKind.layout])) (ihb hy (by simp_all [NodeKind.layout]))
  | «for» _ hc _ _ ihi ihs ihb =>
    obtain ⟨s, x, y, z, w, rfl, hx, hy, hz, hw⟩ := bare_eq_node₄ ht
    exact .for (ihi hx (by simp_all [NodeKind.layout])) (hc.shaped hy (by simp_all [NodeKind.layout]))
      (ihs hz (by simp_all [NodeKind.layout])) (ihb hw (by simp_all [NodeKind.layout]))
  | block _ ih =>
    obtain ⟨s, x, rfl, hx⟩ := bare_eq_node₁ ht
    exact .block (ih hx (by simp_all [NodeKind.layout]))
  | seq _ _ ih =>
    obtain ⟨s, ds, rfl, hds⟩ := bare_eq_node.1 ht
    refine .seq (shaped_all (fun u hu t ht => ih u hu ht (hs.mono fun w hw => ?_)) hds)
    simp [NodeKind.layout, mem_intercalate hu hw]

theorem IsParam.shaped {u t : Tree} (h : IsParam u) (ht : t.bare = u) (hs : Terminal.Spelled u.unparse) :
    t.IsParam := by
  obtain ⟨htype⟩ := h
  obtain ⟨s, x, y, rfl, hx, hy⟩ := bare_eq_node₂ ht
  exact .mk (htype.shaped hx) (bare_eq_ident hy (hs ⟨.ident, _⟩ (by simp [Grammar.ident, NodeKind.layout])))

theorem IsFunc.shaped {u t : Tree} (h : IsFunc u) (ht : t.bare = u) (hs : Terminal.Spelled u.unparse) :
    t.IsFunc := by
  obtain ⟨htype, hps, hb⟩ := h
  obtain ⟨s, x, name, list, w, rfl, hx, hname, hlist, hw⟩ := bare_eq_node₄ ht
  obtain ⟨s', qs, rfl, hqs⟩ := bare_eq_node.1 hlist
  refine .mk (htype.shaped hx) (bare_eq_ident hname (hs ⟨.ident, _⟩ (by simp [Grammar.ident, NodeKind.layout])))
    (shaped_all (fun u hu t ht => (hps u hu).shaped ht (hs.mono fun w hw => ?_)) hqs)
    (hb.shaped hw (by simp_all [NodeKind.layout]))
  simp [NodeKind.layout, NodeKind.commas, mem_intercalate hu hw]

theorem IsProgram.shaped {u t : Tree} (h : IsProgram u) (ht : t.bare = u) (hs : Terminal.Spelled u.unparse) :
    t.IsProgram := by
  obtain @⟨fs, main, hfs, hmain⟩ := h
  obtain ⟨s, ds, rfl, hds⟩ := bare_eq_node.1 ht
  obtain ⟨fs', ms, rfl, hfs', hms⟩ := List.map_eq_append_iff.1 hds
  obtain ⟨m, rfl, hm⟩ := List.map_eq_singleton_iff.1 hms
  refine .mk (shaped_all (fun u hu t ht => (hfs u hu).shaped ht (hs.mono fun w hw => ?_)) hfs')
    (hmain.shaped hm (by simp_all [NodeKind.layout]))
  simp only [Tree.unparse_node, NodeKind.layout, List.map_append, List.flatten_append, List.mem_append, List.mem_cons]
  exact .inl (.inr (.inl (List.mem_flatten.2 ⟨_, List.mem_map_of_mem hu, hw⟩)))

end Grammar

mutual

theorem Tree.weight_bare : ∀ t : Tree, t.bare.weight = t.weight
  | .missing => by rw [bare]
  | .node k text _ cs => by rw [bare, weight, weight, weights_bareAll cs]

theorem Tree.weights_bareAll : ∀ cs : List Tree, weights (bareAll cs) = weights cs
  | [] => by rw [bareAll]
  | c :: cs => by rw [bareAll, weights, weights, weight_bare c, weights_bareAll cs]

end

/-- **The tree of a file without problems is a program, and weighs no more than the file.** -/
theorem Parsed.tree_shape {f : File} {t : Tree} (h : (Parsed.ofFile f).tree? 0 = some t) :
    t.IsProgram ∧ t.weight ≤ f.content.length := by
  obtain ⟨hlex, hprogram, hterminals⟩ := (Parsed.tree_iff_grammar f t.bare).1 (by rw [h, Option.map_some])
  obtain ⟨ss, s, hss, -, -⟩ := Scan.steps_eof f.id 0 f.content
  have hspelled := Scan.steps_spelled hlex
  have hsum := Scan.sum_length_steps f.id 0 f.content
  rw [hss] at hspelled hsum
  have hterms : f.terminals = ss.map fun u => u.token.terminal := by
    simp [File.terminals, Scan.tokens, hss]
  have hs : Terminal.Spelled t.bare.unparse := by
    rw [hterminals, hterms]
    intro w hw
    obtain ⟨u, hu, rfl⟩ := List.mem_map.1 hw
    exact hspelled u (List.mem_append_left _ hu)
  refine ⟨hprogram.shaped rfl hs, ?_⟩
  calc t.weight = t.bare.weight := t.weight_bare.symm
    _ ≤ Terminal.rooms t.bare.unparse := hprogram.weight_le
    _ ≤ (t.bare.unparse.map (·.text.length)).sum := hs.rooms_le
    _ ≤ f.content.length := by
      refine le_trans ?_ hsum
      simp [hterminals, hterms, Function.comp_def, Token.terminal]

end Wacc
