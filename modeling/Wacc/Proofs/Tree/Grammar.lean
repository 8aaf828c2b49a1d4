/-
  The grammar of the language.

  The grammar says which trees there are and how each of them is written.  It knows nothing of
  readers, and nothing of spans: its trees are those that `Tree.bare` leaves.

  Expressions have six levels of binary operators, the weakest first, all grouped to the left.
-/
import Wacc.Proofs.Tree.Shape

namespace Wacc

/-! ## Terminals -/

/-- A token without its place. -/
structure Terminal where
  kind : Kind
  text : Text
  deriving DecidableEq, Repr

def Token.terminal (t : Token) : Terminal := ⟨t.kind, t.text⟩

def Kind.terminal (k : Kind) : Terminal := ⟨k, k.name⟩

def Terminal.ofText (text : Text) : Terminal :=
  ⟨((Kind.keywords ++ Kind.symbols).find? (·.name == text)).getD .invalid, text⟩

theorem Terminal.ofText_name : ∀ k ∈ Kind.keywords ++ Kind.symbols, ofText k.name = k.terminal := by
  decide

/-! ## Writing trees -/

namespace NodeKind

def numeral : Text → List Terminal
  | [] => [⟨.intLit, []⟩]
  | c :: digits =>
    if c = '-'.toUInt8 then [Kind.minus.terminal, ⟨.intLit, digits⟩] else [⟨.intLit, c :: digits⟩]

def commas (parts : List (List Terminal)) : List Terminal := List.intercalate [Kind.comma.terminal] parts

def layout : NodeKind → Text → List (List Terminal) → List Terminal
  | .program, _, parts => Kind.kwBegin.terminal :: parts.flatten ++ [Kind.kwEnd.terminal]
  | .func, _, [t, name, ps, b] =>
    t ++ name ++ ps ++ [Kind.kwIs.terminal] ++ b ++ [Kind.kwEnd.terminal]
  | .paramList, _, ps => Kind.lparen.terminal :: commas ps ++ [Kind.rparen.terminal]
  | .param, _, [t, name] => t ++ name
  | .baseType, text, [] => [.ofText text]
  | .arrayType, _, [t] => t ++ [Kind.lbracket.terminal, Kind.rbracket.terminal]
  | .pairType, _, [a, b] =>
    Kind.kwPair.terminal :: Kind.lparen.terminal :: a ++ Kind.comma.terminal :: b ++ [Kind.rparen.terminal]
  | .barePair, text, [] => [.ofText text]
  | .skip, _, [] => [Kind.kwSkip.terminal]
  | .declare, _, [t, name, v] => t ++ name ++ Kind.assign.terminal :: v
  | .assign, _, [l, v] => l ++ Kind.assign.terminal :: v
  | .read, _, [l] => Kind.kwRead.terminal :: l
  | .free, _, [e] => Kind.kwFree.terminal :: e
  | .return, _, [e] => Kind.kwReturn.terminal :: e
  | .exit, _, [e] => Kind.kwExit.terminal :: e
  | .print, _, [e] => Kind.kwPrint.terminal :: e
  | .println, _, [e] => Kind.kwPrintln.terminal :: e
  | .if, _, [c, a] =>
    Kind.kwIf.terminal :: c ++ Kind.kwThen.terminal :: a ++ [Kind.kwFi.terminal]
  | .if, _, [c, a, b] =>
    Kind.kwIf.terminal :: c ++ Kind.kwThen.terminal :: a ++ Kind.kwElse.terminal :: b ++ [Kind.kwFi.terminal]
  | .while, _, [c, b] =>
    Kind.kwWhile.terminal :: c ++ Kind.kwDo.terminal :: b ++ [Kind.kwDone.terminal]
  | .for, _, [i, c, s, b] =>
    Kind.kwFor.terminal :: Kind.lparen.terminal :: i ++ Kind.semicolon.terminal :: c ++
      Kind.semicolon.terminal :: s ++ Kind.rparen.terminal :: Kind.kwDo.terminal :: b ++ [Kind.kwDone.terminal]
  | .block, _, [b] => Kind.kwBegin.terminal :: b ++ [Kind.kwEnd.terminal]
  | .seq, _, ss => List.intercalate [Kind.semicolon.terminal] ss
  | .ident, text, [] => [⟨.ident, text⟩]
  | .arrayElem, _, name :: is =>
    name ++ is.flatMap fun i => Kind.lbracket.terminal :: i ++ [Kind.rbracket.terminal]
  | .pairElem, text, [c] => .ofText text :: c
  | .arrayLit, _, parts => Kind.lbracket.terminal :: commas parts ++ [Kind.rbracket.terminal]
  | .newPair, _, [a, b] =>
    Kind.kwNewpair.terminal :: Kind.lparen.terminal :: a ++ Kind.comma.terminal :: b ++ [Kind.rparen.terminal]
  | .call, _, [name, args] => Kind.kwCall.terminal :: name ++ args
  | .argList, _, parts => Kind.lparen.terminal :: commas parts ++ [Kind.rparen.terminal]
  | .intLit, text, [] => numeral text
  | .boolLit, text, [] => [.ofText text]
  | .charLit, text, [] => [⟨.charLit, text⟩]
  | .strLit, text, [] => [⟨.strLit, text⟩]
  | .pairLit, text, [] => [.ofText text]
  | .unary, text, [c] => .ofText text :: c
  | .binary, text, [l, r] => l ++ .ofText text :: r
  | .paren, _, [c] => Kind.lparen.terminal :: c ++ [Kind.rparen.terminal]
  | _, _, _ => []

end NodeKind

namespace Tree

mutual

def unparse : Tree → List Terminal
  | .missing => []
  | .node k text _ cs => k.layout text (unparseAll cs)

def unparseAll : List Tree → List (List Terminal)
  | [] => []
  | c :: cs => unparse c :: unparseAll cs

end

mutual

def bare : Tree → Tree
  | .missing => .missing
  | .node k text _ cs => .node k text {} (bareAll cs)

def bareAll : List Tree → List Tree
  | [] => []
  | c :: cs => bare c :: bareAll cs

end

theorem unparseAll_eq (cs : List Tree) : unparseAll cs = cs.map unparse := by
  induction cs with
  | nil => rw [unparseAll, List.map_nil]
  | cons c cs ih => rw [unparseAll, List.map_cons, ih]

theorem bareAll_eq (cs : List Tree) : bareAll cs = cs.map bare := by
  induction cs with
  | nil => rw [bareAll, List.map_nil]
  | cons c cs ih => rw [bareAll, List.map_cons, ih]

section
variable (k : NodeKind) (text : Text) (span : Span) (cs : List Tree)

@[simp] theorem unparse_node : (node k text span cs).unparse = k.layout text (cs.map unparse) := by
  rw [unparse, unparseAll_eq]

@[simp] theorem bare_node : (node k text span cs).bare = .node k text {} (cs.map bare) := by
  rw [bare, bareAll_eq]

@[simp] theorem unparse_make : (make k text span cs).unparse = k.layout text (cs.map unparse) := by
  rw [make, unparse_node]

@[simp] theorem bare_make : (make k text span cs).bare = .node k text {} (cs.map bare) := by
  rw [make, bare_node]

end

@[simp] theorem kind_bare (t : Tree) : t.bare.kind = t.kind := by
  cases t with
  | missing => rw [bare]
  | node => rw [bare_node]; rfl

@[simp] theorem text_bare (t : Tree) : t.bare.text = t.text := by
  cases t with
  | missing => rw [bare]
  | node => rw [bare_node]; rfl

mutual

theorem unparse_bare : ∀ t : Tree, t.bare.unparse = t.unparse
  | .missing => by rw [bare]
  | .node k text _ cs => by rw [bare, unparse, unparse, unparseAll_bareAll cs]

theorem unparseAll_bareAll : ∀ cs : List Tree, unparseAll (bareAll cs) = unparseAll cs
  | [] => by rw [bareAll]
  | c :: cs => by rw [bareAll, unparseAll, unparseAll, unparse_bare c, unparseAll_bareAll cs]

end

attribute [simp] unparse_bare

end Tree

/-! ## The trees of each construct -/

namespace Grammar

def level? : Kind → Option Nat
  | .orOr => some 0
  | .andAnd => some 1
  | .eqEq | .bangEq => some 2
  | .gt | .gtEq | .lt | .ltEq => some 3
  | .plus | .minus => some 4
  | .star | .slash | .percent => some 5
  | _ => none

def tightest : Nat := 6

def prefixes : List Kind := [.minus, .bang, .kwLen, .kwOrd, .kwChr]

def isUnsigned (t : Tree) : Bool := t.kind == .intLit && t.text.head? != some '-'.toUInt8

def ident (text : Text) : Tree := .node .ident text {} []

/-- A type; `slot` says whether it stands in a pair type.  There a pair is written without its parts,
    unless it is the element type of an array. -/
inductive IsType : Bool → Tree → Prop
  | base {slot} {k : Kind} : k.isBaseType = true → IsType slot (.node .baseType k.name {} [])
  | bare : IsType true (.node .barePair Kind.kwPair.name {} [])
  | pair {a b} : IsType true a → IsType true b → IsType false (.node .pairType [] {} [a, b])
  | array {slot t} : IsType slot t → IsType slot (.node .arrayType [] {} [t])
  | pairs {t} : t.kind = .pairType → IsType false t → IsType true (.node .arrayType [] {} [t])

/-- An expression whose operators outside parentheses are of level `n` or tighter. -/
inductive IsExpr : Nat → Tree → Prop
  | int {text} : IsExpr tightest (.node .intLit text {} [])
  | bool {k} : k ∈ [Kind.kwTrue, .kwFalse] → IsExpr tightest (.node .boolLit k.name {} [])
  | char {text} : IsExpr tightest (.node .charLit text {} [])
  | str {text} : IsExpr tightest (.node .strLit text {} [])
  | null : IsExpr tightest (.node .pairLit Kind.kwNull.name {} [])
  | ident {text} : IsExpr tightest (ident text)
  | elem {text is} : is ≠ [] → (∀ i ∈ is, IsExpr 0 i) →
    IsExpr tightest (.node .arrayElem [] {} (Grammar.ident text :: is))
  | paren {c} : IsExpr 0 c → IsExpr tightest (.node .paren [] {} [c])
  | unary {op c} : op ∈ prefixes → IsExpr tightest c →
    (op = .minus → isUnsigned c = false) → IsExpr tightest (.node .unary op.name {} [c])
  | binary {n op l r} : level? op = some n → IsExpr n l → IsExpr (n + 1) r →
    IsExpr n (.node .binary op.name {} [l, r])
  | tighter {n t} : IsExpr (n + 1) t → IsExpr n t

inductive IsPlace : Tree → Prop
  | element {t} : t.kind = .ident ∨ t.kind = .arrayElem → IsExpr tightest t → IsPlace t
  | slot {k c} : k ∈ [Kind.kwFst, .kwSnd] → IsPlace c →
    IsPlace (.node .pairElem k.name {} [c])

/-- An element of an array literal. -/
inductive IsItem : Tree → Prop
  | expr {t} : IsExpr 0 t → IsItem t
  | array {cs} : (∀ c ∈ cs, IsItem c) → IsItem (.node .arrayLit [] {} cs)

inductive IsValue : Tree → Prop
  | item {t} : IsItem t → IsValue t
  | newPair {a b} : IsExpr 0 a → IsExpr 0 b → IsValue (.node .newPair [] {} [a, b])
  | slot {t} : t.kind = .pairElem → IsPlace t → IsValue t
  | call {text args} : (∀ a ∈ args, IsExpr 0 a) →
    IsValue (.node .call [] {} [ident text, .node .argList [] {} args])

inductive IsStat : Bool → Tree → Prop
  | skip : IsStat false (.node .skip [] {} [])
  | declare {t v text} : IsType false t → IsValue v →
    IsStat false (.node .declare [] {} [t, ident text, v])
  | assign {l v} : IsPlace l → IsValue v → IsStat false (.node .assign [] {} [l, v])
  | read {l} : IsPlace l → IsStat false (.node .read [] {} [l])
  | word {k e} : Tree.isWord k = true → IsExpr 0 e → IsStat false (.node k [] {} [e])
  | ifThen {c a} : IsExpr 0 c → IsStat true a → IsStat false (.node .if [] {} [c, a])
  | ifElse {c a b} : IsExpr 0 c → IsStat true a → IsStat true b →
    IsStat false (.node .if [] {} [c, a, b])
  | while {c b} : IsExpr 0 c → IsStat true b → IsStat false (.node .while [] {} [c, b])
  | for {i c s b} : IsStat false i → IsExpr 0 c → IsStat false s → IsStat true b →
    IsStat false (.node .for [] {} [i, c, s, b])
  | block {b} : IsStat true b → IsStat false (.node .block [] {} [b])
  | one {s} : IsStat false s → IsStat true s
  | seq {ss} : 2 ≤ ss.length → (∀ s ∈ ss, IsStat false s) → IsStat true (.node .seq [] {} ss)

inductive IsParam : Tree → Prop
  | mk {t text} : IsType false t → IsParam (.node .param [] {} [t, ident text])

inductive IsFunc : Tree → Prop
  | mk {t b text ps} : IsType false t → (∀ p ∈ ps, IsParam p) →
    IsStat true b → IsFunc (.node .func [] {} [t, ident text, .node .paramList [] {} ps, b])

inductive IsProgram : Tree → Prop
  | mk {fs main} : (∀ f ∈ fs, IsFunc f) → IsStat true main →
    IsProgram (.node .program [] {} (fs ++ [main]))

/-! ## Terminals of trees -/

variable {n : Nat} {t : Tree}

theorem mem_of_level {k : Kind} (h : level? k = some n) : k ∈ Kind.keywords ++ Kind.symbols := by
  cases k <;> first | decide | cases h

theorem mem_of_prefixes {k : Kind} (h : k ∈ prefixes) : k ∈ Kind.keywords ++ Kind.symbols := by
  revert k
  decide

theorem IsExpr.unparse_unsigned (h : IsExpr n t) (hu : isUnsigned t = true) : t.unparse = [⟨.intLit, t.text⟩] := by
  induction h with
  | @int text =>
    rw [Tree.unparse_node]
    cases text with
    | nil => rfl
    | cons c digits =>
      have hc : c ≠ '-'.toUInt8 := by simpa [isUnsigned, Tree.kind, Tree.text] using hu
      exact if_neg hc
  | tighter _ ih => exact ih hu
  | _ => simp [isUnsigned, Tree.kind, Grammar.ident] at hu

theorem level_lt {k : Kind} (h : level? k = some n) : n < tightest := by
  cases k <;> cases h <;> decide

theorem IsExpr.level_le (h : IsExpr n t) : n ≤ tightest := by
  induction h with
  | binary hop => exact (level_lt hop).le
  | tighter _ ih => omega
  | _ => exact le_rfl

def opens (k : Kind) : Bool :=
  prefixes.contains k || [Kind.intLit, .charLit, .strLit, .kwTrue, .kwFalse, .kwNull, .ident, .lparen].contains k

theorem IsExpr.unparse_cons (h : IsExpr n t) :
    ∃ w ws, t.unparse = w :: ws ∧ opens w.kind = true ∧
      (n = tightest → w.kind = .intLit → isUnsigned t = true) := by
  induction h with
  | @int text =>
    rw [Tree.unparse_node]
    cases text with
    | nil => exact ⟨_, _, rfl, by decide, fun _ _ => by decide⟩
    | cons c digits =>
      by_cases hc : c = '-'.toUInt8
      · exact ⟨_, _, if_pos hc, by decide, fun _ => (by rintro ⟨⟩)⟩
      · exact ⟨_, _, if_neg hc, rfl, fun _ _ => by simpa [isUnsigned, Tree.kind, Tree.text] using hc⟩
  | @bool k hk =>
    have hword : k ∈ Kind.keywords ++ Kind.symbols := by
      revert k
      decide
    refine ⟨k.terminal, [], ?_, ?_, ?_⟩
    · rw [Tree.unparse_node, ← Terminal.ofText_name k hword]
      rfl
    · revert k
      decide
    · rintro - (rfl : k = .intLit)
      exact absurd hk (by decide)
  | null => exact ⟨Kind.kwNull.terminal, [], by rw [Tree.unparse_node, ← Terminal.ofText_name _ (by decide)]; rfl, by decide, fun _ => (by rintro ⟨⟩)⟩
  | char | str | ident => exact ⟨_, _, Tree.unparse_node .., by simp [opens], fun _ => (by rintro ⟨⟩)⟩
  | elem | paren => exact ⟨_, _, Tree.unparse_node .., by simp [opens, Kind.terminal], fun _ => (by rintro ⟨⟩)⟩
  | @unary op c hop =>
    have hword := mem_of_prefixes hop
    refine ⟨op.terminal, c.unparse, ?_, ?_, ?_⟩
    · rw [Tree.unparse_node, ← Terminal.ofText_name op hword]
      rfl
    · simp [opens, Kind.terminal, hop]
    · rintro - (rfl : op = .intLit)
      exact absurd hop (by decide)
  | @binary n op l r hop _ _ ihl =>
    obtain ⟨w, ws, hws, hw, -⟩ := ihl
    refine ⟨w, ws ++ Terminal.ofText op.name :: r.unparse, ?_, hw, fun hn => absurd hn (level_lt hop).ne⟩
    rw [Tree.unparse_node]
    show l.unparse ++ _ = _
    rw [hws]
    rfl
  | @tighter n t h ih =>
    obtain ⟨w, ws, hws, hw, -⟩ := ih
    exact ⟨w, ws, hws, hw, fun hn => absurd h.level_le (by omega)⟩

theorem IsExpr.element_cases (h : IsExpr n t) (hk : t.kind = .ident ∨ t.kind = .arrayElem) :
    (∃ text, t = Grammar.ident text) ∨
      ∃ text is, is ≠ [] ∧ (∀ i ∈ is, IsExpr 0 i) ∧ t = .node .arrayElem [] {} (Grammar.ident text :: is) := by
  induction h with
  | ident => exact .inl ⟨_, rfl⟩
  | elem hne his => exact .inr ⟨_, _, hne, his, rfl⟩
  | tighter _ ih => exact ih hk
  | _ => simp [Tree.kind] at hk

end Grammar

end Wacc
