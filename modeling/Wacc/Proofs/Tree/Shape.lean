/-
  Shapes of concrete trees.

  Every construct of the language has a shape: the kind of its node, how many children it has and
  what they are.  A tree of one of these shapes has no missing part, its literals can be read and
  its operators exist.

  The weight of a tree is a measure of its size that the text it was read from bounds; it counts
  four for the type and the name of a variable, which takes at most four bytes on the stack.
-/
import Wacc.Proofs.Token.Spelling
import Wacc.Tree.Basic
import Wacc.Ast.Operator

namespace Wacc

def NodeKind.weight : NodeKind → Nat
  | .func | .param => 0
  | .if | .for => 2
  | .baseType | .pairType | .barePair => 3
  | _ => 1

namespace Tree

mutual

def weight : Tree → Nat
  | .missing => 0
  | .node k _ _ cs => k.weight + weights cs

def weights : List Tree → Nat
  | [] => 0
  | c :: cs => weight c + weights cs

end

@[simp] theorem weight_node (k : NodeKind) (t : Text) (s : Span) (cs : List Tree) :
    (node k t s cs).weight = k.weight + weights cs := by rw [weight]

@[simp] theorem weights_nil : weights [] = 0 := by rw [weights]

@[simp] theorem weights_cons (c : Tree) (cs : List Tree) :
    weights (c :: cs) = c.weight + weights cs := by rw [weights]

@[simp] theorem weights_append (cs ds : List Tree) :
    weights (cs ++ ds) = weights cs + weights ds := by
  induction cs with
  | nil => simp
  | cons c cs ih => simp [ih, Nat.add_assoc]

@[simp] theorem weight_make (k : NodeKind) (t : Text) (s : Span) (cs : List Tree) :
    (make k t s cs).weight = k.weight + weights cs := by rw [make, weight_node]

/-- Rewriting with these adds up the weights of the parts of a tree. -/
theorem weight_steps : (∀ k text s cs, (node k text s cs).weight = k.weight + weights cs) ∧ weights [] = 0 ∧
    ∀ c cs, weights (c :: cs) = c.weight + weights cs := ⟨weight_node, weights_nil, weights_cons⟩

/-! ## Names, types and expressions -/

inductive IsIdent : Tree → Prop
  | mk {text span} : IsName text → IsIdent (.node .ident text span [])

inductive IsType : Tree → Prop
  | base {text span} :
    text ∈ [lit "int", lit "bool", lit "char", lit "string"] → IsType (.node .baseType text span [])
  | bare {text span} : IsType (.node .barePair text span [])
  | array {text span c} :
    IsType c → IsType (.node .arrayType text span [c])
  | pair {text span a b} :
    IsType a → IsType b → IsType (.node .pairType text span [a, b])

inductive IsExpr : Tree → Prop
  | int {text span} : IsExpr (.node .intLit text span [])
  | bool {text span} : IsExpr (.node .boolLit text span [])
  | char {text span c} :
    Literal.char text = .ok c → IsExpr (.node .charLit text span [])
  | str {text s span} :
    Literal.string text = .ok s → IsExpr (.node .strLit text span [])
  | null {text span} : IsExpr (.node .pairLit text span [])
  | ident {n} : IsIdent n → IsExpr n
  | elem {text span name i is} :
    IsIdent name → IsExpr i → (∀ j ∈ is, IsExpr j) →
      IsExpr (.node .arrayElem text span (name :: i :: is))
  | paren {text span c} : IsExpr c → IsExpr (.node .paren text span [c])
  | unary {text span op c} :
    UnOp.ofText? text = some op → IsExpr c → IsExpr (.node .unary text span [c])
  | binary {text span op l r} :
    BinOp.ofText? text = some op → IsExpr l → IsExpr r → IsExpr (.node .binary text span [l, r])

/-! ## Places and values -/

/-- A place to store into. -/
inductive IsTarget : Tree → Prop
  | ident {n} : IsIdent n → IsTarget n
  | elem {text span name i is} :
    IsIdent name → IsExpr i → (∀ j ∈ is, IsExpr j) →
      IsTarget (.node .arrayElem text span (name :: i :: is))
  | slot {text span c} :
    IsTarget c → IsTarget (.node .pairElem text span [c])

/-- An element of an array literal. -/
inductive IsItem : Tree → Prop
  | expr {n} : IsExpr n → IsItem n
  | array {text span cs} :
    (∀ c ∈ cs, IsItem c) → IsItem (.node .arrayLit text span cs)

inductive IsValue : Tree → Prop
  | item {n} : IsItem n → IsValue n
  | newPair {text span a b} :
    IsExpr a → IsExpr b → IsValue (.node .newPair text span [a, b])
  | slot {text span c} :
    IsTarget c → IsValue (.node .pairElem text span [c])
  | call {text text' span span' name args} :
    IsIdent name → (∀ a ∈ args, IsExpr a) →
      IsValue (.node .call text span [name, .node .argList text' span' args])

/-! ## Statements, functions and programs -/

def isWord : NodeKind → Bool
  | .free | .return | .exit | .print | .println => true
  | _ => false

inductive IsStat : Tree → Prop
  | skip {text span} : IsStat (.node .skip text span [])
  | declare {text span t name v} :
    IsType t → IsIdent name → IsValue v → IsStat (.node .declare text span [t, name, v])
  | assign {text span l v} :
    IsTarget l → IsValue v → IsStat (.node .assign text span [l, v])
  | read {text span l} : IsTarget l → IsStat (.node .read text span [l])
  | word {k text span e} :
    isWord k = true → IsExpr e → IsStat (.node k text span [e])
  | ifThen {text span c a} :
    IsExpr c → IsStat a → IsStat (.node .if text span [c, a])
  | ifElse {text span c a b} :
    IsExpr c → IsStat a → IsStat b → IsStat (.node .if text span [c, a, b])
  | while {text span c b} :
    IsExpr c → IsStat b → IsStat (.node .while text span [c, b])
  | for {text span i c s b} :
    IsStat i → IsExpr c → IsStat s → IsStat b → IsStat (.node .for text span [i, c, s, b])
  | block {text span b} : IsStat b → IsStat (.node .block text span [b])
  | seq {text span ss} :
    (∀ s ∈ ss, IsStat s) → IsStat (.node .seq text span ss)

inductive IsParam : Tree → Prop
  | mk {text span t name} :
    IsType t → IsIdent name → IsParam (.node .param text span [t, name])

inductive IsFunc : Tree → Prop
  | mk {text text' span span' t name b ps} :
    IsType t → IsIdent name → (∀ p ∈ ps, IsParam p) → IsStat b →
      IsFunc (.node .func text span [t, name, .node .paramList text' span' ps, b])

inductive IsProgram : Tree → Prop
  | mk {text span fs main} :
    (∀ f ∈ fs, IsFunc f) → IsStat main → IsProgram (.node .program text span (fs ++ [main]))

theorem IsType.weight_ge {n : Tree} (h : IsType n) : 3 ≤ n.weight := by
  induction h with
  | base | bare => simp [NodeKind.weight]
  | array _ ih => simp; omega
  | pair => simp [NodeKind.weight]

theorem IsIdent.weight_eq {n : Tree} (h : IsIdent n) : n.weight = 1 := by
  cases h; simp [NodeKind.weight]

end Tree

end Wacc
