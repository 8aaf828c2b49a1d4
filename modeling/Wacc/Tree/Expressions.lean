/-
  Rules for expressions.

    expr   = six levels of binary operators over unary, all grouped to the left
    unary  = "-" integer | ("!" | "-" | "len" | "ord" | "chr") unary | atom
    atom   = integer | "true" | "false" | character | string | "null" | element | "(" expr ")"
    element = name ("[" expr "]")*

  A minus before an integer literal belongs to the literal.
-/
import Wacc.Tree.Types

namespace Wacc.Rule

def levels : List (List Kind) :=
  [[.orOr], [.andAnd], [.eqEq, .bangEq], [.gt, .gtEq, .lt, .ltEq], [.plus, .minus],
   [.star, .slash, .percent]]

def operandsStep (operand : Rule (Option Tree)) (ops : List Kind) (more : Tree → Rule (Option Tree))
    (left : Tree) : Rule (Option Tree) := do
  let op ← peek
  if ops.contains op.kind then
    let _ ← advance
    match ← operand with
    | none => return none
    | some right => more (.make .binary op.text left.span [left, right])
  else return some left

def operands (operand : Rule (Option Tree)) (ops : List Kind) : Nat → Tree → Rule (Option Tree)
  | 0 => fun left => pure (some left)
  | n + 1 => operandsStep operand ops (operands operand ops n)

def binary (inner : Rule (Option Tree)) : List (List Kind) → Rule (Option Tree)
  | [] => inner
  | ops :: tighter => do
    match ← binary inner tighter with
    | none => return none
    | some left => operands (binary inner tighter) ops (← fuel) left

def indicesStep (expr : Rule (Option Tree)) (more : Span × List Tree → Rule (Option Tree))
    (start : Span × List Tree) : Rule (Option Tree) := do
  if ← isAt .lbracket then
    let _ ← advance
    let index ← expr
    let closing ← symbol .rbracket
    match index, closing with
    | some i, some c => more (start.1.cover c.span, start.2 ++ [i])
    | _, _ => return none
  else return some (.node .arrayElem [] start.1 start.2)

def indices (expr : Rule (Option Tree)) : Nat → Span × List Tree → Rule (Option Tree)
  | 0 => fun _ => pure none
  | n + 1 => indicesStep expr (indices expr n)

def element (expr : Rule (Option Tree)) : Rule (Option Tree) := do
  match ← ident with
  | none => return none
  | some name =>
    if ← isAt .lbracket then indices expr (← fuel) (name.span, [name])
    else return some name

def isUnaryOp : Kind → Bool
  | .minus | .bang | .kwLen | .kwOrd | .kwChr => true
  | _ => false

def literalKind? : Kind → Option NodeKind
  | .intLit => some .intLit
  | .kwTrue | .kwFalse => some .boolLit
  | .charLit => some .charLit
  | .strLit => some .strLit
  | .kwNull => some .pairLit
  | _ => none

def atom (expr : Rule (Option Tree)) : Rule (Option Tree) := do
  let t ← peek
  match literalKind? t.kind with
  | some k =>
    let _ ← advance
    return some (leaf k t)
  | none =>
    if t.kind = .ident then element expr
    else if t.kind = .lparen then
      let _ ← advance
      let inner ← expr
      match ← symbol .rparen with
      | none => return none
      | some closing => return build .paren [] (t.span.cover closing.span) [inner]
    else
      complain .noExpression
      return none

def unaryStep (unary : Rule (Option Tree)) : Rule (Option Tree) := do
  let t ← peek
  let next := (← get).peekAt 1
  if t.kind = .minus ∧ next.kind = .intLit then
    let _ ← advance
    let _ ← advance
    return some (.make .intLit ('-'.toUInt8 :: next.text) (t.span.cover next.span) [])
  else if isUnaryOp t.kind then
    let _ ← advance
    return build .unary t.text t.span [← unary]
  else atom (binary unary levels)

def unary : Nat → Rule (Option Tree)
  | 0 => pure none
  | n + 1 => unaryStep (unary n)

def expr : Rule (Option Tree) := do binary (unary (← fuel)) levels

end Wacc.Rule
