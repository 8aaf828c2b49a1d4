/-
  Typing of expressions.

  Expressions are typed against a table that they do not change.  Every part of an expression is
  typed on its own, so that all independent problems are found.
-/
import Wacc.Typing.Problem
import Wacc.Token.Literal
import Wacc.Tree.Basic

namespace Wacc.Typing

def digitsValue (t : Text) : Nat := t.foldl (fun n b => 10 * n + (b.toNat - 48)) 0

/-- The integer that a text spells: an optional sign and at least one digit. -/
def integer? (t : Text) : Option Int :=
  let isDigit (b : UInt8) : Bool := '0'.toUInt8 ≤ b && b ≤ '9'.toUInt8
  let digits (d : Text) : Option Nat :=
    if d.isEmpty || !d.all isDigit then none else some (digitsValue d)
  match t with
  | [] => none
  | b :: rest =>
    if b = '-'.toUInt8 then (digits rest).map fun n => -(n : Int)
    else if b = '+'.toUInt8 then (digits rest).map Int.ofNat
    else (digits t).map Int.ofNat

def fits (n : Int) : Bool := -2147483648 ≤ n && n ≤ 2147483647

def intLit (text : Text) (span : Span) : Checked Expr :=
  match integer? text with
  | some n => if fits n then .ok (.int span n) else (Problem.literalRange text).fails span
  | none => (Problem.literalRange text).fails span

def ident (t : Table) (scope : ScopeId) (name : Text) (span : Span) : Checked Ident :=
  match t.lookup scope name with
  | none => (Problem.undefined name).fails span
  | some id =>
    match t.var? id with
    | none => (Problem.undefined name).fails span
    | some v => .ok ⟨span, v.type, name, id⟩

def expectType (want : Ty) (role : Role) (e : Checked Expr) : Checked Expr :=
  e.bind fun e =>
    if want.accepts e.type then .ok e else (Problem.wrongType role want e.type).fails e.span

/-- An element of an array: no more indices than dimensions, each an integer. -/
def element (span : Span) (array : Checked Ident) (indices : List (Checked Expr)) :
    Except Fault (Checked (Ty × Ident × List Expr)) :=
  match array, Checked.all (indices.map (expectType .int .index)) with
  | .ok id, .ok is =>
    match id.type with
    | .array _ depth =>
      if depth.toNat < is.length then
        .ok ((Problem.tooManyIndices id.name id.type is.length).fails span)
      else do
        let t ← id.type.nested is.length.toUInt32
        return .ok (t, id, is)
    | t => .ok ((Problem.notIndexable id.name t).fails span)
  | .ok _, .bad d ds => .ok (.bad d ds)
  | .bad d ds, is => .ok (.bad d (ds ++ is.problems))

def applyUnary (span : Span) (op : UnOp) (rule : UnRule) (operand : Checked Expr) : Checked Expr :=
  operand.bind fun e =>
    if rule.operand.accepts e.type then .ok (.unary span rule.result op e)
    else (Problem.unaryOperand op rule.operand e.type).fails e.span

def binaryOperand (op : BinOp) (rule : BinRule) (e : Checked Expr) : Checked Expr :=
  e.bind fun e =>
    if rule.operands.accepts e.type then .ok e
    else (Problem.binaryOperand op rule.operands e.type).fails e.span

def applyBinary (span : Span) (op : BinOp) (rule : BinRule) (l r : Checked Expr) : Checked Expr :=
  Checked.bind2 (binaryOperand op rule l) (binaryOperand op rule r) fun l r =>
    if rule.sameType && !l.type.accepts r.type && !r.type.accepts l.type then
      (Problem.differentTypes op l.type r.type).fails span
    else .ok (.binary span rule.result op l r)

mutual

def expr (t : Table) (scope : ScopeId) : Tree → Except Fault (Checked Expr)
  | .missing => .error (.notExpression NodeKind.invalid.name)
  | .node k text span cs =>
    match k, cs with
    | .intLit, _ => .ok (intLit text span)
    | .boolLit, _ => .ok (.ok (.bool span (text == lit "true")))
    | .charLit, _ =>
      match Literal.char text with
      | .ok c => .ok (.ok (.char span c))
      | .error e => .error (.badChar text e.message)
    | .strLit, _ =>
      match Literal.string text with
      | .ok s => .ok (.ok (.str span s))
      | .error e => .error (.badString text e.message)
    | .pairLit, _ => .ok (.ok (.null span))
    | .ident, _ => .ok ((ident t scope text span).map Expr.var)
    | .arrayElem, name :: indices => do
      let is ← exprs t scope indices
      let e ← element span (ident t scope name.text name.span) is
      return e.map fun (type, id, is) => .elem span type id is
    | .paren, c :: _ => expr t scope c
    | .unary, c :: _ =>
      match UnOp.ofText? text with
      | none => .error (.unknownUnary text)
      | some op =>
        match op.rule? with
        | none => .error (.unknownUnary text)
        | some rule => do return applyUnary span op rule (← expr t scope c)
    | .binary, l :: r :: _ =>
      match BinOp.ofText? text with
      | none => .error (.unknownBinary text)
      | some op =>
        match op.rule? with
        | none => .error (.unknownBinary text)
        | some rule => do return applyBinary span op rule (← expr t scope l) (← expr t scope r)
    | k, _ => .error (.notExpression k.name)

def exprs (t : Table) (scope : ScopeId) : List Tree → Except Fault (List (Checked Expr))
  | [] => .ok []
  | c :: cs => do return (← expr t scope c) :: (← exprs t scope cs)

end

end Wacc.Typing
