/-
  Typing of written types, of places to store into and of values to store.
-/
import Wacc.Typing.Expr

namespace Wacc.Typing

def type : Tree → Except Fault Ty
  | .missing => .error (.notType NodeKind.invalid.name [])
  | .node k text _ cs =>
    match k, cs with
    | .baseType, _ =>
      if text = lit "int" then .ok .int
      else if text = lit "bool" then .ok .bool
      else if text = lit "char" then .ok .char
      else if text = lit "string" then .ok .string
      else .error (.notType k.name text)
    | .arrayType, c :: _ => do return (← type c).arrayOf
    | .pairType, a :: b :: _ => do return .pair (← type a) (← type b)
    | .barePair, _ => .ok .anyPair
    | k, _ => .error (.notType k.name text)

def slot (span : Span) (word : Text) (pair : Checked Target) : Checked (Ty × Bool × Target) :=
  pair.bind fun p =>
    let snd := word == lit "snd"
    match p.type with
    | .pair a b => .ok (if snd then b else a, snd, p)
    | .anyPair => (Problem.untypedPair word).fails span
    | t => (Problem.notPair word t).fails p.span

def target (t : Table) (scope : ScopeId) : Tree → Except Fault (Checked Target)
  | .missing => .error (.notTarget NodeKind.invalid.name)
  | .node k text span cs =>
    match k, cs with
    | .ident, _ => .ok ((ident t scope text span).map Target.var)
    | .arrayElem, name :: indices => do
      let is ← exprs t scope indices
      let e ← element span (ident t scope name.text name.span) is
      return e.map fun (type, id, is) => .elem span type id is
    | .pairElem, c :: _ => do
      return (slot span text (← target t scope c)).map fun (type, snd, p) => .slot span type snd p
    | k, _ => .error (.notTarget k.name)

def isOpen : Ty → Bool
  | .emptyArray | .anyPair => true
  | _ => false

/-- The element type after one more element, and the problem with that element. -/
def joinElement (elem : Ty) (v : Value) : Ty × List Diagnostic :=
  let t := v.type
  if elem.accepts t then (if isOpen elem && !isOpen t then t else elem, [])
  else if t.accepts elem then (t, [])
  else (elem, [(Problem.elementType t elem).diagnostic v.span])

def joinElements (elem : Ty) : List Value → Ty × List Diagnostic
  | [] => (elem, [])
  | v :: vs =>
    let (elem, ds) := joinElement elem v
    let (elem, es) := joinElements elem vs
    (elem, ds ++ es)

def arrayOf (span : Span) : List Value → Checked Value
  | [] => .ok (.array span .emptyArray [])
  | v :: vs =>
    let (elem, ds) := joinElements v.type vs
    Checked.check (.ok (.array span elem.arrayOf (v :: vs))) ds

mutual

def item (t : Table) (scope : ScopeId) : Tree → Except Fault (Checked Value)
  | .missing => .error (.notExpression NodeKind.invalid.name)
  | .node k text span cs =>
    match k with
    | .arrayLit => do return (Checked.all (← items t scope cs)).bind (arrayOf span)
    | k => do return (← expr t scope (.node k text span cs)).map Value.expr

def items (t : Table) (scope : ScopeId) : List Tree → Except Fault (List (Checked Value))
  | [] => .ok []
  | c :: cs => do return (← item t scope c) :: (← items t scope cs)

end

def matchArguments (t : Table) (func : Text) : List VarId → List (Checked Expr) → List (Checked Expr)
  | p :: ps, a :: as =>
    (match t.var? p with
      | some v => expectType v.type (.argument v.name func) a
      | none => a) :: matchArguments t func ps as
  | _, as => as

/-- A call: the function must be there, take that many arguments, and each must fit. -/
def call (t : Table) (span : Span) (name : Tree) (args : List (Checked Expr)) : Checked Value :=
  match (t.lookupFunc name.text).bind fun id => (t.func? id).map fun f => (id, f) with
  | none => (Checked.all args).refuse ((Problem.undefinedFunction name.text).diagnostic name.span)
  | some (id, f) =>
    if args.length ≠ f.params.length then
      (Checked.all args).refuse
        ((Problem.argumentCount f.name f.params.length args.length).diagnostic span)
    else (Checked.all (matchArguments t f.name f.params args)).map (.call span f.result id f.name)

def value (t : Table) (scope : ScopeId) (n : Tree) : Except Fault (Checked Value) :=
  match n with
  | .node .newPair _ span (a :: b :: _) => do
    return Checked.map2 (.newPair span) (← expr t scope a) (← expr t scope b)
  | .node .pairElem text span (c :: _) => do
    return (slot span text (← target t scope c)).map fun (type, snd, p) => .slot span type snd p
  | .node .call _ span (name :: args :: _) => do
    return call t span name (← exprs t scope args.children)
  | n => item t scope n

end Wacc.Typing
