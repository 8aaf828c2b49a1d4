/-
  The outline of a program: a tree of labels drawn with lines.
-/
import Wacc.Ast.Basic

namespace Wacc

inductive Outline where
  | node (label : Text) (children : List Outline)

namespace Outline

mutual

def branches (margin : Text) : List Outline → List Text
  | [] => []
  | [o] => branch (margin ++ lit "└─ ") (margin ++ lit "   ") o
  | o :: p :: rest =>
    branch (margin ++ lit "├─ ") (margin ++ lit "│  ") o ++ branches margin (p :: rest)

def branch (first margin : Text) : Outline → List Text
  | .node label cs => (first ++ label) :: branches margin cs

end

def render (o : Outline) : Text := (branch [] [] o).flatMap (· ++ lit "\n")

def leaf (label : Text) : Outline := .node label []

def typed (label : Text) (t : Ty) : Text := label ++ lit " : " ++ t.render

mutual

def ofExpr : Expr → Outline
  | .int _ n => leaf (lit "IntLit " ++ decimalInt n ++ lit " : int")
  | .bool _ b => leaf (lit "BoolLit " ++ (if b then lit "true" else lit "false") ++ lit " : bool")
  | .char _ c => leaf (lit "CharLit " ++ Quoted.quoteChar c.toNat ++ lit " : char")
  | .str _ s => leaf (lit "StrLit " ++ Quoted.quote s ++ lit " : string")
  | .null _ => leaf (lit "PairLit null : pair")
  | .var id => leaf (typed (lit "Ident " ++ id.name) id.type)
  | .elem _ t id is => .node (typed (lit "ArrayElem " ++ id.name) t) (ofExprs is)
  | .unary _ t op e => .node (typed (lit "Unary " ++ op.render) t) [ofExpr e]
  | .binary _ t op l r => .node (typed (lit "Binary " ++ op.render) t) [ofExpr l, ofExpr r]

def ofExprs : List Expr → List Outline
  | [] => []
  | e :: es => ofExpr e :: ofExprs es

end

def slotWord (snd : Bool) : Text := if snd then lit "snd" else lit "fst"

def ofTarget : Target → Outline
  | .var id => ofExpr (.var id)
  | .elem s t id is => ofExpr (.elem s t id is)
  | .slot _ t snd p => .node (typed (lit "PairElem " ++ slotWord snd) t) [ofTarget p]

mutual

def ofValue : Value → Outline
  | .expr e => ofExpr e
  | .array _ t vs => .node (typed (lit "ArrayLit") t) (ofValues vs)
  | .newPair s a b => .node (typed (lit "NewPair") (Value.newPair s a b).type) [ofExpr a, ofExpr b]
  | .slot _ t snd p => .node (typed (lit "PairElem " ++ slotWord snd) t) [ofTarget p]
  | .call _ t _ name args => .node (typed (lit "Call " ++ name) t) (ofExprs args)

def ofValues : List Value → List Outline
  | [] => []
  | v :: vs => ofValue v :: ofValues vs

end

def frame (t : Table) (scope : ScopeId) : Text :=
  decimal (((t.scope? scope).map Scope.footprint).getD 0).toNat ++ lit " bytes"

def children : Outline → List Outline
  | .node _ cs => cs

def spread (s : Stat) (o : Outline) : List Outline :=
  match s with
  | .seq _ _ => o.children
  | _ => [o]

mutual

def ofStat (t : Table) : Stat → Outline
  | .skip _ => leaf (lit "Skip")
  | .declare _ _ name type v => .node (lit "Declare " ++ type.render ++ lit " " ++ name) [ofValue v]
  | .assign _ l v => .node (lit "Assign") [ofTarget l, ofValue v]
  | .read _ l => .node (lit "Read") [ofTarget l]
  | .free _ e => .node (lit "Free") [ofExpr e]
  | .ret _ e => .node (lit "Return") [ofExpr e]
  | .exit _ e => .node (lit "Exit") [ofExpr e]
  | .print _ e newline => .node (if newline then lit "Println" else lit "Print") [ofExpr e]
  | .block b => ofBlock t (lit "Block") b
  | .ifThen _ c a => .node (lit "If") [.node (lit "Cond") [ofExpr c], ofBlock t (lit "Then") a]
  | .ifElse _ c a b =>
    .node (lit "If") [.node (lit "Cond") [ofExpr c], ofBlock t (lit "Then") a, ofBlock t (lit "Else") b]
  | .while _ c b => .node (lit "While") [.node (lit "Cond") [ofExpr c], ofBlock t (lit "Body") b]
  | .for _ header init c step b =>
    .node (lit "For (header frame: " ++ frame t header ++ lit ")")
      [.node (lit "Init") (spread init (ofStat t init)), .node (lit "Cond") [ofExpr c],
       .node (lit "Step") (spread step (ofStat t step)), ofBlock t (lit "Body") b]
  | .seq _ ss => .node (lit "Seq") (ofStats t ss)

def ofBlock (t : Table) (name : Text) : Block → Outline
  | .mk _ inner body => .node (name ++ lit " (frame: " ++ frame t inner ++ lit ")") (spread body (ofStat t body))

def ofStats (t : Table) : List Stat → List Outline
  | [] => []
  | s :: ss => ofStat t s :: ofStats t ss

end

def parameter (t : Table) (id : VarId) : Text :=
  match t.var? id with
  | some v => v.type.render ++ lit " " ++ v.name
  | none => []

def ofFunc (t : Table) (f : Func) : Outline :=
  .node (lit "Func " ++ f.name ++ lit "(" ++ Text.joinWith (lit ", ") (f.params.map (parameter t)) ++
    lit ") " ++ f.result.render ++ lit " (params: " ++ frame t f.scope ++ lit ")")
    (spread f.body.body (ofStat t f.body.body))

def ofProgram (p : Program) : Outline :=
  .node (lit "Program (global frame: " ++ frame p.table Table.global ++ lit ")")
    (p.funcs.map (ofFunc p.table) ++ [.node (lit "Main") (spread p.body (ofStat p.table p.body))])

end Outline

end Wacc
