/-
  Programs with resolved names and types.

  Every expression knows its span and its type, every statement its span and the scope it runs in.
  Variables and functions are referred to by their numbers in the symbol table of the program.
-/
import Wacc.Ast.Operator
import Wacc.Table.Basic

namespace Wacc

structure Ident where
  span : Span
  type : Ty
  name : Text
  var : VarId
  deriving DecidableEq, Repr, Inhabited

inductive Expr where
  | int (span : Span) (value : Int)
  | bool (span : Span) (value : Bool)
  | char (span : Span) (value : UInt8)
  | str (span : Span) (value : Text)
  | null (span : Span)
  | var (id : Ident)
  | elem (span : Span) (type : Ty) (array : Ident) (indices : List Expr)
  | unary (span : Span) (type : Ty) (op : UnOp) (operand : Expr)
  | binary (span : Span) (type : Ty) (op : BinOp) (left right : Expr)
  deriving Repr, Inhabited

namespace Expr

def type : Expr → Ty
  | .int _ _ => .int
  | .bool _ _ => .bool
  | .char _ _ => .char
  | .str _ _ => .string
  | .null _ => .anyPair
  | .var id => id.type
  | .elem _ t _ _ | .unary _ t _ _ | .binary _ t _ _ _ => t

def span : Expr → Span
  | .int s _ | .bool s _ | .char s _ | .str s _ | .null s => s
  | .var id => id.span
  | .elem s _ _ _ | .unary s _ _ _ | .binary s _ _ _ _ => s

end Expr

inductive Target where
  | var (id : Ident)
  | elem (span : Span) (type : Ty) (array : Ident) (indices : List Expr)
  | slot (span : Span) (type : Ty) (snd : Bool) (pair : Target)
  deriving Repr, Inhabited

namespace Target

def type : Target → Ty
  | .var id => id.type
  | .elem _ t _ _ | .slot _ t _ _ => t

def span : Target → Span
  | .var id => id.span
  | .elem s _ _ _ | .slot s _ _ _ => s

end Target

inductive Value where
  | expr (e : Expr)
  | array (span : Span) (type : Ty) (elems : List Value)
  | newPair (span : Span) (fst snd : Expr)
  | slot (span : Span) (type : Ty) (snd : Bool) (pair : Target)
  | call (span : Span) (type : Ty) (func : FuncId) (name : Text) (args : List Expr)
  deriving Repr, Inhabited

namespace Value

def type : Value → Ty
  | .expr e => e.type
  | .array _ t _ | .slot _ t _ _ | .call _ t _ _ _ => t
  | .newPair _ a b => .pair a.type b.type

def span : Value → Span
  | .expr e => e.span
  | .array s _ _ | .newPair s _ _ | .slot s _ _ _ | .call s _ _ _ _ => s

end Value

structure Site where
  span : Span := {}
  scope : ScopeId
  deriving DecidableEq, Repr, Inhabited

mutual

inductive Stat where
  | skip (site : Site)
  | declare (site : Site) (var : VarId) (name : Text) (type : Ty) (value : Value)
  | assign (site : Site) (target : Target) (value : Value)
  | read (site : Site) (target : Target)
  | free (site : Site) (value : Expr)
  | ret (site : Site) (value : Expr)
  | exit (site : Site) (code : Expr)
  | print (site : Site) (value : Expr) (newline : Bool)
  | block (body : Block)
  | ifThen (site : Site) (cond : Expr) (yes : Block)
  | ifElse (site : Site) (cond : Expr) (yes no : Block)
  | while (site : Site) (cond : Expr) (body : Block)
  /-- the first statement, the condition and the step run in the scope `header` -/
  | for (site : Site) (header : ScopeId) (init : Stat) (cond : Expr) (step : Stat) (body : Block)
  | seq (site : Site) (stats : List Stat)

inductive Block where
  | mk (site : Site) (inner : ScopeId) (body : Stat)

end

instance : Inhabited Stat := ⟨.skip ⟨{}, 0⟩⟩

namespace Block

def inner : Block → ScopeId
  | .mk _ i _ => i

def body : Block → Stat
  | .mk _ _ b => b

end Block

namespace Stat

def flatten : Stat → List Stat
  | .seq _ ss => ss
  | s => [s]

def sequence (site : Site) (ss : List Stat) : Stat := .seq site (ss.flatMap flatten)

end Stat

/-- A function.  Its parameters live in `scope`, its body is a block in it. -/
structure Func where
  id : FuncId
  name : Text
  result : Ty
  params : List VarId
  scope : ScopeId
  body : Block
  span : Span

/-- A program: its functions, and the statement that runs in the global scope. -/
structure Program where
  funcs : List Func
  body : Stat
  table : Table
  span : Span := {}

end Wacc
