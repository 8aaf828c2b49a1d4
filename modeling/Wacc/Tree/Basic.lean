/-
  Concrete trees.

  A tree has a kind, a text (a name, a literal or an operator), a span and children.  A child that
  is not there is `missing`; the parser never builds one.
-/
import Wacc.Source.Span

namespace Wacc

inductive NodeKind where
  | invalid
  | program
  | func
  | paramList
  | param
  | baseType
  | arrayType
  | pairType
  | barePair
  | skip
  | declare
  | assign
  | read
  | free
  | «return»
  | exit
  | print
  | println
  | «if»
  | while
  | «for»
  | block
  | seq
  | ident
  | arrayElem
  | pairElem
  | arrayLit
  | newPair
  | call
  | argList
  /-- the text is the digits, with a minus sign if there is one -/
  | intLit
  | boolLit
  | charLit
  | strLit
  | pairLit
  | unary
  | binary
  | paren
  | unknown
  deriving DecidableEq, Repr, Inhabited

namespace NodeKind

def name : NodeKind → Text
  | .invalid => lit "Invalid"
  | .program => lit "Program"
  | .func => lit "Func"
  | .paramList => lit "ParamList"
  | .param => lit "Param"
  | .baseType => lit "BaseType"
  | .arrayType => lit "ArrayType"
  | .pairType => lit "PairType"
  | .barePair => lit "BarePair"
  | .skip => lit "Skip"
  | .declare => lit "Declare"
  | .assign => lit "Assign"
  | .read => lit "Read"
  | .free => lit "Free"
  | .return => lit "Return"
  | .exit => lit "Exit"
  | .print => lit "Print"
  | .println => lit "Println"
  | .if => lit "If"
  | .while => lit "While"
  | .for => lit "For"
  | .block => lit "Block"
  | .seq => lit "Seq"
  | .ident => lit "Ident"
  | .arrayElem => lit "ArrayElem"
  | .pairElem => lit "PairElem"
  | .arrayLit => lit "ArrayLit"
  | .newPair => lit "NewPair"
  | .call => lit "Call"
  | .argList => lit "ArgList"
  | .intLit => lit "IntLit"
  | .boolLit => lit "BoolLit"
  | .charLit => lit "CharLit"
  | .strLit => lit "StrLit"
  | .pairLit => lit "PairLit"
  | .unary => lit "Unary"
  | .binary => lit "Binary"
  | .paren => lit "Paren"
  | .unknown => lit "Kind(255)"

def all : List NodeKind :=
  [.invalid, .program, .func, .paramList, .param, .baseType, .arrayType, .pairType, .barePair, .skip,
   .declare, .assign, .read, .free, .return, .exit, .print, .println, .if, .while, .for, .block, .seq,
   .ident, .arrayElem, .pairElem, .arrayLit, .newPair, .call, .argList, .intLit, .boolLit, .charLit,
   .strLit, .pairLit, .unary, .binary, .paren]

def ofName (name : Text) : NodeKind := (all.find? (·.name == name)).getD .unknown

end NodeKind

inductive Tree where
  | missing
  | node (kind : NodeKind) (text : Text) (span : Span) (children : List Tree)
  deriving Repr, Inhabited

namespace Tree

def span? : Tree → Option Span
  | .missing => none
  | .node _ _ s _ => some s

def span (t : Tree) : Span := t.span?.getD {}

def kind : Tree → NodeKind
  | .missing => .invalid
  | .node k _ _ _ => k

def text : Tree → Text
  | .missing => []
  | .node _ t _ _ => t

def children : Tree → List Tree
  | .missing => []
  | .node _ _ _ cs => cs

def widen (s : Span) (child : Tree) : Span :=
  match child.span? with
  | none => s
  | some c => if s.empty then c else s.cover c

def make (kind : NodeKind) (text : Text) (span : Span) (children : List Tree) : Tree :=
  .node kind text (children.foldl widen span) children

def child (t : Tree) (i : Int) : Tree :=
  match i with
  | .ofNat n => (t.children[n]?).getD .missing
  | .negSucc _ => .missing

mutual

def render : Tree → Text
  | .missing => lit "nil"
  | .node k t _ cs =>
    lit "(" ++ k.name ++ (if t.isEmpty then [] else lit " " ++ t) ++ renderAll cs ++ lit ")"

def renderAll : List Tree → Text
  | [] => []
  | c :: cs => lit " " ++ render c ++ renderAll cs

end

mutual

def preorder : Tree → List Tree
  | .missing => [.missing]
  | .node k t s cs => .node k t s cs :: preorderAll cs

def preorderAll : List Tree → List Tree
  | [] => []
  | c :: cs => preorder c ++ preorderAll cs

end

end Tree

end Wacc
