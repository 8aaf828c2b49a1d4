/-
  Operators and their typing rules.

  A rule says which family of types the operands come from, whether the types of both operands
  have to match, and the type of the result.
-/
import Wacc.Ty

namespace Wacc

/-- Binary operators.  `unknown` is a code that means nothing. -/
inductive BinOp where
  | mul
  | div
  | mod
  | add
  | sub
  | greater
  | greaterEq
  | less
  | lessEq
  | eq
  | notEq
  | and
  | or
  | unknown (code : UInt8)
  deriving DecidableEq, Repr, Inhabited

namespace BinOp

/-- The operators with their symbols, in the order of the codes from one on. -/
def table : List (BinOp × Text) :=
  [(.mul, lit "*"), (.div, lit "/"), (.mod, lit "%"), (.add, lit "+"), (.sub, lit "-"),
   (.greater, lit ">"), (.greaterEq, lit ">="), (.less, lit "<"), (.lessEq, lit "<="),
   (.eq, lit "=="), (.notEq, lit "!="), (.and, lit "&&"), (.or, lit "||")]

def ofCode (n : UInt8) : BinOp :=
  if n = 0 then .unknown 0
  else match table[n.toNat - 1]? with
    | some (op, _) => op
    | none => .unknown n

def code : BinOp → Nat
  | .unknown n => n.toNat
  | op => table.findIdx (·.1 == op) + 1

def ofText? (t : Text) : Option BinOp := (table.find? (·.2 == t)).map (·.1)

def render : BinOp → Text
  | .mul => lit "*"
  | .div => lit "/"
  | .mod => lit "%"
  | .add => lit "+"
  | .sub => lit "-"
  | .greater => lit ">"
  | .greaterEq => lit ">="
  | .less => lit "<"
  | .lessEq => lit "<="
  | .eq => lit "=="
  | .notEq => lit "!="
  | .and => lit "&&"
  | .or => lit "||"
  | .unknown n => lit "ExprBinaryOp(" ++ decimal n.toNat ++ lit ")"

def isComparison : BinOp → Bool
  | .greater | .greaterEq | .less | .lessEq | .eq | .notEq => true
  | _ => false

end BinOp

/-- Unary operators.  `unknown` is a code that means nothing. -/
inductive UnOp where
  | not
  | minus
  | len
  | ord
  | chr
  | unknown (code : UInt8)
  deriving DecidableEq, Repr, Inhabited

namespace UnOp

/-- The operators with their symbols, in the order of the codes from one on. -/
def table : List (UnOp × Text) :=
  [(.not, lit "!"), (.minus, lit "-"), (.len, lit "len"), (.ord, lit "ord"), (.chr, lit "chr")]

def ofCode (n : UInt8) : UnOp :=
  if n = 0 then .unknown 0
  else match table[n.toNat - 1]? with
    | some (op, _) => op
    | none => .unknown n

def code : UnOp → Nat
  | .unknown n => n.toNat
  | op => table.findIdx (·.1 == op) + 1

def ofText? (t : Text) : Option UnOp := (table.find? (·.2 == t)).map (·.1)

def render : UnOp → Text
  | .not => lit "!"
  | .minus => lit "-"
  | .len => lit "len"
  | .ord => lit "ord"
  | .chr => lit "chr"
  | .unknown n => lit "ExprUnaryOp(" ++ decimal n.toNat ++ lit ")"

end UnOp

/-! ## Typing rules -/

inductive Family where
  | int
  | bool
  | char
  | array
  | intOrChar
  | any
  deriving DecidableEq, Repr, Inhabited

namespace Family

def accepts : Family → Ty → Bool
  | .int, .int | .bool, .bool | .char, .char => true
  | .array, .array _ _ | .array, .emptyArray => true
  | .intOrChar, .int | .intOrChar, .char => true
  | .any, _ => true
  | _, _ => false

def render : Family → Text
  | .int => lit "int"
  | .bool => lit "bool"
  | .char => lit "char"
  | .array => lit "an array"
  | .intOrChar => lit "int or char"
  | .any => lit "any type"

end Family

structure BinRule where
  operands : Family
  result : Ty
  sameType : Bool := false
  deriving DecidableEq, Repr

structure UnRule where
  operand : Family
  result : Ty
  deriving DecidableEq, Repr

def BinOp.rule? : BinOp → Option BinRule
  | .mul | .div | .mod | .add | .sub => some ⟨.int, .int, false⟩
  | .greater | .greaterEq | .less | .lessEq => some ⟨.intOrChar, .bool, true⟩
  | .eq | .notEq => some ⟨.any, .bool, true⟩
  | .and | .or => some ⟨.bool, .bool, false⟩
  | .unknown _ => none

def UnOp.rule? : UnOp → Option UnRule
  | .not => some ⟨.bool, .bool⟩
  | .minus => some ⟨.int, .int⟩
  | .len => some ⟨.array, .int⟩
  | .ord => some ⟨.char, .int⟩
  | .chr => some ⟨.int, .char⟩
  | .unknown _ => none

end Wacc
