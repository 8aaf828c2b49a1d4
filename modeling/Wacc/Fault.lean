/-
  Faults: broken invariants of the compiler itself.

  A fault is never the answer to a wrong source text; it says that one part of the compiler handed
  another something it must not.
-/
import Wacc.Text.Quoted

namespace Wacc

inductive Fault where
  | noDiagnostics
  | notArray (type : Text)
  | tooManyIndices (type : Text) (count : UInt32)
  | notProgram
  | notStatement (kind : Text)
  | notType (kind text : Text)
  | notTarget (kind : Text)
  | notExpression (kind : Text)
  | badChar (text reason : Text)
  | badString (text reason : Text)
  | unknownUnary (text : Text)
  | unknownBinary (text : Text)
  | unbalancedScope (scope : UInt32) (depth entry : Int)
  /-- a variable is used where none of its scopes is open -/
  | outsideFrame (name : Text)
  | belowStack (name : Text) (offset : Int)
  | unbalancedReturn (depth : Int)
  | unbalancedFrames (unwound depth : Int)
  | noRegister
  | arrayRegisters
  | pairRegisters
  | badUnary (op : Text)
  | badBinary (op : Text)
  | unreadable (type : Text)
  | noScope (id : UInt32)
  | noFunction (id : UInt32)
  deriving DecidableEq, Repr

namespace Fault

def site : Fault → Text
  | noDiagnostics => lit "diag.Fail"
  | notArray _ => lit "types.Peel"
  | tooManyIndices _ _ => lit "types.Nested"
  | notProgram => lit "sema.Build"
  | notStatement _ => lit "sema.stat"
  | notType _ _ => lit "sema.resolveType"
  | notTarget _ => lit "sema.lhs"
  | notExpression _ | badChar _ _ | badString _ _ => lit "sema.expr"
  | unknownUnary _ => lit "sema.unary"
  | unknownBinary _ => lit "sema.binary"
  | unbalancedScope _ _ _ => lit "arm.leave"
  | outsideFrame _ | belowStack _ _ => lit "arm.slot"
  | unbalancedReturn _ => lit "arm.popPC"
  | unbalancedFrames _ _ => lit "arm.ret"
  | noRegister => lit "arm.expr"
  | arrayRegisters => lit "arm.arrayLit"
  | pairRegisters => lit "arm.newPair"
  | badUnary _ => lit "arm.unary"
  | badBinary _ => lit "arm.apply"
  | unreadable _ => lit "arm.read"
  | noScope _ => lit "symbols.Declare"
  | noFunction _ => lit "symbols.BindParam"

def detail : Fault → Text
  | noDiagnostics => lit "failed result without diagnostics"
  | notArray t => t ++ lit " is not an array"
  | tooManyIndices t n => lit "cannot index " ++ t ++ lit " " ++ decimal n.toNat ++ lit " times"
  | notProgram => lit "expected a program tree"
  | notStatement k => lit "unexpected statement node " ++ k
  | notType k t => lit "unexpected type node " ++ k ++ lit " " ++ Quoted.quote t
  | notTarget k => lit "unexpected assignment target " ++ k
  | notExpression k => lit "unexpected expression node " ++ k
  | badChar t r => lit "lexer accepted bad char literal " ++ t ++ lit ": " ++ r
  | badString t r => lit "lexer accepted bad string literal " ++ t ++ lit ": " ++ r
  | unknownUnary t => lit "unknown unary operator " ++ Quoted.quote t
  | unknownBinary t => lit "unknown binary operator " ++ Quoted.quote t
  | unbalancedScope s d e =>
    lit "scope " ++ decimal s.toNat ++ lit " left at depth " ++ decimalInt d ++ lit ", entered at " ++
      decimalInt e
  | outsideFrame v => lit "variable " ++ Quoted.quote v ++ lit " used outside its frame"
  | belowStack v o =>
    lit "variable " ++ Quoted.quote v ++ lit " at negative offset " ++ decimalInt o
  | unbalancedReturn d => lit "returning with " ++ decimalInt d ++ lit " bytes on the stack"
  | unbalancedFrames u d =>
    lit "frames hold " ++ decimalInt u ++ lit " bytes, stack depth is " ++ decimalInt d
  | noRegister => lit "empty register pool"
  | arrayRegisters => lit "array literal needs two registers"
  | pairRegisters => lit "newpair needs two registers"
  | badUnary o | badBinary o => lit "unexpected operator " ++ o
  | unreadable t => lit "cannot read into " ++ t
  | noScope id => lit "invalid scope " ++ decimal id.toNat
  | noFunction id => lit "invalid function " ++ decimal id.toNat

/-- Whether the fault is announced as an error of the compiler; the misuse of a table is not. -/
def announced : Fault → Bool
  | noScope _ | noFunction _ => false
  | _ => true

def message (f : Fault) : Text :=
  (if f.announced then lit "internal compiler error in " else []) ++ f.site ++ lit ": " ++ f.detail

end Fault

end Wacc
