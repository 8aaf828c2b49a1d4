/-
  What can be wrong with a program that has a tree.
-/
import Wacc.Ast.Basic
import Wacc.Diagnostic.Checked

namespace Wacc

/-- The part that a value plays where its type is fixed. -/
inductive Role where
  | index
  | exitCode
  | condition
  | argument (param func : Text)
  deriving DecidableEq, Repr

def Role.render : Role → Text
  | .index => lit "array index"
  | .exitCode => lit "exit code"
  | .condition => lit "condition"
  | .argument p f => lit "argument '" ++ p ++ lit "' of '" ++ f ++ lit "'"

inductive Problem where
  | literalRange (text : Text)
  | undefined (name : Text)
  | undefinedFunction (name : Text)
  | notIndexable (name : Text) (type : Ty)
  | tooManyIndices (name : Text) (type : Ty) (count : Nat)
  | unaryOperand (op : UnOp) (want : Family) (got : Ty)
  | binaryOperand (op : BinOp) (want : Family) (got : Ty)
  | differentTypes (op : BinOp) (left right : Ty)
  | wrongType (role : Role) (want got : Ty)
  | untypedPair (slot : Text)
  | notPair (slot : Text) (got : Ty)
  | elementType (got want : Ty)
  | argumentCount (func : Text) (want got : Nat)
  | notFreeable (got : Ty)
  | notReadable (got : Ty)
  | redeclared (name : Text)
  | badInitialiser (name : Text) (want got : Ty)
  | badAssignment (want got : Ty)
  | returnOutside
  | unreachable (after : Text)
  | duplicateFunction (name : Text)
  | duplicateParameter (name func : Text)
  | missingReturn (func : Text)
  | inconsistentReturn (func : Text) (here other : Ty)
  | wrongReturn (func : Text) (want got : Ty)
  deriving DecidableEq, Repr

namespace Problem

def code : Problem → Code
  | .literalRange _ => .literalOutOfRange
  | .undefined _ => .undefinedIdentifier
  | .undefinedFunction _ => .undefinedFunction
  | .notIndexable _ _ | .tooManyIndices _ _ _ => .illegalArrayAccess
  | .unaryOperand _ _ _ | .binaryOperand _ _ _ => .invalidOperand
  | .differentTypes _ _ _ | .wrongType _ _ _ | .notPair _ _ | .elementType _ _ | .notFreeable _
  | .notReadable _ | .badInitialiser _ _ _ | .badAssignment _ _ => .typeMismatch
  | .untypedPair _ => .untypedPairElement
  | .argumentCount _ _ _ => .argumentCount
  | .redeclared _ => .redeclaration
  | .returnOutside => .invalidReturn
  | .unreachable _ => .unreachableCode
  | .duplicateFunction _ => .duplicateFunction
  | .duplicateParameter _ _ => .duplicateParameter
  | .missingReturn _ => .missingReturn
  | .inconsistentReturn _ _ _ => .inconsistentReturn
  | .wrongReturn _ _ _ => .returnTypeMismatch

def message : Problem → Text
  | .literalRange t => lit "integer literal " ++ t ++ lit " does not fit in a 32-bit int"
  | .undefined n => lit "undefined identifier '" ++ n ++ lit "'"
  | .undefinedFunction n => lit "undefined function '" ++ n ++ lit "'"
  | .notIndexable n t => lit "cannot index '" ++ n ++ lit "' of type " ++ t.render
  | .tooManyIndices n t k =>
    lit "'" ++ n ++ lit "' of type " ++ t.render ++ lit " indexed " ++ decimal k ++ lit " times"
  | .unaryOperand op w g =>
    lit "operator " ++ op.render ++ lit " expects " ++ w.render ++ lit ", got " ++ g.render
  | .binaryOperand op w g =>
    lit "operator " ++ op.render ++ lit " expects " ++ w.render ++ lit " operands, got " ++ g.render
  | .differentTypes op l r =>
    lit "operands of " ++ op.render ++ lit " have different types " ++ l.render ++ lit " and " ++ r.render
  | .wrongType role w g => role.render ++ lit " must be " ++ w.render ++ lit ", got " ++ g.render
  | .untypedPair s => lit "cannot take " ++ s ++ lit " of a pair whose element types are unknown"
  | .notPair s g => s ++ lit " expects a pair, got " ++ g.render
  | .elementType g w =>
    lit "array literal element has type " ++ g.render ++ lit ", expected " ++ w.render
  | .argumentCount f w g =>
    lit "function '" ++ f ++ lit "' takes " ++ decimal w ++ lit " arguments, got " ++ decimal g
  | .notFreeable g => lit "free expects a pair or an array, got " ++ g.render
  | .notReadable g => lit "read expects int, char, string or char[], got " ++ g.render
  | .redeclared n => lit "'" ++ n ++ lit "' is already declared in this scope"
  | .badInitialiser n w g =>
    lit "cannot initialise '" ++ n ++ lit "' of type " ++ w.render ++ lit " with " ++ g.render
  | .badAssignment w g => lit "cannot assign " ++ g.render ++ lit " to a target of type " ++ w.render
  | .returnOutside => lit "return outside of a function"
  | .unreachable a => lit "unreachable code after " ++ a
  | .duplicateFunction n => lit "function '" ++ n ++ lit "' is already defined"
  | .duplicateParameter n f =>
    lit "duplicate parameter '" ++ n ++ lit "' in function '" ++ f ++ lit "'"
  | .missingReturn f => lit "function '" ++ f ++ lit "' does not return a value on every path"
  | .inconsistentReturn f h o =>
    lit "function '" ++ f ++ lit "' returns " ++ h.render ++ lit " here but " ++ o.render ++
      lit " on another path"
  | .wrongReturn f w g =>
    lit "function '" ++ f ++ lit "' is declared to return " ++ w.render ++ lit " but returns " ++ g.render

def diagnostic (p : Problem) (span : Span) : Diagnostic := .error p.code span p.message

def fails {α : Type} (p : Problem) (span : Span) : Checked α := .fail (p.diagnostic span)

end Problem

end Wacc
