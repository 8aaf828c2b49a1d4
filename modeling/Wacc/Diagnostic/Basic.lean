/-
  Diagnostics: what a phase has to say about a source text.

  A diagnostic has a severity, a numeric code, a message, the span it points at and optional
  notes.  The thousands of the code give its category, and the category of the first error decides how
  a run of the compiler ends.
-/
import Wacc.Source.Span

namespace Wacc

/-- How serious a diagnostic is, in rising order.  Levels above `error` have no name. -/
structure Severity where
  level : UInt8
  deriving DecidableEq, Repr, Inhabited

namespace Severity

def info : Severity := ⟨0⟩
def warning : Severity := ⟨1⟩
def error : Severity := ⟨2⟩

def isError (s : Severity) : Bool := error.level ≤ s.level

def name (s : Severity) : Text :=
  if s = info then lit "INFO"
  else if s = warning then lit "WARNING"
  else if s = error then lit "ERROR"
  else lit "UNKNOWN"

/-- The name that opens a one-line report; all but errors and warnings are informative. -/
def label (s : Severity) : Text :=
  if s = error then lit "error"
  else if s = warning then lit "warning"
  else lit "info"

end Severity

inductive Category where
  | unknown
  | lexical
  | syntactic
  | semantic
  | io
  deriving DecidableEq, Repr, Inhabited

def Category.name : Category → Text
  | .unknown => lit "unknown"
  | .lexical => lit "lexical"
  | .syntactic => lit "syntactic"
  | .semantic => lit "semantic"
  | .io => lit "io"

structure Code where
  number : UInt16
  deriving DecidableEq, Repr, Inhabited

namespace Code

/-! ## Lexical codes -/

def unknownCharacter : Code := ⟨1001⟩
def unterminatedString : Code := ⟨1002⟩
def unterminatedChar : Code := ⟨1003⟩
def badEscape : Code := ⟨1004⟩
def badCharLiteral : Code := ⟨1005⟩
def nonAsciiLiteral : Code := ⟨1006⟩

/-! ## Syntactic codes -/

def unexpectedToken : Code := ⟨2001⟩
def expectIdentifier : Code := ⟨2002⟩
def expectType : Code := ⟨2003⟩
def expectExpression : Code := ⟨2004⟩
def expectStatement : Code := ⟨2005⟩
def expectKeyword : Code := ⟨2006⟩
def trailingInput : Code := ⟨2007⟩
def badAssignTarget : Code := ⟨2008⟩

/-! ## Semantic codes -/

def undefinedIdentifier : Code := ⟨3001⟩
def undefinedFunction : Code := ⟨3002⟩
def typeMismatch : Code := ⟨3003⟩
def redeclaration : Code := ⟨3004⟩
def duplicateParameter : Code := ⟨3005⟩
def duplicateFunction : Code := ⟨3006⟩
def illegalArrayAccess : Code := ⟨3007⟩
def invalidReturn : Code := ⟨3008⟩
def literalOutOfRange : Code := ⟨3009⟩
def unreachableCode : Code := ⟨3010⟩
def missingReturn : Code := ⟨3011⟩
def inconsistentReturn : Code := ⟨3012⟩
def returnTypeMismatch : Code := ⟨3013⟩
def argumentCount : Code := ⟨3014⟩
def invalidOperand : Code := ⟨3015⟩
def untypedPairElement : Code := ⟨3016⟩

/-! ## Other codes -/

def loadFailure : Code := ⟨4001⟩

def category (c : Code) : Category :=
  match c.number.toNat / 1000 with
  | 1 => .lexical
  | 2 => .syntactic
  | 3 => .semantic
  | 4 => .io
  | _ => .unknown

def id (c : Code) : Text :=
  match c.category with
  | .lexical => lit "LEX" ++ decimal c.number.toNat
  | .syntactic => lit "SYN" ++ decimal c.number.toNat
  | .semantic => lit "SEM" ++ decimal c.number.toNat
  | .io => lit "IO" ++ decimal c.number.toNat
  | .unknown => lit "E0000"

def title (c : Code) : Text :=
  match c.number.toNat with
  | 1001 => lit "Unknown character"
  | 1002 => lit "Unterminated string literal"
  | 1003 => lit "Unterminated character literal"
  | 1004 => lit "Invalid escape sequence"
  | 1005 => lit "Invalid character literal"
  | 1006 => lit "Character literal is not ASCII"
  | 2001 => lit "Unexpected token"
  | 2002 => lit "Expected identifier"
  | 2003 => lit "Expected type"
  | 2004 => lit "Expected expression"
  | 2005 => lit "Expected statement"
  | 2006 => lit "Expected keyword"
  | 2007 => lit "Input after end of program"
  | 2008 => lit "Invalid assignment target"
  | 3001 => lit "Undefined identifier"
  | 3002 => lit "Undefined function"
  | 3003 => lit "Type mismatch"
  | 3004 => lit "Variable redeclared in the same scope"
  | 3005 => lit "Duplicate parameter name"
  | 3006 => lit "Function redeclared"
  | 3007 => lit "Illegal array access"
  | 3008 => lit "Return outside of a function"
  | 3009 => lit "Integer literal out of range"
  | 3010 => lit "Unreachable code"
  | 3011 => lit "Missing return"
  | 3012 => lit "Inconsistent return types"
  | 3013 => lit "Return type mismatch"
  | 3014 => lit "Wrong number of arguments"
  | 3015 => lit "Invalid operand"
  | 3016 => lit "Element of untyped pair"
  | 4001 => lit "I/O load file error"
  | _ => lit "Unknown error"

end Code

structure Note where
  span : Span
  message : Text
  deriving DecidableEq, Repr

structure Diagnostic where
  severity : Severity
  code : Code
  span : Span
  message : Text
  notes : List Note := []
  deriving DecidableEq, Repr

namespace Diagnostic

def error (code : Code) (span : Span) (message : Text) : Diagnostic :=
  { severity := .error, code, span, message }

def withNote (d : Diagnostic) (span : Span) (message : Text) : Diagnostic :=
  { d with notes := d.notes ++ [⟨span, message⟩] }

def brief (d : Diagnostic) : Text := d.code.id ++ lit ": " ++ d.message

/-- Whether `d` is listed before `e`: by file, start and end, then the more severe one, then by
    code. -/
def before (d e : Diagnostic) : Bool :=
  if d.span.file ≠ e.span.file then d.span.file < e.span.file
  else if d.span.start ≠ e.span.start then d.span.start < e.span.start
  else if d.span.stop ≠ e.span.stop then d.span.stop < e.span.stop
  else if d.severity ≠ e.severity then e.severity.level < d.severity.level
  else d.code.number < e.code.number

def firstCategory (ds : List Diagnostic) : Category :=
  match ds.find? (·.severity.isError) with
  | some d => d.code.category
  | none => .unknown

def anyError (ds : List Diagnostic) : Bool := ds.any (·.severity.isError)

def exitCode (ds : List Diagnostic) : Nat :=
  if anyError ds then
    match firstCategory ds with
    | .lexical | .syntactic => 100
    | .semantic => 200
    | _ => 1
  else 0

end Diagnostic

end Wacc
