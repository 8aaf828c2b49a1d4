/-
  Reading tokens into trees.

  A `Reader` holds the unread tokens, the span of the last token taken and the syntax problems
  found so far.  Rules give no tree when they fail and go on where they are, so that one text can
  have several problems.  A rule that repeats is given by one step, whose last argument is what it
  repeats; it may take as many steps as there are unread tokens.
-/
import Wacc.Token.Scan
import Wacc.Tree.Basic

namespace Wacc

inductive SyntaxFault where
  | expected (code : Code) (kind : Kind) (got : Token)
  | noIdentifier (got : Token)
  | noType (got : Token)
  | noStatement (got : Token)
  | noExpression (got : Token)
  | noTarget (got : Token)
  | trailing (got : Token)
  | nestedPair
  deriving DecidableEq, Repr

namespace SyntaxFault

def describe (t : Token) : Text :=
  match t.kind with
  | .eof => lit "end of file"
  | .ident | .intLit | .charLit | .strLit => t.kind.name ++ lit " " ++ t.text
  | _ => lit "'" ++ t.text ++ lit "'"

def code : SyntaxFault → Code
  | .expected c _ _ => c
  | .noIdentifier _ => .expectIdentifier
  | .noType _ | .nestedPair => .expectType
  | .noStatement _ => .expectStatement
  | .noExpression _ => .expectExpression
  | .noTarget _ => .badAssignTarget
  | .trailing _ => .trailingInput

def message : SyntaxFault → Text
  | .expected _ k t => lit "expected '" ++ k.name ++ lit "', got " ++ describe t
  | .noIdentifier t => lit "expected identifier, got " ++ describe t
  | .noType t => lit "expected type, got " ++ describe t
  | .noStatement t => lit "expected statement, got " ++ describe t
  | .noExpression t => lit "expected expression, got " ++ describe t
  | .noTarget t => lit "expected assignable expression, got " ++ describe t
  | .trailing t => lit "unexpected " ++ describe t ++ lit " after end of program"
  | .nestedPair => lit "a pair type nested in a pair must be written as 'pair'"

end SyntaxFault

structure Reader where
  unread : List Token
  eof : Token
  last : Span
  problems : List Diagnostic := []

abbrev Rule (α : Type) := StateM Reader α

namespace Reader

def peekAt (r : Reader) (n : Nat) : Token := (r.unread[n]?).getD r.eof

def peek (r : Reader) : Token := r.peekAt 0

def advance (r : Reader) : Reader :=
  match r.unread with
  | [] => r
  | t :: rest => { r with unread := rest, last := t.span }

/-- Where a problem with the next token is shown; at the end of the file, right after the last
    token taken. -/
def place (r : Reader) : Span :=
  match r.unread with
  | [] => r.last.atStop
  | t :: _ => t.span

def report (r : Reader) (span : Span) (f : SyntaxFault) : Reader :=
  { r with problems := .error f.code span f.message :: r.problems }

def isBorder : Kind → Bool
  | .semicolon | .kwEnd | .kwFi | .kwDone | .kwElse | .kwThen | .kwDo => true
  | _ => false

/-- The tokens from the next border on, and the span of the last token before it. -/
def skipToBorder (last : Span) : List Token → Span × List Token
  | [] => (last, [])
  | t :: rest => if isBorder t.kind then (last, t :: rest) else skipToBorder t.span rest

end Reader

namespace Rule

def peek : Rule Token := do return (← get).peek

def kindAt (n : Nat) : Rule Kind := do return ((← get).peekAt n).kind

def isAt (k : Kind) : Rule Bool := do return (← get).peek.kind == k

def advance : Rule Token := do
  let r ← get
  set r.advance
  return r.peek

def complain (f : Token → SyntaxFault) : Rule Unit :=
  modify fun r => r.report r.place (f r.peek)

def expect (k : Kind) (code : Code) : Rule (Option Token) := do
  if ← isAt k then return some (← advance)
  complain (.expected code k)
  return none

def keyword (k : Kind) : Rule (Option Token) := expect k .expectKeyword

def symbol (k : Kind) : Rule (Option Token) := expect k .unexpectedToken

def mark : Rule Nat := do return (← get).problems.length

def failedSince (m : Nat) : Rule Bool := do return m < (← get).problems.length

def resync : Rule Unit := modify fun r =>
  let (last, unread) := Reader.skipToBorder r.last r.unread
  { r with last, unread }

def fuel : Rule Nat := do return (← get).unread.length + 1

def coverToken (s : Span) : Option Token → Span
  | none => s
  | some t => s.cover t.span

def build (kind : NodeKind) (text : Text) (span : Span) (parts : List (Option Tree)) : Option Tree :=
  (parts.mapM id).map (Tree.make kind text span)

def leaf (kind : NodeKind) (t : Token) : Tree := .make kind t.text t.span []

def ident : Rule (Option Tree) := do
  if ← isAt .ident then return some (leaf .ident (← advance))
  complain .noIdentifier
  return none

end Rule

end Wacc
