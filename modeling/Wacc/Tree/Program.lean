/-
  Rules for functions and programs, and the reading of a whole text.

    program = "begin" func* seq "end"
    func    = type name "(" (param ("," param)*)? ")" "is" seq "end",  param = type name

  A text with any problem, lexical or syntactic, has no tree.  How many problems are reported may
  be limited, but the limit changes nothing else.
-/
import Wacc.Tree.Statements
import Wacc.Source.File

namespace Wacc

namespace Rule

/-! ## Telling a function from a declaration -/

def afterParens (depth : Nat) : List Token → Option (List Token)
  | [] => none
  | t :: rest =>
    let depth := match t.kind with
      | .lparen => depth + 1
      | .rparen => depth - 1
      | _ => depth
    if depth = 0 then some rest else afterParens depth rest

def afterDimensions : List Token → List Token
  | [] => []
  | [t] => [t]
  | t :: u :: rest =>
    if t.kind = .lbracket ∧ u.kind = .rbracket then afterDimensions rest else t :: u :: rest

def afterType? : List Token → Option (List Token)
  | [] => none
  | t :: rest =>
    if t.kind.isBaseType then some (afterDimensions rest)
    else if t.kind = .kwPair then
      match rest with
      | [] => none
      | u :: _ => if u.kind = .lparen then (afterParens 0 rest).map afterDimensions else none
    else none

/-- Whether the unread tokens start with a type, a name and an opening parenthesis. -/
def startsFunction (ts : List Token) : Bool :=
  match afterType? ts with
  | some (t :: u :: _) => t.kind == .ident && u.kind == .lparen
  | _ => false

/-! ## Rules -/

def param : Rule (Option Tree) := do
  let t ← type
  let name ← ident
  return build .param [] {} [t, name]

def params : Rule (Option Tree) := do
  match ← symbol .lparen with
  | none => return none
  | some opening =>
    let parts ← items .rparen param
    let closing ← symbol .rparen
    return build .paramList [] (coverToken opening.span closing) parts

def func : Rule (Option Tree) := do
  let m ← mark
  let result ← type
  let name ← ident
  let ps ← params
  let _ ← keyword .kwIs
  let inner ← body
  let stop ← keyword .kwEnd
  if ← failedSince m then return none
  return build .func [] ((stop.map (·.span)).getD {}) [result, name, ps, inner]

def funcsStep (more : List Tree → Rule (List Tree)) (done : List Tree) : Rule (List Tree) := do
  if startsFunction (← get).unread then more (done ++ (← func).toList) else return done

def funcs : Nat → List Tree → Rule (List Tree)
  | 0 => pure
  | n + 1 => funcsStep (funcs n)

def program : Rule (Option Tree) := do
  match ← keyword .kwBegin with
  | none => return none
  | some start =>
    let fs ← funcs (← fuel) []
    let main ← body
    let stop ← keyword .kwEnd
    if (← get).unread ≠ [] then complain .trailing
    return build .program [] (coverToken start.span stop) (fs.map some ++ [main])

end Rule

structure Parsed where
  lexical : List Diagnostic
  syntactic : List Diagnostic
  tree : Option Tree

namespace Parsed

def ofTokens (file : UInt32) (size : UInt32) (lexical : List Diagnostic) (ts : List Token) : Parsed :=
  let eof := ts.getLast?.getD ⟨.eof, ⟨file, size, size⟩, []⟩
  let (tree, r) := Rule.program.run { unread := ts.dropLast, eof, last := ⟨file, size, size⟩ }
  { lexical, syntactic := r.problems.reverse, tree }

def ofFile (f : File) : Parsed :=
  ofTokens f.id f.content.length.toUInt32 (Scan.diagnostics f.id f.content) (Scan.tokens f.id f.content)

def count (p : Parsed) : Nat := p.lexical.length + p.syntactic.length

/-- The tree of a text without problems, when `earlier` problems were known before. -/
def tree? (p : Parsed) (earlier : Nat) : Option Tree :=
  if earlier + p.count = 0 then p.tree else none

/-- The problems that are reported when at most `limit` may be known in all; zero is no limit.
    Lexical problems are always reported. -/
def reported (p : Parsed) (limit earlier : Nat) : List Diagnostic :=
  p.lexical ++
    if limit = 0 then p.syntactic else p.syntactic.take (limit - earlier - p.lexical.length)

end Parsed

end Wacc
