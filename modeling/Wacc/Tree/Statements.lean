/-
  Rules for statements.

    seq    = stat (";" stat)*
    stat   = "skip" | type name "=" value | target "=" value | "read" target | "free" expr
           | "return" expr | "exit" expr | "print" expr | "println" expr
           | "if" expr "then" seq ("else" seq)? "fi" | "while" expr "do" seq "done"
           | "for" "(" stat ";" expr ";" stat ")" "do" seq "done" | "begin" seq "end"
    target = element | ("fst" | "snd") target
    value  = expr | array | "newpair" "(" expr "," expr ")" | ("fst" | "snd") target
           | "call" name "(" (expr ("," expr)*)? ")"
    array  = "[" (item ("," item)*)? "]",  item = expr | array
-/
import Wacc.Tree.Expressions

namespace Wacc.Rule

def commaListStep (item : Rule (Option Tree)) (more : List (Option Tree) → Rule (List (Option Tree)))
    (done : List (Option Tree)) : Rule (List (Option Tree)) := do
  let e ← item
  if ← isAt .comma then
    let _ ← advance
    more (done ++ [e])
  else return done ++ [e]

def commaList (item : Rule (Option Tree)) : Nat → List (Option Tree) → Rule (List (Option Tree))
  | 0 => pure
  | n + 1 => commaListStep item (commaList item n)

def items (closing : Kind) (item : Rule (Option Tree)) : Rule (List (Option Tree)) := do
  if ← isAt closing then return [] else commaList item (← fuel) []

def arrayLitStep (array : Rule (Option Tree)) : Rule (Option Tree) := do
  let opening ← advance
  let parts ← items .rbracket do
    if ← isAt .lbracket then array else expr
  match ← symbol .rbracket with
  | none => return none
  | some closing => return build .arrayLit [] (opening.span.cover closing.span) parts

def arrayLit : Nat → Rule (Option Tree)
  | 0 => pure none
  | n + 1 => arrayLitStep (arrayLit n)

def arguments : Rule (Option Tree) := do
  match ← symbol .lparen with
  | none => return none
  | some opening =>
    let parts ← items .rparen expr
    match ← symbol .rparen with
    | none => return none
    | some closing => return build .argList [] (opening.span.cover closing.span) parts

def targetStep (target : Rule (Option Tree)) : Rule (Option Tree) := do
  let t ← peek
  if t.kind = .kwFst ∨ t.kind = .kwSnd then
    let _ ← advance
    return build .pairElem t.text t.span [← target]
  else if t.kind = .ident then element expr
  else
    complain .noTarget
    return none

def target : Nat → Rule (Option Tree)
  | 0 => pure none
  | n + 1 => targetStep (target n)

def value : Rule (Option Tree) := do
  let t ← peek
  match t.kind with
  | .lbracket => arrayLit (← fuel)
  | .kwNewpair =>
    let _ ← advance
    match ← symbol .lparen with
    | none => return none
    | some _ =>
      let fst ← expr
      let _ ← symbol .comma
      let snd ← expr
      let closing ← symbol .rparen
      return build .newPair [] (coverToken t.span closing) [fst, snd]
  | .kwFst | .kwSnd => target (← fuel)
  | .kwCall =>
    let _ ← advance
    let name ← ident
    let args ← arguments
    return build .call [] t.span [name, args]
  | _ => expr

def declare : Rule (Option Tree) := do
  let t ← type
  let name ← ident
  match ← symbol .assign with
  | none => return none
  | some _ => return build .declare [] {} [t, name, ← value]

def assign : Rule (Option Tree) := do
  match ← target (← fuel) with
  | none => return none
  | some lhs =>
    match ← symbol .assign with
    | none => return none
    | some _ => return build .assign [] {} [some lhs, ← value]

def wordKind? : Kind → Option NodeKind
  | .kwFree => some .free
  | .kwReturn => some .return
  | .kwExit => some .exit
  | .kwPrint => some .print
  | .kwPrintln => some .println
  | _ => none

/-- The statements of a sequence; after a problem reading goes on at the next border. -/
def statsStep (stat : Rule (Option Tree)) (more : List Tree → Rule (List Tree)) (done : List Tree) :
    Rule (List Tree) := do
  let m ← mark
  let s ← stat
  let failed ← failedSince m
  if failed then resync
  let done := if failed then done else done ++ s.toList
  if ← isAt .semicolon then
    let _ ← advance
    more done
  else return done

def stats (stat : Rule (Option Tree)) : Nat → List Tree → Rule (List Tree)
  | 0 => pure
  | n + 1 => statsStep stat (stats stat n)

def sequence : List Tree → Option Tree
  | [] => none
  | [s] => some s
  | ss => some (.make .seq [] {} ss)

def seq (stat : Rule (Option Tree)) : Rule (Option Tree) := do
  return sequence (← stats stat (← fuel) [])

def ifStat (body : Rule (Option Tree)) : Rule (Option Tree) := do
  let kw ← advance
  let cond ← expr
  let _ ← keyword .kwThen
  let yes ← body
  let no ← if ← isAt .kwElse then
      let _ ← advance
      pure [← body]
    else pure []
  let fi ← keyword .kwFi
  return build .if [] (coverToken kw.span fi) ([cond, yes] ++ no)

def whileStat (body : Rule (Option Tree)) : Rule (Option Tree) := do
  let kw ← advance
  let cond ← expr
  let _ ← keyword .kwDo
  let inner ← body
  let done ← keyword .kwDone
  return build .while [] (coverToken kw.span done) [cond, inner]

def forStat (stat body : Rule (Option Tree)) : Rule (Option Tree) := do
  let kw ← advance
  match ← symbol .lparen with
  | none => return none
  | some _ =>
    let init ← stat
    let _ ← symbol .semicolon
    let cond ← expr
    let _ ← symbol .semicolon
    let step ← stat
    let _ ← symbol .rparen
    let _ ← keyword .kwDo
    let inner ← body
    let done ← keyword .kwDone
    return build .for [] (coverToken kw.span done) [init, cond, step, inner]

def blockStat (body : Rule (Option Tree)) : Rule (Option Tree) := do
  let kw ← advance
  let inner ← body
  let stop ← keyword .kwEnd
  return build .block [] (coverToken kw.span stop) [inner]

def statStep (stat : Rule (Option Tree)) : Rule (Option Tree) := do
  let t ← peek
  match wordKind? t.kind with
  | some k =>
    let _ ← advance
    return build k [] t.span [← expr]
  | none =>
    match t.kind with
    | .kwSkip =>
      let _ ← advance
      return some (.make .skip [] t.span [])
    | .kwRead =>
      let _ ← advance
      return build .read [] t.span [← target (← fuel)]
    | .kwIf => ifStat (seq stat)
    | .kwWhile => whileStat (seq stat)
    | .kwFor => forStat stat (seq stat)
    | .kwBegin => blockStat (seq stat)
    | .ident | .kwFst | .kwSnd => assign
    | .kwInt | .kwBool | .kwChar | .kwString | .kwPair => declare
    | _ =>
      complain .noStatement
      return none

def stat : Nat → Rule (Option Tree)
  | 0 => pure none
  | n + 1 => statStep (stat n)

def body : Rule (Option Tree) := do seq (stat (← fuel))

end Wacc.Rule
