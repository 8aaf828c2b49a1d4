/-
  Rules for types.

    type      = base ("[" "]")* | pair ("[" "]")*
    pair      = "pair" "(" slot "," slot ")"
    slot      = base ("[" "]")* | "pair" ("[" "]")* | pair ("[" "]")+
-/
import Wacc.Tree.Reader

namespace Wacc.Rule

def dimensionsStep (more : Tree → Rule Tree) (t : Tree) : Rule Tree := do
  if (← kindAt 0) = .lbracket ∧ (← kindAt 1) = .rbracket then
    let _ ← advance
    let closing ← advance
    more (.make .arrayType [] closing.span [t])
  else return t

def dimensions : Nat → Tree → Rule Tree
  | 0 => pure
  | n + 1 => dimensionsStep (dimensions n)

def withDimensions (t : Option Tree) : Rule (Option Tree) := do
  match t with
  | none => return none
  | some t => return some (← dimensions (← fuel) t)

def baseType : Rule (Option Tree) := do
  let t ← peek
  if t.kind.isBaseType then
    let _ ← advance
    return some (leaf .baseType t)
  complain .noType
  return none

def slotType (pair : Rule (Option Tree)) : Rule (Option Tree) := do
  if (← kindAt 0) ≠ .kwPair then withDimensions (← baseType)
  else if (← kindAt 1) ≠ .lparen then
    let kw ← advance
    withDimensions (some (leaf .barePair kw))
  else
    match ← pair with
    | none => return none
    | some t =>
      if ← isAt .lbracket then withDimensions (some t)
      else
        modify (·.report t.span .nestedPair)
        return none

def pairTypeStep (pair : Rule (Option Tree)) : Rule (Option Tree) := do
  let kw ← advance
  match ← expect .lparen .expectType with
  | none => return none
  | some _ =>
    let fst ← slotType pair
    let _ ← symbol .comma
    let snd ← slotType pair
    match ← symbol .rparen with
    | none => return none
    | some closing => return build .pairType [] (kw.span.cover closing.span) [fst, snd]

def pairType : Nat → Rule (Option Tree)
  | 0 => pure none
  | n + 1 => pairTypeStep (pairType n)

def type : Rule (Option Tree) := do
  if ← isAt .kwPair then withDimensions (← pairType (← fuel))
  else withDimensions (← baseType)

end Wacc.Rule
