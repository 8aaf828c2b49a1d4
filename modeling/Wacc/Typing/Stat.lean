/-
  Typing of statements.

  Statements declare variables and open scopes, so they are typed against a table that changes.  A
  variable is declared after its first value is typed, and also when that value is wrong, so that
  later uses of the name are not reported as well.
-/
import Wacc.Typing.Value

namespace Wacc

abbrev Typing (α : Type) := StateT Table (Except Fault) α

namespace Typing

def query {α : Type} (f : Table → Except Fault α) : Typing α := do f (← get)

def inBlock (parent : ScopeId) (span : Span) (body : ScopeId → Typing (Checked Stat)) :
    Typing (Checked Block) := do
  let (inner, t) := (← get).newBlock parent span
  set t
  return (← body inner).map (.mk ⟨span, parent⟩ inner)

def declare (site : Site) (written : Ty) (name : Tree) (v : Checked Value) : Typing (Checked Stat) := do
  let type := match v with
    | .ok v => written.refine v.type
    | .bad _ _ => written
  let (d, t) ← (← get).declare site.scope name.text type name.span
  set t
  let again :=
    if d.fresh then []
    else
      let first := ((t.var? d.id).map (·.span)).getD {}
      [((Problem.redeclared name.text).diagnostic name.span).withNote first (lit "previous declaration is here")]
  let wrong := match v with
    | .ok v =>
      if type.accepts v.type then []
      else [(Problem.badInitialiser name.text type v.type).diagnostic v.span]
    | .bad _ _ => []
  return (v.map (.declare site d.id name.text type)).check (again ++ wrong)

def assign (site : Site) (l : Checked Target) (v : Checked Value) : Checked Stat :=
  Checked.bind2 l v fun l v =>
    if l.type.accepts v.type then .ok (.assign site l v)
    else (Problem.badAssignment l.type v.type).fails site.span

def isReadable : Ty → Bool
  | .int | .char | .string => true
  | t => t.isCharArray

def isFreeable : Ty → Bool
  | .pair _ _ | .anyPair | .array _ _ => true
  | _ => false

def read (site : Site) (l : Checked Target) : Checked Stat :=
  l.bind fun l =>
    if isReadable l.type then .ok (.read site l) else (Problem.notReadable l.type).fails l.span

def free (site : Site) (e : Checked Expr) : Checked Stat :=
  e.bind fun e =>
    if isFreeable e.type then .ok (.free site e) else (Problem.notFreeable e.type).fails e.span

def ret (t : Table) (site : Site) (e : Checked Expr) : Checked Stat :=
  if t.enclosingFunc site.scope = 0 then e.refuse (Problem.returnOutside.diagnostic site.span)
  else e.map (.ret site)

/-- The word of a statement after which nothing of the sequence runs. -/
def terminal? (inFunc : Bool) (n : Tree) : Option Text :=
  match n.kind with
  | .return => some (lit "return")
  | .exit => if inFunc then none else some (lit "exit")
  | _ => none

def unreachable? (inFunc : Bool) : List Tree → Option Diagnostic
  | [] | [_] => none
  | n :: next :: rest =>
    match terminal? inFunc n with
    | some word => some ((Problem.unreachable word).diagnostic next.span)
    | none => unreachable? inFunc (next :: rest)

mutual

def stat (scope : ScopeId) : Tree → Typing (Checked Stat)
  | .missing => throw (.notStatement NodeKind.invalid.name)
  | .node k _ span cs =>
    let site : Site := ⟨span, scope⟩
    match k, cs with
    | .skip, _ => return .ok (.skip site)
    | .declare, written :: name :: v :: _ => do
      let written ← (type written : Except Fault Ty)
      declare site written name (← query fun t => value t scope v)
    | .assign, l :: v :: _ => do
      let l ← query fun t => target t scope l
      let v ← query fun t => value t scope v
      return assign site l v
    | .read, l :: _ => do return read site (← query fun t => target t scope l)
    | .free, e :: _ => do return free site (← query fun t => expr t scope e)
    | .return, e :: _ => do return ret (← get) site (← query fun t => expr t scope e)
    | .exit, e :: _ => do
      return (expectType .int .exitCode (← query fun t => expr t scope e)).map (.exit site)
    | .print, e :: _ => do return (← query fun t => expr t scope e).map (.print site · false)
    | .println, e :: _ => do return (← query fun t => expr t scope e).map (.print site · true)
    | .if, [c, a, b] => do
      let c ← query fun t => expr t scope c
      let a ← inBlock scope a.span fun inner => stat inner a
      let b ← inBlock scope b.span fun inner => stat inner b
      return Checked.map3 (.ifElse site) (expectType .bool .condition c) a b
    | .if, c :: a :: _ => do
      let c ← query fun t => expr t scope c
      let a ← inBlock scope a.span fun inner => stat inner a
      return Checked.map2 (.ifThen site) (expectType .bool .condition c) a
    | .while, c :: b :: _ => do
      let c ← query fun t => expr t scope c
      let b ← inBlock scope b.span fun inner => stat inner b
      return Checked.map2 (.while site) (expectType .bool .condition c) b
    | .for, i :: c :: s :: b :: _ => do
      let (header, t) := (← get).newBlock scope span
      set t
      let i ← stat header i
      let c ← query fun t => expr t header c
      let s ← stat header s
      let b ← inBlock header b.span fun inner => stat inner b
      return Checked.map2 (fun (f : Block → Stat) b => f b)
        (Checked.map3 (Stat.for site header) i (expectType .bool .condition c) s) b
    | .block, b :: _ => do
      return (← inBlock scope b.span fun inner => stat inner b).map .block
    | .seq, cs => do
      let inFunc := (← get).enclosingFunc scope != 0
      let ss ← stats scope cs
      return ((Checked.all ss).map (.sequence site)).check (unreachable? inFunc cs).toList
    | k, _ => throw (.notStatement k.name)

def stats (scope : ScopeId) : List Tree → Typing (List (Checked Stat))
  | [] => return []
  | c :: cs => do return (← stat scope c) :: (← stats scope cs)

end

end Typing

end Wacc
