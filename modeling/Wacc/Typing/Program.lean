/-
  Typing of programs.

  All functions are declared before any body is typed, so functions may call each other in any
  order.  A function whose name is taken gets no scope and its body is not looked at.
-/
import Wacc.Typing.Stat

namespace Wacc.Typing

/-- Declare the parameters of a function; a name that is taken is reported. -/
def params (id : FuncId) (func : Text) : List Tree → Typing (List Diagnostic)
  | [] => return []
  | p :: ps => do
    let name := p.child 1
    let type ← (type (p.child 0) : Except Fault Ty)
    let (d, t) ← (← get).bindParam id name.text type name.span
    set t
    let here := if d.fresh then []
      else [(Problem.duplicateParameter name.text func).diagnostic name.span]
    return here ++ (← params id func ps)

/-- The declaration of a function: its number, if its name is new, and the problems with it. -/
structure Header where
  id : Option FuncId
  problems : List Diagnostic

def header (n : Tree) : Typing Header := do
  let result ← (type (n.child 0) : Except Fault Ty)
  let name := n.child 1
  let (d, t) := (← get).declareFunc name.text result name.span
  set t
  if d.fresh then return ⟨some d.id, ← params d.id name.text (n.child 2).children⟩
  let first := ((t.func? d.id).map (·.span)).getD {}
  return ⟨none, [((Problem.duplicateFunction name.text).diagnostic name.span).withNote first
    (lit "previous definition is here")]⟩

/-- Type the body of a function, in a block inside the scope of its parameters. -/
def func (n : Tree) (h : Header) : Typing (Checked Func) := do
  let t ← get
  match h.id.bind fun id => (t.func? id).map fun f => (id, f) with
  | none =>
    match Checked.ofProblems? h.problems with
    | some c => return c
    | none => throw .noDiagnostics
  | some (id, f) =>
    let inner := n.child 3
    let body ← inBlock f.scope inner.span fun s => stat s inner
    return (body.map fun b =>
      { id, name := f.name, result := f.result, params := f.params, scope := f.scope, body := b,
        span := n.span : Func }).check h.problems

def program : Tree → Typing (Checked Program)
  | .node .program _ span cs => do
    match cs.getLast? with
    | none => throw .notProgram
    | some main =>
      let fs := cs.dropLast
      let headers ← fs.mapM header
      let funcs ← (fs.zip headers).mapM fun (n, h) => func n h
      let body ← stat Table.global main
      let table ← get
      return Checked.map2 (fun funcs body => { funcs, body, table, span : Program })
        (Checked.all funcs) body
  | _ => throw .notProgram

/-- The typed program of a tree, and the table, which is there also when the program is wrong. -/
def check (n : Tree) : Except Fault (Checked Program × Table) := StateT.run (program n) .empty

end Wacc.Typing
