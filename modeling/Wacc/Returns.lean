/-
  Returns: whether every path through a function ends in a return of a fitting type.

  The paths from a statement on form a graph whose inner nodes are the choices that `if`, `while`
  and `for` offer.  What comes after a choice is shared by its branches; every choice has a number
  and is looked at once.  A loop may run its body or go on with what follows; the end of the body
  leads back to the condition, which the loop itself accounts for.

  * `paths` gives the graph of a statement, `resolve` sums up the ends that can be reached;
  * `check` reports a function that can run off its end, returns of types that do not go together,
    or returns that do not fit the declared type.
-/
import Wacc.Typing.Problem

namespace Wacc.Returns

/-! ## Paths -/

inductive Path where
  | finish
  | again
  | ret (span : Span) (type : Ty)
  | exit
  | choice (number : Nat) (first second : Path)
  deriving Repr, Inhabited

mutual

/-- The paths of a statement that is followed by `next`; choices are numbered from `n` on. -/
def paths (next : Path) (n : Nat) : Stat → Path × Nat
  | .ret site e => (.ret site.span e.type, n)
  | .exit _ _ => (.exit, n)
  | .ifThen _ _ yes =>
    let (a, n) := blockPaths next n yes
    (.choice n a next, n + 1)
  | .ifElse _ _ yes no =>
    let (b, n) := blockPaths next n no
    let (a, n) := blockPaths next n yes
    (.choice n a b, n + 1)
  | .block b => blockPaths next n b
  | .while _ _ b =>
    let (a, n) := blockPaths .again n b
    (.choice n a next, n + 1)
  | .for _ _ init _ step b =>
    let (s, n) := paths .again n step
    let (a, n) := blockPaths s n b
    paths (.choice n a next) (n + 1) init
  | .seq _ ss => seqPaths next n ss
  | _ => (next, n)

def blockPaths (next : Path) (n : Nat) : Block → Path × Nat
  | .mk _ _ s => paths next n s

def seqPaths (next : Path) (n : Nat) : List Stat → Path × Nat
  | [] => (next, n)
  | s :: ss =>
    let (p, n) := seqPaths next n ss
    paths p n s

end

mutual

def returns : Stat → List (Span × Ty)
  | .ret site e => [(site.span, e.type)]
  | .ifThen _ _ yes => blockReturns yes
  | .ifElse _ _ yes no => blockReturns no ++ blockReturns yes
  | .block b | .while _ _ b => blockReturns b
  | .for _ _ init _ step b => returns step ++ blockReturns b ++ returns init
  | .seq _ ss => seqReturns ss
  | _ => []

def blockReturns : Block → List (Span × Ty)
  | .mk _ _ s => returns s

def seqReturns : List Stat → List (Span × Ty)
  | [] => []
  | s :: ss => seqReturns ss ++ returns s

end

/-! ## Ends -/

structure Ends where
  falls : Bool := false
  exits : Bool := false
  ret : Option (Span × Ty) := none
  conflict : Bool := false
  deriving DecidableEq, Repr, Inhabited

/-- What is known while paths are looked at: the choices seen, and the problems in order. -/
structure Seen where
  choices : List (Nat × Ends) := []
  problems : List Diagnostic := []

def conflictProblem (func : Text) (other here : Span × Ty) : Diagnostic :=
  ((Problem.inconsistentReturn func here.2 other.2).diagnostic here.1).withNote other.1
    (lit "other return is here")

def union (func : Text) (a b : Ends) : Ends × List Diagnostic :=
  let both : Ends :=
    { falls := a.falls || b.falls, exits := a.exits || b.exits, conflict := a.conflict || b.conflict,
      ret := a.ret }
  match a.ret, b.ret with
  | none, r => ({ both with ret := r }, [])
  | some _, none => (both, [])
  | some x, some y =>
    if !x.2.accepts y.2 && !y.2.accepts x.2 then
      ({ both with conflict := true }, if both.conflict then [] else [conflictProblem func x y])
    else if x.2 = .anyPair then ({ both with ret := some y }, [])
    else (both, [])

def resolve (func : Text) : Path → Seen → Ends × Seen
  | .finish, s => ({ falls := true }, s)
  | .again, s => ({}, s)
  | .ret span t, s => ({ ret := some (span, t) }, s)
  | .exit, s => ({ exits := true }, s)
  | .choice n p q, s =>
    match s.choices.lookup n with
    | some e => (e, s)
    | none =>
      let (a, s) := resolve func p s
      let (b, s) := resolve func q s
      let (e, ds) := union func a b
      (e, { choices := (n, e) :: s.choices, problems := s.problems ++ ds })

/-! ## Check -/

def check (f : Func) : List Diagnostic :=
  let (p, _) := blockPaths .finish 0 f.body
  let (e, s) := resolve f.name p {}
  s.problems ++
    if e.conflict then []
    else if e.falls then [(Problem.missingReturn f.name).diagnostic f.span]
    else (blockReturns f.body).flatMap fun (span, t) =>
      if f.result.accepts t then [] else [(Problem.wrongReturn f.name f.result t).diagnostic span]

def checkAll (p : Program) : List Diagnostic := p.funcs.flatMap check

end Wacc.Returns
