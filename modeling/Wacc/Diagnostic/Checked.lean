/-
  Checked values: a value, or at least one diagnostic.

  Independent parts are put together with `map2`, `map3` and `all`, which keep the diagnostics of
  every part that failed, in order.  A step that needs the value of another is chained with
  `bind`.
-/
import Wacc.Diagnostic.Basic

namespace Wacc

inductive Checked (α : Type) where
  | ok (value : α)
  | bad (first : Diagnostic) (rest : List Diagnostic)
  deriving Repr

namespace Checked

variable {α β γ δ : Type}

def problems : Checked α → List Diagnostic
  | .ok _ => []
  | .bad d ds => d :: ds

def value? : Checked α → Option α
  | .ok a => some a
  | .bad _ _ => none

def ofProblems? : List Diagnostic → Option (Checked α)
  | [] => none
  | d :: ds => some (.bad d ds)

def fail (d : Diagnostic) : Checked α := .bad d []

def failWith? (c : Checked α) : Option (Checked β) := ofProblems? c.problems

def map (f : α → β) : Checked α → Checked β
  | .ok a => .ok (f a)
  | .bad d ds => .bad d ds

def bind (c : Checked α) (f : α → Checked β) : Checked β :=
  match c with
  | .ok a => f a
  | .bad d ds => .bad d ds

def bind2 (a : Checked α) (b : Checked β) (f : α → β → Checked γ) : Checked γ :=
  match a, b with
  | .ok x, .ok y => f x y
  | .ok _, .bad d ds => .bad d ds
  | .bad d ds, b => .bad d (ds ++ b.problems)

def map2 (f : α → β → γ) (a : Checked α) (b : Checked β) : Checked γ :=
  bind2 a b fun x y => .ok (f x y)

def map3 (f : α → β → γ → δ) (a : Checked α) (b : Checked β) (c : Checked γ) : Checked δ :=
  map2 (fun g z => g z) (map2 f a b) c

def all : List (Checked α) → Checked (List α)
  | [] => .ok []
  | c :: cs => map2 List.cons c (all cs)

def check (c : Checked α) : List Diagnostic → Checked α
  | [] => c
  | d :: ds =>
    match c with
    | .ok _ => .bad d ds
    | .bad e es => .bad e (es ++ d :: ds)

def refuse (c : Checked α) (d : Diagnostic) : Checked β :=
  match c with
  | .ok _ => .bad d []
  | .bad e es => .bad e (es ++ [d])

end Checked

end Wacc
