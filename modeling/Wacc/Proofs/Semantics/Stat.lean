/-
  What statements and programs without arrays, pairs and input mean.

  A statement changes the values of variables and prints.  A variable has no value until its declaration
  is executed; reading it before is an end of its own, and so is a loop or a call that comes too late.
-/
import Wacc.Proofs.Returns.Exact
import Wacc.Proofs.Semantics.Expr

namespace Wacc

def Ty.isScalar : Ty → Bool
  | .int | .bool | .char => true
  | _ => false

/-- What is left of a value in a variable: characters are kept in a byte with its sign. -/
def Datum.stored : Datum → Datum
  | .char n => .char (n.bmod 256)
  | x => x

namespace Reference

/-- What a program prints. -/
inductive Output where
  | value (x : Datum)
  | line

inductive Error where
  /-- a result does not fit in 32 bits, or a divisor is zero -/
  | arithmetic
  | null
  deriving DecidableEq, Repr

/-- What ends an execution. -/
inductive Stop where
  | exit (code : Int)
  | error (e : Error)
  /-- a variable is read before its declaration was executed -/
  | unset
  | deep
  /-- too many turns of loops and calls -/
  | late
  /-- something without a meaning -/
  | stuck
  deriving DecidableEq, Repr

/-- What is printed, and what comes out. -/
structure Behaviour (α : Type) where
  trace : List Output
  result : Except Stop α

namespace Behaviour

instance : Monad Behaviour where
  pure a := ⟨[], .ok a⟩
  bind x f :=
    match x.result with
    | .ok a => ⟨x.trace ++ (f a).trace, (f a).result⟩
    | .error e => ⟨x.trace, .error e⟩

def stop {α : Type} (e : Stop) : Behaviour α := ⟨[], .error e⟩

def print (o : Output) : Behaviour Unit := ⟨[o], .ok ()⟩

def ofOption {α : Type} (e : Stop) : Option α → Behaviour α
  | some a => pure a
  | none => stop e

end Behaviour

abbrev Store := VarId → Option Datum

namespace Store

def empty : Store := fun _ => none

def set (σ : Store) (x : VarId) (d : Datum) : Store := Function.update σ x (some d.stored)

def enter (T : Table) (i : ScopeId) (σ : Store) : Store := fun x =>
  if (T.var? x).any (·.scope = i) then none else σ x

def ofArgs : List VarId → List Datum → Store
  | x :: xs, d :: ds => (ofArgs xs ds).set x d
  | _, _ => empty

def env (σ : Store) (const : Text → Arm.Word) : Env := ⟨fun x => (σ x).getD (.int 0), const⟩

end Store

inductive Move where
  | next (σ : Store)
  | ret (x : Datum)

def andThen (b : Behaviour Move) (f : Store → Behaviour Move) : Behaviour Move := do
  match ← b with
  | .next σ => f σ
  | .ret x => return .ret x

/-- What statements are executed with: the table, where the constants for strings are, and what the
    next turn of a loop and a call do. -/
structure Host where
  table : Table
  const : Text → Arm.Word
  again : Stat → Store → Behaviour Move
  call : FuncId → List Datum → Behaviour Datum

end Reference

open Reference

def Expr.run (H : Host) (e : Expr) (σ : Store) : Behaviour Datum :=
  if e.vars.all (σ · |>.isSome) then .ofOption (.error .arithmetic) (e.eval (σ.env H.const)) else .stop .unset

def Expr.runAll (H : Host) (σ : Store) : List Expr → Behaviour (List Datum)
  | [] => return []
  | e :: es => do return (← e.run H σ) :: (← Expr.runAll H σ es)

def Expr.test (H : Host) (e : Expr) (σ : Store) : Behaviour Bool := do
  match ← e.run H σ with
  | .bool b => return b
  | _ => .stop .stuck

def Value.run (H : Host) (σ : Store) : Value → Behaviour Datum
  | .expr e => e.run H σ
  | .call _ _ f _ args => do H.call f (← Expr.runAll H σ args)
  | _ => .stop .stuck

def Reference.turn (test : Store → Behaviour Bool) (body again : Store → Behaviour Move) (σ : Store) :
    Behaviour Move := do
  if ← test σ then andThen (body σ) again else return .next σ

mutual

def Stat.exec (H : Host) : Stat → Store → Behaviour Move
  | .skip _, σ => return .next σ
  | .declare _ x _ _ v, σ => do return .next (σ.set x (← v.run H σ))
  | .assign _ (.var id) v, σ => do return .next (σ.set id.var (← v.run H σ))
  | .assign _ _ _, _ | .read _ _, _ => .stop .stuck
  | .free _ e, σ => do
    match (← e.run H σ).address? with
    | some a => .stop (if a = 0 then .error .null else .stuck)
    | none => .stop .stuck
  | .ret _ e, σ => do return .ret (← e.run H σ)
  | .exit _ e, σ => do
    match ← e.run H σ with
    | .int n => .stop (.exit n)
    | _ => .stop .stuck
  | .print _ e newline, σ => do
    Behaviour.print (.value (← e.run H σ))
    if newline then Behaviour.print .line
    return .next σ
  | .block b, σ => b.exec H σ
  | .ifThen _ c yes, σ => do if ← c.test H σ then yes.exec H σ else return .next σ
  | .ifElse _ c yes no, σ => do if ← c.test H σ then yes.exec H σ else no.exec H σ
  | .while site c b, σ => turn (c.test H) (fun σ => b.exec H σ) (H.again (.while site c b)) σ
  | .for site h init c step b, σ =>
    andThen (init.exec H (σ.enter H.table h)) <|
      turn (c.test H) (fun σ => andThen (b.exec H σ) fun σ => step.exec H σ)
        (H.again (.for site h init c step b))
  | .seq _ ss, σ => Stat.execAll H ss σ

def Stat.execAll (H : Host) : List Stat → Store → Behaviour Move
  | [], σ => return .next σ
  | s :: ss, σ => andThen (s.exec H σ) fun σ => Stat.execAll H ss σ

def Block.exec (H : Host) : Block → Store → Behaviour Move
  | .mk _ i b, σ => b.exec H (σ.enter H.table i)

end

def Stat.turn (H : Host) : Stat → Store → Behaviour Move
  | .while site c b => Reference.turn (c.test H) (b.exec H) (H.again (.while site c b))
  | .for site h init c step b =>
    Reference.turn (c.test H) (fun σ => andThen (b.exec H σ) (step.exec H)) (H.again (.for site h init c step b))
  | _ => fun _ => .stop .stuck

def Func.apply (H : Host) (f : Func) (args : List Datum) : Behaviour Datum := do
  match ← f.body.exec H (.ofArgs f.params args) with
  | .ret x => return x
  | .next _ => .stop .stuck

namespace Program

def host (p : Program) (const : Text → Arm.Word) : Nat → Nat → Host
  | 0, _ => ⟨p.table, const, fun _ _ => .stop .late, fun _ _ => .stop .late⟩
  | n + 1, d =>
    { table := p.table
      const := const
      again := fun s σ => s.turn (p.host const n d) σ
      call := fun f args =>
        match d, p.funcs.find? (·.id = f) with
        | 0, _ => .stop .deep
        | _, none => .stop .stuck
        | d + 1, some g => g.apply (p.host const n d) args }

def run (p : Program) (const : Text → Arm.Word) (n d : Nat) : Behaviour Unit := do
  match ← p.body.exec (p.host const n d) .empty with
  | .next _ => return
  | .ret _ => .stop .stuck

end Program

/-! ## Scalar programs -/

def Stat.isPlain : Stat → Bool
  | .read _ _ => false
  | .print _ e _ => e.type.isScalar
  | _ => true

/-- Whether variables, parameters, results and printed values are scalar, and nothing is read. -/
def Program.isScalar (p : Program) : Bool :=
  p.table.vars.all (·.type.isScalar) && p.table.funcs.all (·.result.isScalar) &&
    (p.body.parts ++ p.funcs.flatMap (·.body.parts)).all Stat.isPlain

end Wacc
