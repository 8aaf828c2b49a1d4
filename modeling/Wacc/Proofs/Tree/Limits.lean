/-
  Limits on the number of problems.

  A parser that counts the problems it knows of and stops reporting when it knows enough reports a first part
  of all the problems.  Neither the limit nor whether anybody listens changes how many problems there are, or
  whether the text has a tree.
-/
import Wacc.Proofs.Compile.Verdict

namespace Wacc

/-- The problems known so far, and those that were reported. -/
structure Tally where
  known : Nat
  heard : List Diagnostic

/-- The limit is reached; zero is no limit. -/
def Tally.Enough (limit : Nat) (t : Tally) : Prop := limit ≠ 0 ∧ limit ≤ t.known

instance (limit : Nat) (t : Tally) : Decidable (t.Enough limit) := inferInstanceAs (Decidable (_ ∧ _))

/-- One more problem: it counts in any case, and it is reported unless enough are known. -/
def Tally.report (limit : Nat) (listens : Bool) (t : Tally) (d : Diagnostic) : Tally where
  known := t.known + 1
  heard := if listens ∧ ¬ t.Enough limit then t.heard ++ [d] else t.heard

/-- The tally where the syntax is read from: the lexical problems are reported in any case. -/
def Parsed.start (p : Parsed) (earlier : Nat) (listens : Bool) : Tally where
  known := earlier + p.lexical.length
  heard := if listens then p.lexical else []

namespace Tally

variable {limit : Nat} {listens : Bool}

end Tally

end Wacc
