/-
  Sets of code points given by ranges, and tables of code points written as texts.
-/

namespace Wacc

/-- A set of code points: closed ranges, in ascending order. -/
abbrev Ranges := Array (Nat × Nat)

def hexNumber (s : String) : Nat :=
  s.toList.foldl (fun n c => 16 * n + if c.isDigit then c.toNat - 48 else c.toNat - 55) 0

def words (s : String) : List String :=
  (s.splitOn "\n").flatMap fun l => (l.splitOn " ").filter (· ≠ "")

def hexNumbers (s : String) : List Nat := (words s).map hexNumber

/-- Ranges, each by its distance from the end of the one before, and by its length if it has more
    than one code point: `distance-length`. -/
def Ranges.ofString (s : String) : Ranges :=
  ((words s).foldl
    (fun (last, rs) r =>
      let lo := last + hexNumber ((r.splitOn "-").headD "")
      let hi := lo + hexNumber ((r.splitOn "-").getD 1 "")
      (hi, rs.push (lo, hi)))
    (0, (#[] : Ranges))).2

def Ranges.holds (rs : Ranges) (c : Nat) : Bool := rs.any fun (lo, hi) => lo ≤ c && c ≤ hi

end Wacc
