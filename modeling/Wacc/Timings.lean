/-
  How long the phases of a compilation took.

  A timer keeps its phases in the order in which they were started; a phase gets its note when it
  is stopped, the last one if it is stopped more than once.
-/
import Wacc.Text.Fixed
import Wacc.Text.Utf8

namespace Wacc

structure Phase where
  name : Text
  note : Text := []
  deriving DecidableEq, Repr

structure Timer where
  phases : List Phase := []
  deriving DecidableEq, Repr

namespace Timer

def start (t : Timer) (name : Text) : Timer := { phases := t.phases ++ [{ name }] }

def stop (t : Timer) (i : Nat) (note : Text) : Timer :=
  { phases := t.phases.modify i fun p => { p with note } }

end Timer

structure Timings where
  phases : List (Phase × Float) := []
  total : Float := 0

namespace Timings

def column (name : Text) : Text := name ++ Text.blanks (10 - (Utf8.codes name).length)

def line (name note : Text) (ms : Float) : Text :=
  lit "  " ++ column name ++ lit " " ++ Text.padLeft 8 ' '.toUInt8 (Fixed.text 3 ms) ++ lit " ms" ++
    (if note.isEmpty then [] else lit "  // " ++ note) ++ lit "\n"

def summary (t : Timings) : Text :=
  lit "timings:\n" ++ (t.phases.map fun (p, ms) => line p.name p.note ms).flatten ++
    line (lit "total") [] t.total

end Timings

end Wacc
