/-
  Letters in lower case.

  `lowers` gives the distance from each capital to its small letter (Unicode 15).  The small letter
  may take another number of bytes.
-/
import Wacc.Text.Ranges
import Wacc.Text.Utf8

namespace Wacc.Case

/-- Capitals, by the step in their ranges and the distance to the small letters. -/
def capitals : List (Nat × Int × String) := [
  (1, -42319, "A7AB"), (1, -42315, "A7AC"), (1, -42308, "A7AA 4"), (1, -42307, "A7C5"),
  (1, -42305, "A7AD"), (1, -42282, "A7B1"), (1, -42280, "A78D"), (1, -42261, "A7B2"),
  (1, -42258, "A7B0"), (1, -35384, "A7C6"), (1, -35332, "A77D"), (1, -10815, "2C7E-1"),
  (1, -10783, "2C6F"), (1, -10782, "2C70"), (1, -10780, "2C6D"), (1, -10749, "2C6E"),
  (1, -10743, "2C62"), (1, -10727, "2C64"), (1, -8383, "212A"), (1, -8262, "212B"),
  (1, -7615, "1E9E"), (1, -7517, "2126"), (1, -3814, "2C63"), (1, -3008, "1C90-2A 3-2"),
  (1, -199, "130"), (1, -195, "243"), (1, -163, "23D"), (1, -130, "220 1DD-2"), (1, -128, "1FF8-1"),
  (1, -126, "1FFA-1"), (1, -121, "178"), (1, -112, "1FEA-1"), (1, -100, "1FDA-1"), (1, -97, "1F6"),
  (1, -86, "1FC8-3"), (1, -74, "1FBA-1"), (1, -60, "3F4"), (1, -56, "1F7"), (1, -48, "A7C4"),
  (1, -9, "1FBC 10 30"), (1, -8, "1F08-7 9-5 B-7 9-7 9-5 1B-7 19-7 9-7 9-7 9-1 1F-1 F-1"),
  (1, -7, "3F9 1BF3"), (1, 1, "187 4 6 7 F 5 3 9 4 9 3 73 6 135 81 3 1D89 ADD 12 3 7D 7A99 45 25"),
  (1, 2, "1C4 3 3 27"), (1, 8, "3CF 1021-5"), (1, 15, "4C0"), (1, 16, "2160-F"), (1, 26, "24B6-19"),
  (1, 28, "2132"), (1, 32, "41-19 66-16 2-6 2B3-10 2-8 65-1F FAF2-19 1966-1F 5581-1F"),
  (1, 34, "1E900-21"), (1, 37, "388-2"), (1, 38, "386"), (1, 39, "10570-A 2-E 2-6 2-1"),
  (1, 40, "10400-27 89-23"), (1, 48, "531-25 26AA-2F"), (1, 63, "38E-1"), (1, 64, "38C 108F4-32"),
  (1, 69, "244"), (1, 71, "245"), (1, 79, "18E"), (1, 80, "400-F"), (1, 116, "37F"),
  (1, 202, "18F"), (1, 203, "190"), (1, 205, "189-1 9"), (1, 206, "186"), (1, 207, "194"),
  (1, 209, "197"), (1, 210, "181"), (1, 211, "196 6"), (1, 213, "19D"), (1, 214, "19F"),
  (1, 217, "1B1-1"), (1, 218, "1A6 3 5"), (1, 219, "1B7"), (1, 928, "A7B3"),
  (1, 7264, "10A0-25 2 6"), (1, 10792, "23E"), (1, 10795, "23A"), (1, 38864, "13A0-4F"),
  (2, -8, "1F59-6"),
  (2, 1, "100-2E 4-4 3-E 3-2C 3-4 5-2 1C-4 F-2 16-10 3-10 4-2 4-26 4-10 14-8 122-2 66-16 72-20 A-34
    3-C 3-5E 18D2-94 C-5E D69-4 15-62 9-2 7953-2C 14-1A 88-C 4-3C B-2 3-8 A-2 4-12 C-E 5-2 D-2")]

/-- Capitals: first and last of a range, the step in it, and the distance to the small letters. -/
def lowers : Array (Nat × Nat × Nat × Int) :=
  (capitals.flatMap fun (step, d, s) =>
    (Ranges.ofString s).toList.map fun (lo, hi) => (lo, hi, step, d)).toArray

def lowerCode (c : Nat) : Nat :=
  match lowers.find? fun (lo, hi, step, _) => lo ≤ c && c ≤ hi && (c - lo) % step == 0 with
  | some (_, _, _, d) => (c + d).toNat
  | none => c

/-- A text in lower case; what is no character becomes the replacement character. -/
def lower (t : Text) : Text := (Utf8.codes t).flatMap fun c => Utf8.encode (lowerCode c)

end Wacc.Case
