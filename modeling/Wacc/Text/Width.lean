/-
  Display widths of characters.

  On a terminal a character takes no, one or two cells.  Below U+0300 only control characters and
  the soft hyphen take none; above, combining marks and invisible characters take none and the wide
  characters of East Asian scripts and emoji take two.
-/
import Wacc.Text.Ranges

namespace Wacc.Width

def narrow : Ranges := Ranges.ofString "27E6-7 198-1"

def invisible : Ranges := Ranges.ofString "70F 10FC-3 7FD-4 19-6 3C-5 B791-7FF 1F00 FA-2 3-1"

def combining : Ranges := Ranges.ofString
  "300-6F 114-6 362-8 40D 4 EF D-1 65C-2 720 31-1E 9D-8 24D-3F 2D1-20 BFF-2 EF-1F 29A-1 75D5-3 2-9
  21-1 51-1 1EF-11 552F-F 3CE 179-4 B31-1 9A-A 32-3 37B-1 3A-1 2A-6 4-4 577C-4 640C-2D 3-16 21F-4
  4-5 9-7 3-6 1F-3 95-2 DBC-6 2-10 3-6 2-1 2-4 65 841-6"

def wide : Ranges := Ranges.ofString
  "1100-5F 11BB-1 E-1 BF-3 4 3 20A-1 16-1 33-B 2C 14 E 9-1 12-1 6-1 9 6 16 8-1 2 5 3 8 5-1 1D 24 2
  5-2 2 3E-2 19 F 35C-1 34 5 32B-19 2-58 D-D5 1B-4E 3-55 3-66 6-2A 2-5D 2-53 C-2F 2-27 9-1B6F
  41-568C 4-36 49A-1C 284-2BA3 215D-1FF 311-9 17-22 2-12 2-3 96-5F 80-6 6FFA-4 C-1 F-17F7 9-4D5
  2B-8 22E8-3 2-6 2-1 2-122 10 1E-2 3 F-3 9-18B 3D09 CB BF 3-9 66-2 E-2B 5-8 8-1 F-5 9B-20 D-8
  2-45 2-15 D-2A 5-4 D-10 4 4-46 2 2-BA 3-3E E-3 2-17 13 1B-1 E 57-54 31-45 7 4-2 3-2 5-3 C-1 8-8
  E4-B 5 11C-2E 2-9 2-B8 71-C 4-8 8-2D 2-6 9-D 5-8 8-8 508-FFFD 3-FFFD"

def ofChar (c : Nat) : Nat :=
  if c < 0x20 then 0
  else if (0x7F ≤ c && c ≤ 0x9F) || c = 0xAD then 0
  else if c < 0x300 then 1
  else if narrow.holds c then 1
  else if invisible.holds c || combining.holds c then 0
  else if wide.holds c then 2
  else 1

end Wacc.Width
