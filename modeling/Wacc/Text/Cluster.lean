/-
  Clusters: what a reader takes for one character.

  A cluster is a character with all that belongs to it: marks, the parts of a Hangul syllable, the
  members of a joined emoji, the two letters of a flag.  The classes are those of Unicode 15.

  Text need not be valid UTF-8.  A first byte whose continuation bytes are wrong stands for itself
  with those that are right, and one that asks for more bytes than are left takes all that is left
  into the cluster before it.
-/
import Wacc.Text.Utf8
import Wacc.Text.Width

namespace Wacc.Cluster

inductive Joint where
  | other
  | cr
  | lf
  | control
  | extend
  | joiner
  | flag
  | prepend
  | spacing
  | l
  | v
  | t
  | lv
  | lvt
  | picture
  deriving DecidableEq, Repr, Inhabited

def controls : Ranges := Ranges.ofString
  "0-9 2-1 2-11 60-20 E 56F 11F2 7FD 3-1 19-6 32-F DE90 F1-B 3435-F 8861-3 14D0-7 C2E86-1F 61-7F
  F1-E0F"

def extenders : Ranges := Ranges.ofString
  "300-6F 114-6 108-2C 2 2-1 2-1 2 49-A 31-14 11 66-6 3-5 3-1 2-3 24 1F-1A 5C-A 3B-8 A 19-3 2-8 2-2
  2-4 2C-2 3D-7 2B-17 2-1F 38 2 5-7 5 4-6 B-1 1E 3B 2 3-3 9 A B-1 1B 3-1 3A 5-1 5-1 3-2 4 1F-1 4
  C-1 3A 5-4 2-1 5 15-1 17-5 2 3B 2-1 2-3 9 8-2 B-1 1F 3C 2 D A 29 4 38 2-2 6-2 2-3 8-1 C-1 1E 3B
  3 3 4 6-1 8-1 C-1 1D-1 3A-1 2 3-3 9 A B-1 1E 49 5 3-2 2 9 52 3-6 D-7 63 3-8 C-6 4A-1 1C 2 2 38-D
  2-4 2-1 6-A 2-23 A 67-3 2-5 2-1 3-1 1A-1 5-2 11-3 E 3-1 7 10 2C0-2 3B3-2 1E-1 1F-1 1F-1 41-1 2-6
  9 3-A A 2E-2 2 76-1 23 77-2 5-1 A 7-2 DC-1 3 3B 2-6 2 2 3-7 7-9 3 31-1E 32-3 31-6 2 6 29-8 D-1
  21-3 3-1 2-2 39 2-1 4 2-2 3B-7 3-1 99-2 2-C 2-6 5 7 4-1 C7-3F 20D C4-20 BFF-2 8E 61-1F 22B-5
  6A-1 75D5-3 2-9 21-1 51-1 111 4 5 1A-1 6 98-1 1B-11 E 27-7 1A-A 2F-2 31 3-3 3-1 28 44-5 3-1 3-1
  D 9 30 34 2-2 3-1 6-1 2 2B-1 9 EF 3 5 4F31 2E2-F 11-F 16F-1 25E E3 96-4 687-2 2-1 6-3 29-2 5
  A6-1 23E-3 184-1 51-2 47-A 32-3 7C 37-E 2A 3-1 B-2 32-3 3-1 8 3E-2 25-4 2-7 3F D-1 35-8 B-3 3
  60-2 3 2-1 7 3 9E 4-7 16-1 3A-1 2 2 17 F-6 4-4 C4-7 3-2 2 18 52 3-5 2 3 2-1 2-1 EC 3-3 7-1 2-1
  1C-1 56-7 3 2-1 6B 2 3-5 2 66-2 3-3 2-4 104-8 2-1 F6 B-1 2 5 91-3 3-1 5 21-9 29-5 3-3 9 A-5 3-2
  2F-C 2-1 197-6 2-5 2 53-15 3-6 2-1 2-1 7B-5 4 2-1 2-6 2 49-1 4 2 15C-1 C-1 35-4 6 2 14FE 7-E
  369B-4 3C-6 419 40-3 52 4CB9-1 1262-2D 3-16 21F 2-2 5-4 9-7 3-6 1F-3 95-2 7BC-36 5-31 9 F 17-4
  2-E 551-6 2-10 3-6 2-1 2-4 65 A1-6 178 3E-3 1FD-3 3E1-6 6E-6 AB1-4 C0C21-5F 81-EF"

def prepended : Ranges := Ranges.ofString
  "600-5 D8 32 181-1 51 46C 1036F 10 F5-1 77C 2 F9 4A-5 2BD 1BC"

def spacings : Ranges := Ranges.ofString
  "903 38 3-2 9-3 2-1 33-1 3C-1 7-1 3-1 37 3B-2 43 3B-2 9 2-1 36-1 3D 7-1 3-1 73 2-1 4-2 2-2 35-2
  3E-3 3E-1 3B 2-1 2-1 3-1 2-1 28 F-1 3C-1 6-2 2-2 36-1 4D-1 7-6 14-1 40 80 8B-1 40 B2 A-1 1A-1 2D
  691 1F 82 8-7 2-1 15B-3 3-2 5-1 2-5 E1-1 3B 2 16-5 92 37 2-4 2-1 3E 1F 5-1 3 3D 3-2 2 4-1 31-7
  9-1 AC 16 8B2C-1 3 59-1 33-F 8F-1 30 31-1 5-1 3-2 6F-1 3-1 19 9E 3-1 6 EE-1 2-1 2-1 2 6414 2 80
  2E-2 5-1 74 19-1 3C 31-2 A-1 E 5E-2 4-1 2 AB-2 20-1 3C 2-3 3-1 3-2 15-1 D2-2 9-1 4 6C-1 7 2-1 2
  3 EF-1 7-3 3 72-2 9-1 2 6E 2-1 7 70 106-2 A F9-4 2-1 5 3 2 8F-2 9-3 5 55 1E-1 3F 198 F 6B 8 3
  D6-4 5-1 2 15F-1 D 31-1 9-1 2 5010-36 69-1 6175 7"

def pictures : Ranges := Ranges.ofString
  "A9 5 1F8E D D9 17 5B-5 10-1 170-1 D 60 47 1A-A 5-2 C8 E8-1 B A 3B-3 2-5 2-B 2-71 B-75 3-A 2 2 7
  4 7 B-1 10 3 5 2 5-2 2 C-4 2E-2 A F F 175-1 1D0-2 14-1 34 5 4DB D 25A 2 1BD67-FF E-2 20 3D-5 D-1
  F 3-9 13-38 1C-E B 15 3-8 2-3 A-1B1 6-13D 9-109 31-7F 75-B 56-2A D-3 39-7 B-5 29-7 1F-51 D-2E
  2-9 2-1B8 101-3FD"

def hangul? (c : Nat) : Option Joint :=
  if (0x1100 ≤ c && c ≤ 0x115F) || (0xA960 ≤ c && c ≤ 0xA97C) then some .l
  else if (0x1160 ≤ c && c ≤ 0x11A7) || (0xD7B0 ≤ c && c ≤ 0xD7C6) then some .v
  else if (0x11A8 ≤ c && c ≤ 0x11FF) || (0xD7CB ≤ c && c ≤ 0xD7FB) then some .t
  else if 0xAC00 ≤ c && c ≤ 0xD7A3 then some (if (c - 0xAC00) % 28 = 0 then .lv else .lvt)
  else none

def joint (c : Nat) : Joint :=
  if c = 0x0D then .cr
  else if c = 0x0A then .lf
  else if 0x20 ≤ c && c ≤ 0x7E then .other
  else if c = 0x200D then .joiner
  else if 0x1F1E6 ≤ c && c ≤ 0x1F1FF then .flag
  else match hangul? c with
    | some j => j
    | none =>
      if controls.holds c then .control
      else if extenders.holds c then .extend
      else if prepended.holds c then .prepend
      else if spacings.holds c then .spacing
      else if pictures.holds c then .picture
      else .other

structure Open where
  last : Joint
  /-- the class of the last character that does not only extend -/
  base : Joint
  before : Joint := .other
  flags : Nat := 0
  deriving Repr

def Open.first (j : Joint) : Open := { last := j, base := if j = .extend then .other else j }

def joins (o : Open) (j : Joint) : Bool :=
  let ends (x : Joint) : Bool := x == .control || x == .cr || x == .lf
  if o.last = .cr && j = .lf then true
  else if ends o.last || ends j then false
  else if o.last = .l && (j = .l || j = .v || j = .lv || j = .lvt) then true
  else if (o.last = .lv || o.last = .v) && (j = .v || j = .t) then true
  else if (o.last = .lvt || o.last = .t) && j = .t then true
  else if j = .extend || j = .joiner || j = .spacing || o.last = .prepend then true
  else if j = .picture && o.last = .joiner && o.before = .picture then true
  else j = .flag && o.last = .flag && o.flags % 2 = 0

def Open.add (o : Open) (j : Joint) : Open :=
  { last := j
    base := if j = .extend then o.base else j
    before := if j = .extend then o.before else o.base
    flags := if j = .flag && o.last = .flag then o.flags + 1 else o.flags }

/-- The next unit of a text that is not empty: its bytes and its class.  There is none if a first
    byte asks for more bytes than are left. -/
def unit? (b : UInt8) (rest : Text) : Option (Nat × Joint) :=
  let size :=
    if b < 0xC2 || 0xF8 ≤ b then 1 else if b < 0xE0 then 2 else if b < 0xF0 then 3 else 4
  if b < 0x80 then some (1, joint b.toNat)
  else if size = 1 then some (1, .other)
  else if rest.length + 1 < size then none
  else
    let tail := (rest.take (size - 1)).takeWhile Utf8.isTail
    if tail.length + 1 < size then some (tail.length + 1, .other)
    else
      let (n, c) := Utf8.decode b rest
      some (size, if n + 1 = size then joint c else .other)

def extent (o : Open) : Nat → Text → Nat
  | 0, _ => 0
  | _, [] => 0
  | fuel + 1, b :: rest =>
    match unit? b rest with
    | none => rest.length + 1
    | some (n, j) =>
      if joins o j then n + extent (o.add j) fuel ((b :: rest).drop n) else 0

/-- The number of bytes of the first cluster of a text that is not empty. -/
def size (b : UInt8) (rest : Text) : Nat :=
  match unit? b rest with
  | none => rest.length + 1
  | some (n, j) => n + extent (.first j) rest.length ((b :: rest).drop n)

/-- The clusters of a text.  Each takes a byte at least, so the length of the text is enough for
    `fuel`. -/
def split : Nat → Text → List Text
  | 0, _ => []
  | _, [] => []
  | fuel + 1, b :: rest =>
    let n := size b rest
    (b :: rest).take n :: split fuel ((b :: rest).drop n)

def ofText (t : Text) : List Text := split t.length t

/-- The number of cells of a cluster: that of its first character that takes any. -/
def width (cluster : Text) : Nat := (((Utf8.codes cluster).map Width.ofChar).find? (0 < ·)).getD 0

def textWidth (t : Text) : Nat := (ofText t).foldr (fun c n => width c + n) 0

end Wacc.Cluster
