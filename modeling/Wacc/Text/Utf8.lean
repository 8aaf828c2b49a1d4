/-
  UTF-8: characters as code points, in text that may be broken.

  `decode` reads one character; a byte that starts no valid sequence is read alone, as the
  replacement character.  `pieces` cuts a text into characters with the bytes of each, so the
  pieces always concatenate to the text.  `encode` writes a code point.
-/
import Wacc.Text.Basic

namespace Wacc.Utf8

def replacement : Nat := 0xFFFD

/-- A character of a text: its code point and the bytes it was read from. -/
structure Piece where
  code : Nat
  bytes : Text
  deriving DecidableEq, Repr

def Piece.broken (p : Piece) : Bool := p.code == replacement && p.bytes.length == 1

def isTail (b : UInt8) : Bool := 0x80 ≤ b && b ≤ 0xBF

def tailBits (b : UInt8) : Nat := (b &&& 0x3F).toNat

/-- The number of continuation bytes that `b` announces and the range of the first of them. -/
def lead? (b : UInt8) : Option (Nat × UInt8 × UInt8) :=
  if 0xC2 ≤ b && b ≤ 0xDF then some (1, 0x80, 0xBF)
  else if b == 0xE0 then some (2, 0xA0, 0xBF)
  else if b == 0xED then some (2, 0x80, 0x9F)
  else if 0xE1 ≤ b && b ≤ 0xEF then some (2, 0x80, 0xBF)
  else if b == 0xF0 then some (3, 0x90, 0xBF)
  else if 0xF1 ≤ b && b ≤ 0xF3 then some (3, 0x80, 0xBF)
  else if b == 0xF4 then some (3, 0x80, 0x8F)
  else none

/-- The number of bytes after `b` that its character takes from `rest`, and its code point. -/
def decode (b : UInt8) (rest : Text) : Nat × Nat :=
  if b < 0x80 then (0, b.toNat)
  else match lead? b, rest with
    | some (1, lo, hi), c :: _ =>
      if lo ≤ c && c ≤ hi then (1, (b &&& 0x1F).toNat * 64 + tailBits c) else (0, replacement)
    | some (2, lo, hi), c :: d :: _ =>
      if lo ≤ c && c ≤ hi && isTail d then
        (2, ((b &&& 0x0F).toNat * 64 + tailBits c) * 64 + tailBits d)
      else (0, replacement)
    | some (3, lo, hi), c :: d :: e :: _ =>
      if lo ≤ c && c ≤ hi && isTail d && isTail e then
        (3, (((b &&& 0x07).toNat * 64 + tailBits c) * 64 + tailBits d) * 64 + tailBits e)
      else (0, replacement)
    | _, _ => (0, replacement)

def pieces : Text → List Piece
  | [] => []
  | b :: rest =>
    let (n, code) := decode b rest
    ⟨code, b :: rest.take n⟩ :: pieces (rest.drop n)
termination_by t => t.length
decreasing_by simp only [List.length_drop, List.length_cons]; omega

def codes (t : Text) : List Nat := (pieces t).map (·.code)

def encode (c : Nat) : Text :=
  if c < 0x80 then [c.toUInt8]
  else if c < 0x800 then [(0xC0 + c / 64).toUInt8, (0x80 + c % 64).toUInt8]
  else if c < 0x10000 then
    [(0xE0 + c / 4096).toUInt8, (0x80 + c / 64 % 64).toUInt8, (0x80 + c % 64).toUInt8]
  else
    [(0xF0 + c / 262144).toUInt8, (0x80 + c / 4096 % 64).toUInt8, (0x80 + c / 64 % 64).toUInt8,
      (0x80 + c % 64).toUInt8]

def valid (t : Text) : Bool := (pieces t).all fun p => !p.broken

def isSpace (c : Nat) : Bool :=
  (9 ≤ c && c ≤ 13) || c == 32 || c == 0x85 || c == 0xA0 || c == 0x1680 ||
    (0x2000 ≤ c && c ≤ 0x200A) || c == 0x2028 || c == 0x2029 || c == 0x202F || c == 0x205F ||
    c == 0x3000

def trimSpace (t : Text) : Text :=
  let drop := List.dropWhile fun p : Piece => isSpace p.code
  ((drop (drop (pieces t)).reverse).reverse).flatMap (·.bytes)

/-- ASCII letters without regard to case, with the two other characters that fold to ASCII. -/
def fold (t : Text) : Text :=
  (pieces t).flatMap fun p =>
    if p.code == 0x17F then ['s'.toUInt8]
    else if p.code == 0x212A then ['k'.toUInt8]
    else if p.code < 0x80 then p.bytes.map Text.lowerByte
    else p.bytes

end Wacc.Utf8
