/-
  Text as bytes.

  Source files need not be valid UTF-8, and positions count bytes, so text is a list of bytes
  throughout.  `lit` gives the bytes of a string, `decimal` and `hex` write numbers, and the other
  functions pad, join, split and trim.
-/

namespace Wacc

abbrev Text := List UInt8

def lit (s : String) : Text := s.toByteArray.data.toList

namespace Text

def digit (n : Nat) : UInt8 :=
  if n < 10 then (48 + n).toUInt8 else (87 + n).toUInt8

/-- `n` in base `base`, least digit first, without leading zeros.  No digit for zero. -/
def digitsRev (base : Nat) (n : Nat) : Text :=
  if _h : n = 0 ∨ base < 2 then [] else digit (n % base) :: digitsRev base (n / base)
termination_by n
decreasing_by
  have : n ≠ 0 ∧ 2 ≤ base := by omega
  exact Nat.div_lt_self (by omega) (by omega)

def digits (base n : Nat) : Text :=
  if n = 0 then [digit 0] else (digitsRev base n).reverse

def padLeft (width : Nat) (fill : UInt8) (t : Text) : Text :=
  List.replicate (width - t.length) fill ++ t

def blanks (n : Nat) : Text := List.replicate n ' '.toUInt8

def joinWith (sep : Text) : List Text → Text
  | [] => []
  | [t] => t
  | t :: u :: rest => t ++ sep ++ joinWith sep (u :: rest)

def splitOn (sep : UInt8) : Text → List Text
  | [] => [[]]
  | b :: rest =>
    if b = sep then [] :: splitOn sep rest
    else match splitOn sep rest with
      | [] => [[b]]
      | part :: parts => (b :: part) :: parts

def startsWith (t p : Text) : Bool := p.isPrefixOf t

def endsWith (t s : Text) : Bool := s.isSuffixOf t

def after? (t p : Text) : Option Text :=
  if p.isPrefixOf t then some (t.drop p.length) else none

def before? (t s : Text) : Option Text :=
  if s.isSuffixOf t then some (t.take (t.length - s.length)) else none

/-- The first place where `p` occurs in `t`: what is before it and what is after it. -/
def cut? (t p : Text) : Option (Text × Text) :=
  match t with
  | [] => if p.isEmpty then some ([], []) else none
  | b :: rest =>
    if p.isPrefixOf (b :: rest) then some ([], (b :: rest).drop p.length)
    else (cut? rest p).map fun (x, y) => (b :: x, y)

def contains (t p : Text) : Bool := (t.cut? p).isSome

def trim (t : Text) (p : UInt8 → Bool) : Text :=
  ((t.dropWhile p).reverse.dropWhile p).reverse

def lowerByte (b : UInt8) : UInt8 :=
  if 65 ≤ b ∧ b ≤ 90 then b + 32 else b

def lt : Text → Text → Bool
  | _, [] => false
  | [], _ :: _ => true
  | a :: s, b :: t => if a = b then lt s t else a < b

def toString? (t : Text) : Option String := String.fromUTF8? ⟨t.toArray⟩

end Text

def decimal (n : Nat) : Text := Text.digits 10 n

def decimalInt : Int → Text
  | .ofNat n => decimal n
  | .negSucc n => '-'.toUInt8 :: decimal (n + 1)

def hex (width n : Nat) : Text := Text.padLeft width '0'.toUInt8 (Text.digits 16 n)

end Wacc
