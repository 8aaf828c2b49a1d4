/-
  Quoted text.

  `quote` writes a text between double quotes: printable characters stand for themselves, the
  quote and the backslash are escaped, a few control characters have short escapes, other
  characters are written by their code point, and a byte that is not UTF-8 by its value.
  `quoteChar` writes one character between single quotes by the same rules.
-/
import Wacc.Text.Utf8
import Wacc.Text.Printable

namespace Wacc.Quoted

def short? (c : Nat) : Option Char :=
  match c with
  | 7 => some 'a'
  | 8 => some 'b'
  | 9 => some 't'
  | 10 => some 'n'
  | 11 => some 'v'
  | 12 => some 'f'
  | 13 => some 'r'
  | _ => none

def char (q : UInt8) (c : Nat) : Text :=
  if c = q.toNat ∨ c = 92 then [92, c.toUInt8]
  else if Printable.holds c then Utf8.encode c
  else match short? c with
    | some e => [92, e.toUInt8]
    | none =>
      if c < 0x20 ∨ c = 0x7F then lit "\\x" ++ hex 2 c
      else if c < 0x10000 then lit "\\u" ++ hex 4 c
      else lit "\\U" ++ hex 8 c

/-- A character of a text inside quotes `q`; a broken byte is written by its value. -/
def piece (q : UInt8) (p : Utf8.Piece) : Text :=
  if p.broken then lit "\\x" ++ hex 2 (p.bytes.headD 0).toNat else char q p.code

def quote (t : Text) : Text :=
  34 :: (Utf8.pieces t).flatMap (piece 34) ++ [34]

def quoteChar (c : Nat) : Text := 39 :: char 39 c ++ [39]

end Wacc.Quoted
