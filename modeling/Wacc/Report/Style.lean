/-
  Colours on a terminal.
-/
import Wacc.Text.Basic

namespace Wacc

/-- A way to write text on a terminal: the numbers that switch it on and off. -/
structure Style where
  on : List Nat
  off : List Nat
  deriving DecidableEq, Repr

namespace Style

def sequence (ns : List Nat) : Text :=
  lit "\x1b[" ++ Text.joinWith (lit ";") (ns.map decimal) ++ lit "m"

def paint (s : Style) (wanted : Bool) (t : Text) : Text :=
  if wanted then sequence s.on ++ t ++ sequence s.off else t

def color (n : Nat) : Style := ⟨[n], [0]⟩

def strong (n : Nat) : Style := ⟨[n, 1], [0, 22]⟩

def bold : Style := ⟨[1], [22]⟩

def red : Nat := 31
def green : Nat := 32
def yellow : Nat := 33
def blue : Nat := 34

end Style

end Wacc
