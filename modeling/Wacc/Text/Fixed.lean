/-
  Doubles in decimal with a fixed number of places.

  A finite double is a whole number times a power of two, so its decimal text is the quotient of
  two natural numbers, rounded once.  A tie goes to the even neighbour.
-/
import Wacc.Text.Basic

namespace Wacc.Fixed

inductive Value where
  | finite (negative : Bool) (mantissa power : Nat)
  | infinite (negative : Bool)
  | nan
  deriving DecidableEq, Repr

/-- The value of a bit pattern: a sign bit, eleven bits of exponent, 52 bits of fraction. -/
def Value.ofBits (bits : UInt64) : Value :=
  let n := bits.toNat
  let negative := n / Nat.pow 2 63 == 1
  let exponent := n / Nat.pow 2 52 % 2048
  let fraction := n % Nat.pow 2 52
  if exponent = 2047 then
    if fraction = 0 then .infinite negative else .nan
  else if exponent = 0 then .finite negative fraction 0
  else .finite negative (Nat.pow 2 52 + fraction) (exponent - 1)

def roundDiv (num den : Nat) : Nat :=
  let q := num / den
  let r := num % den
  if den < 2 * r || (2 * r == den && q % 2 == 1) then q + 1 else q

def ofUnits (places units : Nat) : Text :=
  if places = 0 then decimal units
  else decimal (units / Nat.pow 10 places) ++ lit "." ++
    Text.padLeft places '0'.toUInt8 (decimal (units % Nat.pow 10 places))

def Value.text (places : Nat) : Value → Text
  | .finite negative mantissa power =>
    (if negative then lit "-" else []) ++
      ofUnits places (roundDiv (mantissa * Nat.pow 2 power * Nat.pow 10 places) (Nat.pow 2 1074))
  | .infinite negative => if negative then lit "-Inf" else lit "+Inf"
  | .nan => lit "NaN"

def text (places : Nat) (x : Float) : Text := (Value.ofBits x.toBits).text places

end Wacc.Fixed
