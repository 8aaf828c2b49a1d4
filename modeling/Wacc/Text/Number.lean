/-
  Reading numbers.

  The digits are read from the left.  A number that leaves the range of unsigned words is refused
  there and then, whatever follows; a number that leaves only the signed range is refused at its
  end.
-/
import Wacc.Text.Quoted

namespace Wacc.Number

inductive Problem where
  | malformed
  | outOfRange
  deriving DecidableEq, Repr

def Problem.message : Problem → Text
  | .malformed => lit "invalid syntax"
  | .outOfRange => lit "value out of range"

def digitValue? (b : UInt8) : Option Nat :=
  if 48 ≤ b ∧ b ≤ 57 then some (b.toNat - 48)
  else
    let c := Text.lowerByte b
    if 97 ≤ c ∧ c ≤ 122 then some (c.toNat - 87) else none

def digits (base : Nat) (n : Nat) : Text → Except Problem Nat
  | [] => .ok n
  | b :: rest =>
    match digitValue? b with
    | none => .error .malformed
    | some d =>
      if base ≤ d then .error .malformed
      else if 0x10000000000000000 ≤ n * base + d then .error .outOfRange
      else digits base (n * base + d) rest

def unsigned (base : Nat) (t : Text) : Except Problem Nat :=
  if t.isEmpty then .error .malformed else digits base 0 t

def sign : Text → Bool × Text
  | b :: rest =>
    if b = '-'.toUInt8 then (true, rest)
    else if b = '+'.toUInt8 then (false, rest)
    else (false, b :: rest)
  | [] => (false, [])

def signedValue (negative : Bool) (n : Nat) : Except Problem Int :=
  if negative then if 0x8000000000000000 < n then .error .outOfRange else .ok (-n)
  else if 0x8000000000000000 ≤ n then .error .outOfRange else .ok n

def decimal (t : Text) : Except Problem Int := do
  let (negative, rest) := sign t
  signedValue negative (← unsigned 10 rest)

/-- The base that the beginning of a number names, and the digits that follow. -/
def based : Text → Nat × Text
  | 48 :: b :: c :: rest =>
    let l := Text.lowerByte b
    if l = 'b'.toUInt8 then (2, c :: rest)
    else if l = 'o'.toUInt8 then (8, c :: rest)
    else if l = 'x'.toUInt8 then (16, c :: rest)
    else (8, b :: c :: rest)
  | 48 :: rest => (8, rest)
  | t => (10, t)

/-- Every underscore stands between two digits; `digit` says whether one has just been seen. -/
def spacedFrom (digit : Bool) : Text → Bool
  | [] => true
  | b :: rest =>
    if b = '_'.toUInt8 then
      match rest with
      | c :: _ => digit && c != '_'.toUInt8 && spacedFrom false rest
      | [] => false
    else spacedFrom true rest

/-- Whether the underscores of a number stand between digits.  A letter for the base counts as a
    digit. -/
def spaced (t : Text) : Bool :=
  match t with
  | 48 :: b :: rest => if [98, 111, 120].contains (Text.lowerByte b) then spacedFrom true rest else spacedFrom false t
  | _ => spacedFrom false t

/-- An integer in the base that it names, with underscores between digits. -/
def integer (t : Text) : Except Problem Int := do
  let (negative, rest) := sign t
  if rest.isEmpty then .error .malformed
  else
    let (base, ds) := based rest
    let n ← digits base 0 (ds.filter (· != '_'.toUInt8))
    if spaced rest then signedValue negative n else .error .malformed

def complaint (reader : Text) (t : Text) (p : Problem) : Text :=
  reader ++ lit ": parsing " ++ Quoted.quote t ++ lit ": " ++ p.message

end Wacc.Number
