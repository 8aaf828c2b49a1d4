/-
  The parts of characters, and how they hang together.

  `parts` takes a character apart as far as it goes.  A part is bound to what precedes it if it has
  a combining class, may join a character before it, or looks like a mark; all other parts open a
  segment.  `lead` and `trail` count the bound parts at the two ends of what a character looks like.
-/
import Wacc.Text.Utf8
import Wacc.Text.Canonical

namespace Wacc.Parts

open Utf8 (Piece)

def pieceOf (c : Nat) : Piece := ⟨c, Utf8.encode c⟩

def classOf (p : Piece) : Nat := if p.broken then 0 else Canonical.combiningClass p.code

def syllable? (c : Nat) : Option (List Nat) :=
  if 0xAC00 ≤ c ∧ c ≤ 0xD7A3 then
    let s := c - 0xAC00
    let front := [0x1100 + s / 588, 0x1161 + s % 588 / 28]
    some (if s % 28 = 0 then front else front ++ [0x11A7 + s % 28])
  else none

/-- The characters that a character stands for in the end; no expansion is deeper than four
    steps. -/
def expand : Nat → Nat → List Nat
  | 0, c => [c]
  | fuel + 1, c =>
    if c < 0xC0 then [c]
    else match syllable? c with
      | some l => l
      | none =>
        match Canonical.expand? c with
        | some l => l.flatMap (expand fuel)
        | none => [c]

def parts (p : Piece) : List Piece := if p.broken then [p] else (expand 4 p.code).map pieceOf

def joinsBack (p : Piece) : Bool := !p.broken && Canonical.joinsBack p.code

def bound (p : Piece) : Bool :=
  classOf p != 0 || joinsBack p || (!p.broken && Canonical.isMarkLike p.code)

def lead (ps : List Piece) : Nat := (ps.takeWhile bound).length

/-- The bound parts at the end of a character, with the marks that its last other part shows. -/
def trail (ps : List Piece) : Nat :=
  let ends := ps.reverse
  (ends.takeWhile bound).length +
    match ends.dropWhile bound with
    | [] => 0
    | p :: _ => if p.broken then 0 else Canonical.marksOf p.code

end Wacc.Parts
