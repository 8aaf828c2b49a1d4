/-
  Composed form of text.

  `compose` writes every sequence of a character and its marks in one way: it takes characters
  apart, sorts the marks, and puts together what can be written as one character (Unicode's form
  C).  Bytes that are no character stay as they are and stop composition.  A run of more than
  thirty bound parts is broken by a joiner.

  Text is put together segment by segment; a segment begins with every part that is not bound.
-/
import Wacc.Text.Parts

namespace Wacc.Composed

open Utf8 (Piece)
open Parts (pieceOf classOf parts joinsBack bound lead trail)

/-! ## Taking apart -/

def joiner : Piece := pieceOf 0x34F

def maxRun : Nat := 30

def takeApart (run : Nat) : List Piece → List Piece
  | [] => []
  | p :: rest =>
    let ps := parts p
    let n := lead ps
    if n = 0 then ps ++ takeApart (trail ps) rest
    else if maxRun < run + n then joiner :: ps ++ takeApart n rest
    else ps ++ takeApart (run + n) rest

/-! ## Sorting marks -/

/-- Put a piece before marks that are in order; it moves behind marks of a lower class. -/
def insert (p : Piece) : List Piece → List Piece
  | [] => [p]
  | q :: rest =>
    if classOf p ≠ 0 ∧ classOf q ≠ 0 ∧ classOf q < classOf p then q :: insert p rest
    else p :: q :: rest

def sortMarks (ps : List Piece) : List Piece := ps.foldr insert []

/-! ## Putting together -/

def joinLetters? (a b : Nat) : Option Nat :=
  if 0x1100 ≤ a ∧ a < 0x1113 ∧ 0x1161 ≤ b ∧ b < 0x1176 then
    some (0xAC00 + ((a - 0x1100) * 21 + (b - 0x1161)) * 28)
  else if 0xAC00 ≤ a ∧ a ≤ 0xD7A3 ∧ (a - 0xAC00) % 28 = 0 ∧ 0x11A7 < b ∧ b < 0x11C3 then
    some (a + (b - 0x11A7))
  else none

def joinBy? (rule : Nat → Nat → Option Nat) (p q : Piece) : Option Piece :=
  if p.broken || q.broken then none else (rule p.code q.code).map pieceOf

/-- Put syllables together from `last` on: a vowel or final joins what stands right before it. -/
def spell (last : Piece) : List Piece → List Piece
  | [] => [last]
  | p :: rest =>
    match joinBy? joinLetters? last p with
    | some s => spell s rest
    | none => last :: spell p rest

/-- Put a segment together; `base` is the piece that others join, and `kept` are those after it that
    did not, last first.

    A piece that may join is blocked by one of the same or a higher class before it.  If it stands
    right behind a piece without a class, then that one becomes the base.  From the first vowel or
    final of Korean on only syllables are put together. -/
def putTogether (base : Piece) (kept : List Piece) : List Piece → List Piece
  | [] => base :: kept.reverse
  | p :: rest =>
    if !p.broken && Canonical.isVowelOrFinal p.code then
      match kept with
      | [] => spell base (p :: rest)
      | k :: ks => base :: ks.reverse ++ spell k (p :: rest)
    else if !joinsBack p then putTogether base (p :: kept) rest
    else
      match kept with
      | [] =>
        match joinBy? Canonical.composite? base p with
        | some b => putTogether b [] rest
        | none => putTogether base [p] rest
      | k :: ks =>
        if classOf k = 0 then
          base :: ks.reverse ++
            match joinBy? Canonical.composite? k p with
            | some b => putTogether b [] rest
            | none => putTogether k [p] rest
        else
          match if classOf p ≤ classOf k then none else joinBy? Canonical.composite? base p with
          | some b => putTogether b (k :: ks) rest
          | none => putTogether base (p :: k :: ks) rest

def segment (done : List Piece) : List Piece :=
  match done.reverse with
  | [] => []
  | p :: ps => putTogether p [] ps

/-- Put the segments together one after the other; `done` is what was read of the current one, last
    piece first. -/
def assemble (done : List Piece) : List Piece → List Piece
  | [] => segment done
  | p :: rest => if bound p then assemble (p :: done) rest else segment done ++ assemble [p] rest

/-! ## The whole text -/

def announced (b : UInt8) : Nat :=
  if b < 0xC2 then 0 else if b < 0xE0 then 1 else if b < 0xF0 then 2 else if b < 0xF8 then 3 else 0

def isCutOff : Text → Bool
  | [] => false
  | b :: t => t.length < announced b

/-- Split off the end of a text that begins with a character which is cut off. -/
def splitEnd (t : Text) : Text × Text :=
  let starts := [3, 2, 1].filter fun n => isCutOff (t.drop (t.length - n))
  t.splitAt (t.length - starts.headD 0)

def compose (t : Text) : Text :=
  let (whole, rest) := splitEnd t
  (assemble [] (sortMarks (takeApart 0 (Utf8.pieces whole)))).flatMap (·.bytes) ++ rest

end Wacc.Composed
