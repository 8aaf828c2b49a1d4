/-
  A 64-bit digest of bytes, with seed zero.

  The bytes are taken in stripes of 32, four lanes of eight bytes each; what is left is taken in
  words of eight and four bytes and single bytes, and the result is mixed once more.  All numbers
  wrap at 64 bits.
-/
import Wacc.Text.Basic

namespace Wacc.Digest

def prime1 : UInt64 := 11400714785074694791
def prime2 : UInt64 := 14029467366897019727
def prime3 : UInt64 := 1609587929392839161
def prime4 : UInt64 := 9650029242287828579
def prime5 : UInt64 := 2870177450012600261

def rotate (x : UInt64) (n : UInt64) : UInt64 := (x <<< n) ||| (x >>> (64 - n))

def word : Text → UInt64
  | [] => 0
  | b :: rest => b.toUInt64 ||| (word rest <<< 8)

def round (lane input : UInt64) : UInt64 := rotate (lane + input * prime2) 31 * prime1

def merge (digest lane : UInt64) : UInt64 := (digest ^^^ round 0 lane) * prime1 + prime4

structure Lanes where
  a : UInt64 := prime1 + prime2
  b : UInt64 := prime2
  c : UInt64 := 0
  d : UInt64 := 0 - prime1

def Lanes.stripe (v : Lanes) (t : Text) : Lanes :=
  { a := round v.a (word (t.take 8)), b := round v.b (word ((t.drop 8).take 8)),
    c := round v.c (word ((t.drop 16).take 8)), d := round v.d (word ((t.drop 24).take 8)) }

def Lanes.digest (v : Lanes) : UInt64 :=
  let h := rotate v.a 1 + rotate v.b 7 + rotate v.c 12 + rotate v.d 18
  merge (merge (merge (merge h v.a) v.b) v.c) v.d

def stripes (v : Lanes) (t : Text) : Lanes × Text :=
  if _h : t.length < 32 then (v, t) else stripes (v.stripe t) (t.drop 32)
termination_by t.length
decreasing_by simp only [List.length_drop]; omega

def words (h : UInt64) : Text → UInt64 × Text
  | b0 :: b1 :: b2 :: b3 :: b4 :: b5 :: b6 :: b7 :: rest =>
    words (rotate (h ^^^ round 0 (word [b0, b1, b2, b3, b4, b5, b6, b7])) 27 * prime1 + prime4) rest
  | t => (h, t)

def half (h : UInt64) : Text → UInt64 × Text
  | b0 :: b1 :: b2 :: b3 :: rest =>
    (rotate (h ^^^ (word [b0, b1, b2, b3] * prime1)) 23 * prime2 + prime3, rest)
  | t => (h, t)

def bytes (h : UInt64) : Text → UInt64
  | [] => h
  | b :: rest => bytes (rotate (h ^^^ (b.toUInt64 * prime5)) 11 * prime1) rest

def finish (h : UInt64) : UInt64 :=
  let h := (h ^^^ (h >>> 33)) * prime2
  let h := (h ^^^ (h >>> 29)) * prime3
  h ^^^ (h >>> 32)

def ofText (t : Text) : UInt64 :=
  let (v, rest) := stripes {} t
  let h := (if t.length < 32 then prime5 else v.digest) + t.length.toUInt64
  let (h, rest) := words h rest
  let (h, rest) := half h rest
  finish (bytes h rest)

end Wacc.Digest
