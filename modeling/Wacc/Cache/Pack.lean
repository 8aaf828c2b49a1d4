/-
  The binary form of cached assembly.

  An entry is a map with four fields.  A reader takes the fields in any order, skips those it does
  not know, and also takes the four values as an array; integers may have any width, and what
  follows the entry does not matter.
-/
import Wacc.Text.Basic

namespace Wacc

structure Cached where
  schema : UInt16 := 0
  key : UInt64 := 0
  asm : Text := []
  runtime : List Text := []
  deriving DecidableEq, Repr, Inhabited

namespace Pack

/-! ## Writing -/

/-- The lowest `n` bytes of a number, the highest first. -/
def bigEndian : Nat → Nat → Text
  | 0, _ => []
  | n + 1, x => (x / Nat.pow 256 n % 256).toUInt8 :: bigEndian n x

/-- A length: inside the first byte where there is room, else in one, two or four bytes.  Without
    a code for one byte two are used. -/
def lengthOf (small : Nat) (limit : Nat) (one : Option UInt8) (two four : UInt8) (n : Nat) : Text :=
  if n < limit then [(small + n).toUInt8]
  else match (if n < 256 then one else none) with
    | some c => c :: bigEndian 1 n
    | none => if n < 65536 then two :: bigEndian 2 n else four :: bigEndian 4 n

def string (t : Text) : Text := lengthOf 0xA0 32 (some 0xD9) 0xDA 0xDB t.length ++ t

def strings (ts : List Text) : Text :=
  if ts.isEmpty then [0xC0]
  else lengthOf 0x90 16 none 0xDC 0xDD ts.length ++ ts.flatMap string

def encode (c : Cached) : Text :=
  [0x84] ++ string (lit "Schema") ++ 0xCD :: bigEndian 2 c.schema.toNat ++
    string (lit "Key") ++ 0xCF :: bigEndian 8 c.key.toNat ++
    string (lit "Asm") ++ string c.asm ++
    string (lit "Runtime") ++ strings c.runtime

/-! ## Reading -/

abbrev Reader (α : Type) := StateT Text Option α

def byte : Reader UInt8 := fun
  | [] => none
  | b :: rest => some (b, rest)

def take (n : Nat) : Reader Text := fun t =>
  if t.length < n then none else some (t.take n, t.drop n)

def number (n : Nat) : Reader Nat := do
  return (← take n).foldl (fun x b => 256 * x + b.toNat) 0

def signed (n : Nat) : Reader UInt64 := do
  let x ← number n
  return if 2 * x < Nat.pow 256 n then x.toUInt64 else 0 - (Nat.pow 256 n - x).toUInt64

def bad {α : Type} : Reader α := fun _ => none

def integer : Reader UInt64 := do
  let c ← byte
  if c = 0xC0 then return 0
  else if c ≤ 0x7F then return c.toUInt64
  else if 0xE0 ≤ c then return 0 - (256 - c.toNat).toUInt64
  else match c.toNat with
    | 0xCC => return (← number 1).toUInt64
    | 0xCD => return (← number 2).toUInt64
    | 0xCE => return (← number 4).toUInt64
    | 0xCF | 0xD3 => return (← number 8).toUInt64
    | 0xD0 => signed 1
    | 0xD1 => signed 2
    | 0xD2 => signed 4
    | _ => bad

def text : Reader Text := do
  let c ← byte
  if c = 0xC0 then return []
  else if 0xA0 ≤ c && c ≤ 0xBF then take (c.toNat - 0xA0)
  else match c.toNat with
    | 0xC4 | 0xD9 => take (← number 1)
    | 0xC5 | 0xDA => take (← number 2)
    | 0xC6 | 0xDB => take (← number 4)
    | _ => bad

def arrayLength (c : UInt8) : Reader (Option Nat) :=
  if c = 0xC0 then return none
  else if 0x90 ≤ c && c ≤ 0x9F then return some (c.toNat - 0x90)
  else if c = 0xDC then some <$> number 2
  else if c = 0xDD then some <$> number 4
  else bad

def mapLength (c : UInt8) : Reader (Option Nat) :=
  if c = 0xC0 then return none
  else if 0x80 ≤ c && c ≤ 0x8F then return some (c.toNat - 0x80)
  else if c = 0xDE then some <$> number 2
  else if c = 0xDF then some <$> number 4
  else bad

def texts : Nat → Reader (List Text)
  | 0 => return []
  | n + 1 => do
    let t ← text
    return t :: (← texts n)

/-- Strings in an array, or nothing.  There cannot be more of them than bytes. -/
def textList? : Reader (Option (List Text)) := do
  match ← arrayLength (← byte) with
  | none => return none
  | some n => if (← get).length < n then bad else some <$> texts n

/-- Skip a number of values of any form; each takes a byte at least. -/
def skip : Nat → Nat → Reader Unit
  | _, 0 => return
  | 0, _ + 1 => bad
  | fuel + 1, todo + 1 => do
    let c ← byte
    let n := c.toNat
    if n ≤ 0x7F || 0xE0 ≤ n || n = 0xC0 || n = 0xC2 || n = 0xC3 then skip fuel todo
    else if n ≤ 0x8F then skip fuel (todo + 2 * (n - 0x80))
    else if n ≤ 0x9F then skip fuel (todo + (n - 0x90))
    else if n ≤ 0xBF then
      let _ ← take (n - 0xA0)
      skip fuel todo
    else match n with
      | 0xC4 | 0xD9 =>
        let _ ← take (← number 1)
        skip fuel todo
      | 0xC5 | 0xDA =>
        let _ ← take (← number 2)
        skip fuel todo
      | 0xC6 | 0xDB =>
        let _ ← take (← number 4)
        skip fuel todo
      | 0xC7 =>
        let _ ← take ((← number 1) + 1)
        skip fuel todo
      | 0xC8 =>
        let _ ← take ((← number 2) + 1)
        skip fuel todo
      | 0xC9 =>
        let _ ← take ((← number 4) + 1)
        skip fuel todo
      | 0xCA | 0xCE | 0xD2 =>
        let _ ← take 4
        skip fuel todo
      | 0xCB | 0xCF | 0xD3 =>
        let _ ← take 8
        skip fuel todo
      | 0xCC | 0xD0 =>
        let _ ← take 1
        skip fuel todo
      | 0xCD | 0xD1 =>
        let _ ← take 2
        skip fuel todo
      | 0xD4 =>
        let _ ← take 2
        skip fuel todo
      | 0xD5 =>
        let _ ← take 3
        skip fuel todo
      | 0xD6 =>
        let _ ← take 5
        skip fuel todo
      | 0xD7 =>
        let _ ← take 9
        skip fuel todo
      | 0xD8 =>
        let _ ← take 17
        skip fuel todo
      | 0xDC => do skip fuel (todo + (← number 2))
      | 0xDD => do skip fuel (todo + (← number 4))
      | 0xDE => do skip fuel (todo + 2 * (← number 2))
      | 0xDF => do skip fuel (todo + 2 * (← number 4))
      | _ => bad

def schemaField (c : Cached) : Reader Cached := do
  return { c with schema := (← integer).toUInt16 }

def keyField (c : Cached) : Reader Cached := do return { c with key := ← integer }

def asmField (c : Cached) : Reader Cached := do return { c with asm := ← text }

def runtimeField (c : Cached) : Reader Cached := do
  return { c with runtime := (← textList?).getD c.runtime }

def fields : Nat → Cached → Reader Cached
  | 0, c => return c
  | n + 1, c => do
    let name ← text
    let c ←
      if name = lit "Schema" then schemaField c
      else if name = lit "Key" then keyField c
      else if name = lit "Asm" then asmField c
      else if name = lit "Runtime" then runtimeField c
      else do
        skip ((← get).length + 1) 1
        return c
    fields n c

def entry : Reader Cached := do
  let c ← byte
  let start ← get
  match (mapLength c).run start with
  | some (none, _) => return {}
  | some (some n, rest) =>
    if rest.length < n then bad
    else
      set rest
      fields n {}
  | none =>
    match ← arrayLength c with
    | none | some 0 => return {}
    | some 4 => schemaField {} >>= keyField >>= asmField >>= runtimeField
    | some _ => bad

def decode? (t : Text) : Option Cached := (entry.run t).map (·.1)

end Pack

end Wacc
