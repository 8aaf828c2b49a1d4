/-
  Numbers, dates and quoted text of TOML documents.

  Underscores may stand between digits; numbers have no superfluous zeros; a point is followed by
  a digit.  An integer has 64 bits, and a number with a fraction must fit a double.
-/
import Wacc.Toml.Basic

namespace Wacc.Toml

def isDigit (b : UInt8) : Bool := 48 ≤ b && b ≤ 57

def hexValue? (b : UInt8) : Option Nat :=
  if isDigit b then some (b.toNat - 48)
  else if 97 ≤ b && b ≤ 102 then some (b.toNat - 87)
  else if 65 ≤ b && b ≤ 70 then some (b.toNat - 55)
  else none

def isDigitOf (base : Nat) (b : UInt8) : Bool :=
  match hexValue? b with
  | some v => v < base
  | none => false

def number (base : Nat) (t : Text) : Nat :=
  t.foldl (fun n b => n * base + (hexValue? b).getD 0) 0

def spacedFrom (digit : Bool) : Text → Bool
  | [] => digit
  | b :: t =>
    if b = '_'.toUInt8 && !digit then false else spacedFrom (hexValue? b).isSome t

def isSpaced (t : Text) : Bool := spacedFrom false t

def bare (t : Text) : Text := t.filter (· != '_'.toUInt8)

def baseOf? (b : UInt8) : Option Nat :=
  if b = 'x'.toUInt8 then some 16
  else if b = 'o'.toUInt8 then some 8
  else if b = 'b'.toUInt8 then some 2
  else none

def signed : Text → Bool × Text
  | [] => (false, [])
  | b :: t =>
    if b = '-'.toUInt8 then (true, t)
    else if b = '+'.toUInt8 then (false, t)
    else (false, b :: t)

def hasLeadingZero (t : Text) : Bool :=
  match (signed t).2 with
  | 48 :: _ :: _ => true
  | _ => false

def int? (negative : Bool) (n : Nat) : Option Value :=
  if negative then (if n ≤ 0x8000000000000000 then some (.int (-n)) else none)
  else (if n < 0x8000000000000000 then some (.int n) else none)

def decimalInt? (t : Text) : Option Value :=
  if !isSpaced t || hasLeadingZero t then none
  else
    let (negative, digits) := signed t
    int? negative (number 10 (bare digits))

def overflows (m : Nat) (e : Int) : Bool :=
  if m = 0 then false
  else
    let size : Int := (decimal m).length + e
    if size < 300 then false
    else if 320 < size then true
    else
      let limit := Nat.pow 2 1024 - Nat.pow 2 970
      if 0 ≤ e then limit ≤ m * Nat.pow 10 e.toNat else limit * Nat.pow 10 (-e).toNat ≤ m

def digitsOf (t : Text) : Text × Text := (t.takeWhile isDigit, t.dropWhile isDigit)

def isExponent (b : UInt8) : Bool := b == 'e'.toUInt8 || b == 'E'.toUInt8

def exponent? (t : Text) : Option Int :=
  let (negative, digits) := signed t
  if digits.isEmpty || !digits.all isDigit then none
  else some (if negative then -(number 10 digits : Int) else number 10 digits)

/-- Whether a number with a fraction or an exponent, without underscores, is written correctly and
    fits a double. -/
def fitsDouble (t : Text) : Bool :=
  let (whole, rest) := digitsOf (signed t).2
  let (frac, rest) :=
    match rest with
    | 46 :: r => digitsOf r
    | _ => ([], rest)
  if whole.isEmpty && frac.isEmpty then false
  else
    match rest with
    | [] => !overflows (number 10 (whole ++ frac)) (-frac.length)
    | b :: r =>
      match (if isExponent b then exponent? r else none) with
      | none => false
      | some e => !overflows (number 10 (whole ++ frac)) (e - frac.length)

def floatParts (t : Text) : List Text :=
  (Text.splitOn '.'.toUInt8 (t.map fun b => if isExponent b then '.'.toUInt8 else b)).filter
    (!·.isEmpty)

def pointsFollowed : Text → Bool
  | [] => true
  | 46 :: b :: t => isDigit b && pointsFollowed (b :: t)
  | [46] => false
  | _ :: t => pointsFollowed t

def float? (t : Text) : Option Value :=
  let parts := floatParts t
  if parts.all isSpaced && !(hasLeadingZero (parts.headD [])) && pointsFollowed t && fitsDouble (bare t)
  then some (.float t) else none

def daysIn (year month : Nat) : Nat :=
  if month = 2 then (if year % 4 = 0 && (year % 100 != 0 || year % 400 = 0) then 29 else 28)
  else if month ∈ [4, 6, 9, 11] then 30
  else 31

def field? (n : Nat) (t : Text) : Option (Nat × Text) :=
  if (t.take n).length = n && (t.take n).all isDigit then some (number 10 (t.take n), t.drop n) else none

def after? (c : Char) : Text → Option Text
  | [] => none
  | b :: t => if b = c.toUInt8 then some t else none

def day? (t : Text) : Option Text := do
  let (year, t) ← field? 4 t
  let (month, t) ← field? 2 (← after? '-' t)
  let (day, t) ← field? 2 (← after? '-' t)
  if 1 ≤ month && month ≤ 12 && 1 ≤ day && day ≤ daysIn year month then some t else none

def hour? (t : Text) : Option (Nat × Text) := (field? 2 t).or (field? 1 t)

def clock? (t : Text) : Option Text := do
  let (hour, t) ← hour? t
  let (minute, t) ← field? 2 (← after? ':' t)
  let (second, t) ← field? 2 (← after? ':' t)
  if 24 ≤ hour || 60 ≤ minute || 60 ≤ second then none
  else
    match t with
    | 46 :: b :: r => if isDigit b then some (r.dropWhile isDigit) else some t
    | _ => some t

def zone? : Text → Option Text
  | [] => some []
  | [90] => some []
  | b :: t => do
    if b != '+'.toUInt8 && b != '-'.toUInt8 then none
    let (hour, t) ← field? 2 t
    let (minute, t) ← field? 2 (← after? ':' t)
    if hour ≤ 24 && minute ≤ 60 then some t else none

def isDate (t : Text) : Bool :=
  match day? t with
  | some [] => true
  | some (b :: r) => b == 'T'.toUInt8 && ((clock? r).bind zone?) == some []
  | none => clock? t == some []

/-- A date; a space may stand for the `T` between day and time, and letters may be small. -/
def date? (t : Text) : Option Value :=
  let t := (t.reverse.dropWhile (· == ' '.toUInt8)).reverse
  let t := t.map fun b =>
    if b = ' '.toUInt8 || b = 't'.toUInt8 then 'T'.toUInt8
    else if b = 'z'.toUInt8 then 'Z'.toUInt8 else b
  if isDate t then some (.date t) else none

def isDateChar (b : UInt8) : Bool := isDigit b || List.elem b (lit "-:Tt .Zz+")

def isFloatChar (b : UInt8) : Bool := isDigit b || List.elem b (lit "_.-+eE")

def based? (base : Nat) (t : Text) : Option (Value × Text) :=
  let isPart (b : UInt8) : Bool := isDigitOf base b || b == '_'.toUInt8
  let digits := t.takeWhile isPart
  match digits with
  | [] => none
  | b :: _ =>
    if b = '_'.toUInt8 || !isSpaced digits then none
    else (int? false (number base (bare digits))).map (·, t.dropWhile isPart)

def decimalNumber? (t : Text) : Option (Value × Text) :=
  let (_, body) := signed t
  let isPart (b : UInt8) : Bool := isDigit b || b == '_'.toUInt8
  let rest := body.dropWhile isPart
  match rest with
  | [] => (decimalInt? t).map (·, rest)
  | b :: _ =>
    if b = '.'.toUInt8 || isExponent b then
      let written := t.take (t.length - rest.length) ++ rest.takeWhile isFloatChar
      (float? written).map (·, rest.dropWhile isFloatChar)
    else (decimalInt? (t.take (t.length - rest.length))).map (·, rest)

/-- Whether a text begins like a date: with digits and a mark between them.  A single zero begins a
    number. -/
def beginsDate (t : Text) : Bool :=
  match t.dropWhile isDigit with
  | b :: _ => (b == '-'.toUInt8 || b == ':'.toUInt8) && t.takeWhile isDigit != [48]
  | [] => false

def numberOrDate? (t : Text) : Option (Value × Text) :=
  let based :=
    match t with
    | 48 :: b :: r => (baseOf? b).map (·, r)
    | _ => none
  match based with
  | some (base, r) => based? base r
  | none =>
    if beginsDate t then (date? (t.takeWhile isDateChar)).map (·, t.dropWhile isDateChar)
    else decimalNumber? t

def signedNumber? (t : Text) : Option (Value × Text) :=
  let body := t.drop 1
  if (lit "inf").isPrefixOf body || (lit "nan").isPrefixOf body then
    some (.float (t.take 4), t.drop 4)
  else
    match body with
    | 48 :: b :: _ => if (baseOf? b).isSome then none else decimalNumber? t
    | b :: _ => if isDigit b then decimalNumber? t else none
    | [] => none

/-! ## Quoted text -/

def shortEscape? (b : UInt8) : Option UInt8 :=
  if b = 'b'.toUInt8 then some 8
  else if b = 't'.toUInt8 then some 9
  else if b = 'n'.toUInt8 then some 10
  else if b = 'f'.toUInt8 then some 12
  else if b = 'r'.toUInt8 then some 13
  else if b = '"'.toUInt8 then some b
  else if b = '\\'.toUInt8 then some b
  else none

def longEscape? (b : UInt8) : Option Nat :=
  if b = 'u'.toUInt8 then some 4 else if b = 'U'.toUInt8 then some 8 else none

def escaped? (digits : Text) : Option Text :=
  let c := number 16 digits
  if digits.all (isDigitOf 16) && c < 0x110000 && !(0xD800 ≤ c && c < 0xE000) then some (Utf8.encode c)
  else none

/-- Replace escapes; `skip` bytes belong to the last one. -/
def unescapeFrom : Nat → Text → Option Text
  | _, [] => some []
  | skip + 1, _ :: t => unescapeFrom skip t
  | 0, b :: t =>
    if b ≠ '\\'.toUInt8 then (unescapeFrom 0 t).map (b :: ·)
    else
      match t with
      | [] => none
      | c :: r =>
        match shortEscape? c, longEscape? c with
        | some e, _ => (unescapeFrom 1 (c :: r)).map (e :: ·)
        | none, some n =>
          if r.length < n then none
          else do
            let e ← escaped? (r.take n)
            let rest ← unescapeFrom (n + 1) (c :: r)
            return e ++ rest
        | none, none => none

def unescape? (t : Text) : Option Text := unescapeFrom 0 t

def isGap (b : UInt8) : Bool := b == 32 || b == 9 || b == 10 || b == 13

/-- Drop each backslash that ends a line, with the gap that follows; `gap` says whether such a gap is
    being dropped, `kept` whether the byte is the second one of an escape. -/
def joinLinesFrom (gap kept : Bool) : Text → Text
  | [] => []
  | b :: t =>
    if gap && isGap b then joinLinesFrom true false t
    else if kept || b ≠ '\\'.toUInt8 then b :: joinLinesFrom false false t
    else if t.head? == some '\\'.toUInt8 then b :: joinLinesFrom false true t
    else if (t.takeWhile isGap).contains 10 then joinLinesFrom true false t
    else b :: joinLinesFrom false false t

/-- Drop each backslash that ends a line, with the gap that follows. -/
def joinLines (t : Text) : Text := joinLinesFrom false false t

def dropLineEnd : Text → Text
  | 10 :: t => t
  | 13 :: 10 :: t => t
  | t => t

def lineInside (q : UInt8) (escapes : Bool) : Text → Option (Text × Text)
  | [] => none
  | b :: t =>
    if b = q then some ([], t)
    else if b = 10 || b = 13 then none
    else if escapes && b = '\\'.toUInt8 then
      match t with
      | [] => none
      | c :: r => (lineInside q escapes r).map fun (x, y) => (b :: c :: x, y)
    else (lineInside q escapes t).map fun (x, y) => (b :: x, y)

/-- Up to the three quotes that end a text on several lines: the inside and the rest.  Of a row of
    quotes the last three end it, and at most five may stand together; after an escaped backslash,
    which `limit` tells, six.  `skip` quotes of the row belong to the inside. -/
def blockInside (q : UInt8) (escapes : Bool) : Nat → Nat → Text → Option (Text × Text)
  | _, _, [] => none
  | limit, skip + 1, b :: t => (blockInside q escapes limit skip t).map fun (x, y) => (b :: x, y)
  | limit, 0, b :: t =>
    if b = q then
      let row := ((b :: t).takeWhile (· == q)).length
      if row < 3 then
        (blockInside q escapes 5 (row - 1) t).map fun (x, y) => (b :: x, y)
      else if limit < row then none
      else some (List.replicate (row - 3) q, t.drop (row - 1))
    else if escapes && b = '\\'.toUInt8 then
      match t with
      | [] => none
      | c :: r =>
        let limit := if c = '\\'.toUInt8 then 6 else 5
        (blockInside q escapes limit 0 r).map fun (x, y) => (b :: c :: x, y)
    else (blockInside q escapes 5 0 t).map fun (x, y) => (b :: x, y)

def basic? (t : Text) : Option (Text × Text) := do
  let (inside, rest) ← lineInside '"'.toUInt8 true t
  return (← unescape? inside, rest)

def basicBlock? (t : Text) : Option (Text × Text) := do
  let (inside, rest) ← blockInside '"'.toUInt8 true 5 0 t
  return (← unescape? (joinLines (dropLineEnd inside)), rest)

def literal? (t : Text) : Option (Text × Text) := lineInside '\''.toUInt8 false t

def literalBlock? (t : Text) : Option (Text × Text) :=
  (blockInside '\''.toUInt8 false 5 0 t).map fun (inside, rest) => (dropLineEnd inside, rest)

end Wacc.Toml
