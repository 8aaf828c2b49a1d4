/-
  Times as they are written in traces.
-/
import Wacc.Text.Basic

namespace Wacc.Trace

structure Time where
  year : Nat := 1
  month : Nat := 1
  day : Nat := 1
  hour : Nat := 0
  minute : Nat := 0
  second : Nat := 0
  nanos : Nat := 0
  offset : Int := 0
  deriving DecidableEq, Repr, Inhabited

namespace Time

def digits (width n : Nat) : Text := Text.padLeft width '0'.toUInt8 (decimal n)

def zone (minutes : Int) : Text :=
  if minutes = 0 then lit "Z"
  else
    lit (if minutes < 0 then "-" else "+") ++ digits 2 (minutes.natAbs / 60) ++ lit ":" ++
      digits 2 (minutes.natAbs % 60)

def render (t : Time) : Text :=
  digits 4 t.year ++ lit "-" ++ digits 2 t.month ++ lit "-" ++ digits 2 t.day ++ lit "T" ++
    digits 2 t.hour ++ lit ":" ++ digits 2 t.minute ++ lit ":" ++ digits 2 t.second ++ lit "." ++
    digits 6 (t.nanos / 1000) ++ zone t.offset

/-- The date of a day, counted from the first day of 1970.  Years are counted from March on, so that
    the day of a leap year comes last. -/
def dateOf (days : Nat) : Nat × Nat × Nat :=
  let z := days + 719468
  let era := z / 146097
  let doe := z % 146097
  let yoe := (doe - doe / 1460 + doe / 36524 - doe / 146096) / 365
  let doy := doe - (365 * yoe + yoe / 4 - yoe / 100)
  let m := (5 * doy + 2) / 153
  let month := if m < 10 then m + 3 else m - 9
  (era * 400 + yoe + (if month ≤ 2 then 1 else 0), month, doy - (153 * m + 2) / 5 + 1)

/-- A time in universal time, counted in nanoseconds from the beginning of 1970. -/
def ofNanos (n : Nat) : Time :=
  let s := n / 1000000000
  let (year, month, day) := dateOf (s / 86400)
  { year, month, day, hour := s / 3600 % 24, minute := s / 60 % 60, second := s % 60, nanos := n % 1000000000 }

def number (t : Text) : Nat := t.foldl (fun n b => 10 * n + (b.toNat - 48)) 0

def isDigit (b : UInt8) : Bool := 48 ≤ b && b ≤ 57

/-- The time zone that is written as `Z` or as hours and minutes with a sign. -/
def zoneOf : Text → Int
  | [] => 0
  | b :: t =>
    let minutes : Int := 60 * number (t.take 2) + number ((t.drop 3).take 2)
    if b = '+'.toUInt8 then minutes else if b = '-'.toUInt8 then -minutes else 0

/-- Read a time that is written as `year-month-dayThour:minute:second`, with a fraction of the
    second if there is one, and the zone. -/
def ofText? (t : Text) : Option Time :=
  let part (from_ size : Nat) : Nat := number ((t.drop from_).take size)
  let rest := t.drop 19
  let (fraction, zone) :=
    match rest with
    | 46 :: ds => (ds.takeWhile isDigit, ds.dropWhile isDigit)
    | _ => ([], rest)
  if t.length < 20 then none
  else some { year := part 0 4, month := part 5 2, day := part 8 2, hour := part 11 2,
              minute := part 14 2, second := part 17 2,
              nanos := number ((fraction ++ List.replicate 9 48).take 9), offset := zoneOf zone }

end Time

end Wacc.Trace
