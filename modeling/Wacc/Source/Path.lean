/-
  Slash-separated paths.

  A path is read by its elements: empty ones and `.` say nothing, `..` takes back the element
  before it.  `clean` writes the shortest equivalent path; `join`, `dir` and `base` are stated
  over it.
-/
import Wacc.Text.Basic

namespace Wacc.Path

def slash : UInt8 := '/'.toUInt8

def isAbs (p : Text) : Bool := p.startsWith [slash]

/-- Take one more element; `done` holds the elements so far, last first. -/
def push (rooted : Bool) (done : List Text) (e : Text) : List Text :=
  if e.isEmpty || e == lit "." then done
  else if e == lit ".." then
    match done with
    | [] => if rooted then [] else [e]
    | d :: rest => if d == lit ".." then e :: done else rest
  else e :: done

def elements (p : Text) : List Text :=
  ((p.splitOn slash).foldl (push (isAbs p)) []).reverse

def clean (p : Text) : Text :=
  let body := Text.joinWith [slash] (elements p)
  if isAbs p then slash :: body
  else if body.isEmpty then lit "." else body

def join (parts : List Text) : Text :=
  match parts.dropWhile List.isEmpty with
  | [] => []
  | p :: rest => clean (Text.joinWith [slash] (p :: rest))

def head (p : Text) : Text := (p.reverse.dropWhile (· != slash)).reverse

def tail (p : Text) : Text := (p.reverse.takeWhile (· != slash)).reverse

def dir (p : Text) : Text := clean (head p)

def base (p : Text) : Text :=
  if p.isEmpty then lit "."
  else
    let q := (p.reverse.dropWhile (· == slash)).reverse
    if q.isEmpty then [slash] else tail q

def ext (p : Text) : Text :=
  let t := tail p
  if t.contains (lit ".") then '.'.toUInt8 :: (t.reverse.takeWhile (· != '.'.toUInt8)).reverse else []

end Wacc.Path
