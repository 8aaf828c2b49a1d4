/-
  Stack discipline of assembly text.

  A walk over the lines of a program keeps the number of bytes pushed since the current routine was
  entered.  Every return must pop exactly these bytes, a place inside a function must be reached
  with one depth only, and, if asked for, calls must be made with an aligned stack.  Calls that
  never come back end a path.
-/
import Wacc.Text.Number

namespace Wacc.Arm.Balance

inductive Problem where
  | fallsOff (routine : Text) (depth : Int64)
  | unaligned (depth : Int64)
  | badReturn (depth popped : Int64)
  | belowEntry (depth : Int64)
  | twoDepths (label : Text) (first second : Int64)
  | badNumber (text : Text) (why : Number.Problem)
  deriving DecidableEq, Repr

def Problem.message : Problem → Text
  | .fallsOff r d => r ++ lit " falls off its end at depth " ++ decimalInt d.toInt
  | .unaligned d => lit "call at depth " ++ decimalInt d.toInt ++ lit " leaves sp unaligned"
  | .badReturn d n =>
    lit "return with " ++ decimalInt d.toInt ++ lit " bytes pushed, popping " ++ decimalInt n.toInt
  | .belowEntry d => lit "stack depth below routine entry: " ++ decimalInt d.toInt
  | .twoDepths l a b =>
    lit "label " ++ l ++ lit " reached at depth " ++ decimalInt a.toInt ++ lit " and " ++
      decimalInt b.toInt
  | .badNumber t p => Number.complaint (lit "strconv.Atoi") t p

structure Walk where
  routine : Text := []
  depth : Int64 := 0
  reachable : Bool := false
  labels : List (Text × Int64) := []
  deriving Repr

def isDigit (b : UInt8) : Bool := 48 ≤ b && b ≤ 57

def isPlace : Text → Bool
  | b :: d :: ds => b == 'L'.toUInt8 && (d :: ds).all isDigit
  | _ => false

def conditions : List Text :=
  ["EQ", "NE", "CS", "CC", "MI", "PL", "VS", "VC", "HI", "LS", "GE", "LT", "GT", "LE", "AL", "HS",
   "LO"].map lit

def isBranch (op : Text) : Bool := op == lit "B" || conditions.any fun c => op == lit "B" ++ c

def isCall (op : Text) : Bool := op == lit "BL" || conditions.any fun c => op == lit "BL" ++ c

def registers (t : Text) : Nat :=
  let inner := Text.trim (Utf8.trimSpace t) fun b => b == '{'.toUInt8 || b == '}'.toUInt8
  if inner.isEmpty then 0 else inner.count ','.toUInt8 + 1

def registerBytes (t : Text) : Int64 := Int64.ofNat (4 * registers t)

def number (t : Text) : Except Problem Int64 :=
  match Number.decimal t with
  | .ok n => .ok (Int64.ofInt n)
  | .error p => .error (.badNumber t p)

namespace Walk

def finish (w : Walk) : Except Problem Unit :=
  if !w.routine.isEmpty && w.reachable then .error (.fallsOff w.routine w.depth) else .ok ()

def arrive (w : Walk) (l : Text) : Except Problem Walk :=
  match w.labels.lookup l with
  | none => .ok { w with labels := (l, w.depth) :: w.labels }
  | some d => if d = w.depth then .ok w else .error (.twoDepths l d w.depth)

/-- A label: the start of a routine, or a place, which is reached from above or has the depth with
    which it was branched to. -/
def label (w : Walk) (l : Text) : Except Problem Walk :=
  if isPlace l then
    if w.reachable then w.arrive l
    else match w.labels.lookup l with
      | none => .ok w
      | some d => .ok { w with depth := d, reachable := true }
  else do
    w.finish
    return { w with routine := l, depth := 0, reachable := true }

def stop (w : Walk) : Walk := { w with reachable := false }

def operation (w : Walk) (op args : Text) : Except Problem Walk :=
  if op == lit "PUSH" then .ok { w with depth := w.depth + registerBytes args }
  else if op == lit "POP" then
    let n := registerBytes args
    if Text.contains args (lit "pc") then
      if w.depth = n then .ok { w with depth := 0, reachable := false }
      else .error (.badReturn w.depth n)
    else .ok { w with depth := w.depth - n }
  else
    match (if op == lit "SUB" || op == lit "ADD" then Text.after? args (lit "sp, sp, #") else none) with
    | some t => do
      let n ← number t
      return { w with depth := if op == lit "SUB" then w.depth + n else w.depth - n }
    | none =>
      if (op == lit "STR" || op == lit "STRB") && Text.endsWith args (lit "]!") then do
        let off := ((Text.cut? args (lit "[sp, #-")).map (·.2)).getD []
        let n ← number ((Text.before? off (lit "]!")).getD off)
        return { w with depth := w.depth + n }
      else if isBranch op then do
        let target := Utf8.trimSpace args
        let w ← if isPlace target then w.arrive target else .ok w
        return if op == lit "B" then w.stop else w
      else if op == lit "BL" && (args == lit "exit" || args == lit "p_throw_runtime_error") then
        .ok w.stop
      else .ok w

def line (aligned : Bool) (w : Walk) (t : Text) : Except Problem Walk :=
  match Text.before? t (lit ":") with
  | some l => w.label l
  | none =>
    if !w.reachable || Text.startsWith t (lit ".") then .ok w
    else
      let (op, args) := (Text.cut? t (lit " ")).getD (t, [])
      if aligned && isCall op && w.depth % 8 != 0 then .error (.unaligned w.depth)
      else do
        let w ← w.operation op args
        if w.depth < 0 then .error (.belowEntry w.depth) else return w

end Walk

/-- Lines from number `n` on; only those after `.text` are code.  A complaint names its line. -/
def lines (aligned : Bool) (n : Nat) (code : Bool) (w : Walk) : List Text → Except Text Unit
  | [] => (w.finish).mapError Problem.message
  | raw :: rest =>
    let t := Utf8.trimSpace raw
    if t == lit ".data" then lines aligned (n + 1) false w rest
    else if t == lit ".text" then lines aligned (n + 1) true w rest
    else if t.isEmpty || !code then lines aligned (n + 1) code w rest
    else match w.line aligned t with
      | .ok w => lines aligned (n + 1) code w rest
      | .error p =>
        .error (lit "line " ++ decimal n ++ lit " " ++ Quoted.quote t ++ lit ": " ++ p.message)

/-- Whether the stack is balanced on every path of an assembly text, and, if asked for, aligned at
    every call.  The answer is the complaint, if there is one. -/
def complaint? (aligned : Bool) (asm : Text) : Option Text :=
  match lines aligned 1 false {} (Text.splitOn '\n'.toUInt8 asm) with
  | .ok _ => none
  | .error m => some m

end Wacc.Arm.Balance
