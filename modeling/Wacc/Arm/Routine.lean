/-
  Routines of the run-time system: what they need and their code.

  A routine is entered with an aligned stack and saves an even number of registers, so the library
  functions it calls see an aligned stack.
-/
import Wacc.Arm.Instr

namespace Wacc.Arm

namespace Routine

def needs : Routine → List Routine
  | .throwOverflow | .checkDivideByZero | .checkArrayBounds | .checkNullPointer | .freePair =>
    [.throwRuntime]
  | .throwRuntime => [.printString]
  | _ => []

def nullMessage : Text := lit "NullReferenceError: dereference a null reference\n\x00"

def messages : Routine → List Text
  | .throwOverflow =>
    [lit "OverflowError: the result is too small/large to store in a 4-byte signed-integer.\n\x00"]
  | .checkDivideByZero => [lit "DivideByZeroError: divide or modulo by zero\n\x00"]
  | .checkArrayBounds =>
    [lit "ArrayIndexOutOfBoundsError: negative index\n\x00",
     lit "ArrayIndexOutOfBoundsError: index too large\n\x00"]
  | .checkNullPointer | .freePair => [nullMessage]
  | .throwRuntime => []
  | .printString => [lit "%.*s\x00"]
  | .printInt => [lit "%d\x00"]
  | .printBool => [lit "true\x00", lit "false\x00"]
  | .printChar => []
  | .printReference => [lit "%p\x00"]
  | .printLn => [lit "\x00"]
  | .readInt => [lit " %d\x00"]
  | .readChar => [lit " %c\x00"]
  | .readString => [lit " %255s\x00"]

def errorStatus : Int := 255

/-- The bytes for a string that is read: its length, 255 bytes and the end mark. -/
def readCell : Int := 260

def enter : Instr := .push [.r4, .lr]

def leave : Instr := .pop [.r4, .pc]

def lib (e : Extern) : Instr := .call .always (.extern_ e)

def flush : List Instr := [.mov .always .r0 (.imm 0), lib .fflush]

def chars (n : Nat) : List Instr :=
  [.address .always .r0 (.const n), .alu .add .r0 .r0 (.imm 4)]

def printWith (n : Nat) : List Instr :=
  [enter, .mov .always .r1 (.reg .r0)] ++ chars n ++ [lib .printf] ++ flush ++ [leave]

def readWith (n : Nat) : List Instr :=
  [enter, .mov .always .r1 (.reg .r0)] ++ chars n ++ [lib .scanf, leave]

def throwIf (c : Cond) (n : Nat) : List Instr :=
  [.address c .r0 (.const n), .call c (.label (.routine .throwRuntime))]

def body (n : Nat) : Routine → List Instr
  | .throwOverflow => throwIf .always n
  | .checkDivideByZero => [enter, .cmp .r1 (.imm 0)] ++ throwIf .eq n ++ [leave]
  | .checkArrayBounds =>
    [enter, .cmp .r0 (.imm 0)] ++ throwIf .lt n ++
      [.load .word .r1 (.offset .r1 0), .cmp .r0 (.reg .r1)] ++ throwIf .cs (n + 1) ++ [leave]
  | .checkNullPointer => [enter, .cmp .r0 (.imm 0)] ++ throwIf .eq n ++ [leave]
  | .throwRuntime =>
    [.call .always (.label (.routine .printString)), .mov .always .r0 (.imm errorStatus), lib .exit]
  | .printString =>
    [enter, .load .word .r1 (.offset .r0 0), .alu .add .r2 .r0 (.imm 4)] ++ chars n ++ [lib .printf] ++
      flush ++ [leave]
  | .printInt => printWith n
  | .printBool =>
    [enter, .cmp .r0 (.imm 0), .address .ne .r0 (.const n), .address .eq .r0 (.const (n + 1)),
     .alu .add .r0 .r0 (.imm 4), lib .printf] ++ flush ++ [leave]
  | .printChar => [enter, lib .putchar, leave]
  | .printReference => printWith n
  | .printLn => [enter] ++ chars n ++ [lib .puts] ++ flush ++ [leave]
  | .readInt => readWith n
  | .readChar => readWith n
  | .readString =>
    [enter, .mov .always .r4 (.reg .r0), .number .r0 readCell, lib .malloc,
     .store .word .r0 (.offset .r4 0), .alu .add .r1 .r0 (.imm 4)] ++ chars n ++
    [lib .scanf, .load .word .r4 (.offset .r4 0), .alu .add .r0 .r4 (.imm 4), lib .strlen,
     .store .word .r0 (.offset .r4 0), leave]
  | .freePair =>
    [enter, .cmp .r0 (.imm 0), .address .eq .r0 (.const n), .branch .eq (.routine .throwRuntime),
     lib .free, leave]

/-- A routine and what it needs, after those already in use; the nearest first.  No chain of needs
    is longer than three. -/
def use : Nat → List Routine → List Routine → List Routine
  | 0, used, _ => used
  | _ + 1, used, [] => used
  | fuel + 1, used, r :: work =>
    if used.contains r then use fuel used work
    else use fuel (used ++ [r]) (work ++ r.needs)

end Routine

end Wacc.Arm
