/-
  What a command line asks for.

  The first argument that is neither a flag nor the value of one names the command.  A word that is
  close to a command's name gets a hint.
-/
import Wacc.Command.Flag
import Wacc.Text.Case

namespace Wacc.Command

inductive Verb where
  | tokenize
  | build
  | check
  | parse
  | clean
  | version
  deriving DecidableEq, Repr

namespace Verb

def all : List Verb := [.tokenize, .build, .check, .parse, .clean, .version]

def name : Verb → Text
  | .tokenize => lit "tokenize"
  | .build => lit "build"
  | .check => lit "check"
  | .parse => lit "parse"
  | .clean => lit "clean"
  | .version => lit "version"

def ofName? (t : Text) : Option Verb := all.find? (·.name == t)

def flags : Verb → List Flag
  | .tokenize | .version => [{ name := lit "format" }]
  | .build => [{ name := lit "output", short := some 'o'.toUInt8 }]
  | _ => []

def arity : Verb → Nat × Option Nat
  | .tokenize | .build | .check | .parse => (1, some 1)
  | .clean => (0, some 1)
  | .version => (0, none)

end Verb

def common : List Flag := [
  { name := lit "color" },
  { name := lit "max-diagnostics", kind := .int },
  { name := lit "diagnostics-format" },
  { name := lit "no-cache", kind := .switch },
  { name := lit "trace" },
  { name := lit "trace-level" },
  { name := lit "trace-format" },
  { name := lit "trace-mode" },
  { name := lit "timings", kind := .switch },
  { name := lit "cpu-profile" },
  { name := lit "mem-profile" },
  { name := lit "go-trace" }]

def helpFlag : Flag := { name := lit "help", kind := .switch, short := some 'h'.toUInt8 }

def versionFlag : Flag := { name := lit "version", kind := .switch, short := some 'v'.toUInt8 }

inductive BadRequest where
  | unknownCommand (word : Text) (close : List Text)
  | flags (p : FlagProblem)
  | tooFewOrMany (wanted received : Nat)
  | tooMany (most received : Nat)
  deriving DecidableEq, Repr

def BadRequest.message : BadRequest → Text
  | .unknownCommand w close =>
    lit "unknown command " ++ Quoted.quote w ++ lit " for \"waccc\"" ++
      if close.isEmpty then []
      else lit "\n\nDid you mean this?\n" ++ close.flatMap fun n => lit "\t" ++ n ++ lit "\n"
  | .flags p => p.message
  | .tooFewOrMany n m => lit "accepts " ++ decimal n ++ lit " arg(s), received " ++ decimal m
  | .tooMany n m => lit "accepts at most " ++ decimal n ++ lit " arg(s), received " ++ decimal m

/-! ## Close names -/

/-- One more row of the table of distances: `row` is for what precedes `c`, and `left` is the
    distance to its left in the new row. -/
def nextRow (c : UInt8) (left : Nat) : Text → List Nat → List Nat
  | d :: t, diagonal :: above :: row =>
    let here := if c = d then diagonal else min (min left above) diagonal + 1
    here :: nextRow c here t (above :: row)
  | _, _ => []

def lastRow (t : Text) : Nat → List Nat → Text → List Nat
  | _, row, [] => row
  | i, row, c :: s => lastRow t (i + 1) ((i + 1) :: nextRow c (i + 1) t row) s

/-- The number of bytes to change, add or drop to get from one text to the other. -/
def distance (s t : Text) : Nat := (lastRow t 0 (List.range (t.length + 1)) s).getLastD 0

def names : List Text := Verb.all.map (·.name) ++ [lit "help", lit "completion"]

/-- The names that come close to a word: within two changes, or longer by an ending.  Help is not
    among them. -/
def closeTo (word : Text) : List Text :=
  let w := Case.lower word
  names.filter fun n => n != lit "help" && (distance w n ≤ 2 || w.isPrefixOf n)

/-! ## Finding the command -/

def takesNext (s : Text) : Bool :=
  !Text.contains s (lit "=") &&
  match Word.ofText s with
  | .long name => !((named? common name).any (·.kind == .switch))
  | .short [c] => !((short? common c).any (·.kind == .switch))
  | _ => false

def first? : List Text → Option Text
  | [] => none
  | s :: rest =>
    if Word.ofText s = .stop then none
    else if takesNext s then
      match rest with
      | [] | [_] => none
      | _ :: more => first? more
    else if !s.isEmpty && !Text.startsWith s (lit "-") then some s
    else first? rest

def without (x : Text) : List Text → List Text
  | [] => []
  | s :: rest =>
    if Word.ofText s = .stop then s :: rest
    else if takesNext s then
      match rest with
      | [] => [s]
      | v :: more => s :: v :: without x more
    else if s = x then rest
    else s :: without x rest

inductive Request where
  | run (verb : Verb) (given : Given)
  | version
  | help
  deriving DecidableEq, Repr

def Verb.admits (v : Verb) (n : Nat) : Except BadRequest Unit :=
  match v.arity with
  | (least, some most) =>
    if least ≤ n && n ≤ most then .ok ()
    else if least = most then .error (.tooFewOrMany least n)
    else .error (.tooMany most n)
  | (_, none) => .ok ()

def readFlags (fs : List Flag) (args : List Text) : Except BadRequest Given :=
  match Given.read fs args with
  | .ok g => .ok g
  | .error p => .error (.flags p)

def Request.ofArgs (args : List Text) : Except BadRequest Request := do
  match first? args with
  | none =>
    let g ← readFlags (common ++ [helpFlag, versionFlag]) args
    if g.isOn helpFlag.name then return .help
    else if g.isOn versionFlag.name then return .version
    else return .help
  | some word =>
    match Verb.ofName? word with
    | none =>
      if names.contains word then return .help else .error (.unknownCommand word (closeTo word))
    | some v =>
      let g ← readFlags (common ++ v.flags ++ [helpFlag]) (without word args)
      if g.isOn helpFlag.name then return .help
      v.admits g.args.length
      return .run v g

end Wacc.Command
