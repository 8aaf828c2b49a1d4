/-
  Flags and arguments of a command.

  Flags may stand anywhere between the arguments, up to `--`.  A long flag takes its value after
  `=` or from the next argument; a switch needs none.  Several short flags may stand together, the
  last one with its value.
-/
import Wacc.Text.Number

namespace Wacc.Command

inductive FlagKind where
  | text
  | int
  | switch
  deriving DecidableEq, Repr

structure Flag where
  name : Text
  kind : FlagKind := .text
  short : Option UInt8 := none
  deriving DecidableEq, Repr

inductive FlagProblem where
  | unknown (name : Text)
  | unknownShort (c : UInt8) (group : Text)
  | noValue (name : Text)
  | noValueShort (c : UInt8) (group : Text)
  | badSyntax (written : Text)
  | badValue (flag : Flag) (value : Text) (p : Number.Problem)
  deriving DecidableEq, Repr

def Flag.shown (f : Flag) : Text :=
  match f.short with
  | some c => lit "-" ++ [c] ++ lit ", --" ++ f.name
  | none => lit "--" ++ f.name

/-- A short flag in quotes.  A byte that is no character is shown by the first byte of its
    encoding as one. -/
def quotedShort (c : UInt8) : Text :=
  Quoted.quoteChar (if c < 0x80 then c.toNat else if c < 0xC0 then 0xC2 else 0xC3)

def FlagKind.reader : FlagKind → Text
  | .switch => lit "strconv.ParseBool"
  | _ => lit "strconv.ParseInt"

namespace FlagProblem

def message : FlagProblem → Text
  | .unknown n => lit "unknown flag: --" ++ n
  | .unknownShort c g => lit "unknown shorthand flag: " ++ quotedShort c ++ lit " in -" ++ g
  | .noValue n => lit "flag needs an argument: --" ++ n
  | .noValueShort c g => lit "flag needs an argument: " ++ quotedShort c ++ lit " in -" ++ g
  | .badSyntax w => lit "bad flag syntax: " ++ w
  | .badValue f v p =>
    lit "invalid argument " ++ Quoted.quote v ++ lit " for " ++ Quoted.quote f.shown ++ lit " flag: " ++
      Number.complaint f.kind.reader v p

end FlagProblem

def truth? (t : Text) : Option Bool :=
  if ["1", "t", "T", "TRUE", "true", "True"].any fun w => t == lit w then some true
  else if ["0", "f", "F", "FALSE", "false", "False"].any fun w => t == lit w then some false
  else none

/-- The flags that were given, in order, and the other arguments. -/
structure Given where
  values : List (Text × Text) := []
  args : List Text := []
  deriving DecidableEq, Repr

namespace Given

def get? (g : Given) (name : Text) : Option Text :=
  (g.values.reverse.find? (·.1 == name)).map (·.2)

def isOn (g : Given) (name : Text) : Bool := ((g.get? name).bind truth?).getD false

def withValue (f : Flag) (v : Text) (g : Given) : Given := { g with values := (f.name, v) :: g.values }

end Given

def Flag.check (f : Flag) (v : Text) : Except FlagProblem Unit :=
  match f.kind with
  | .text => .ok ()
  | .int =>
    match Number.integer v with
    | .ok _ => .ok ()
    | .error p => .error (.badValue f v p)
  | .switch => if (truth? v).isSome then .ok () else .error (.badValue f v .malformed)

def on : Text := lit "true"

def named? (fs : List Flag) (name : Text) : Option Flag := fs.find? (·.name == name)

def short? (fs : List Flag) (c : UInt8) : Option Flag := fs.find? (·.short == some c)

/-- Read a group of short flags; also whether the next argument was used as a value.  A group that
    begins with `test.` says nothing. -/
def readShort (fs : List Flag) (next : Option Text) : Text → Except FlagProblem (List (Flag × Text) × Bool)
  | [] => .ok ([], false)
  | c :: more =>
    if (lit "test.").isPrefixOf (c :: more) then .ok ([], false)
    else
      match short? fs c with
      | none => .error (.unknownShort c (c :: more))
      | some f => do
        let take (v : Text) (used : Bool) : Except FlagProblem (List (Flag × Text) × Bool) := do
          f.check v
          return ([(f, v)], used)
        match more with
        | [] =>
          if f.kind = .switch then take on false
          else
            match next with
            | some v => take v true
            | none => .error (.noValueShort c [c])
        | d :: rest =>
          if d = '='.toUInt8 && !rest.isEmpty then take rest false
          else if f.kind = .switch then
            f.check on
            let (vs, used) ← readShort fs next (d :: rest)
            return ((f, on) :: vs, used)
          else take (d :: rest) false

def splitLong (t : Text) : Text × Option Text :=
  match Text.cut? t (lit "=") with
  | some (n, v) => (n, some v)
  | none => (t, none)

inductive Word where
  | plain
  | stop
  | long (name : Text)
  | short (group : Text)
  deriving DecidableEq, Repr

/-- How an argument reads; a single `-` is a plain one. -/
def Word.ofText : Text → Word
  | 45 :: 45 :: [] => .stop
  | 45 :: 45 :: name => .long name
  | 45 :: b :: rest => .short (b :: rest)
  | _ => .plain

/-- The flag of a long argument, with the value that stands in it; a switch has one always. -/
def readLong (fs : List Flag) (name : Text) : Except FlagProblem (Flag × Option Text) :=
  match name with
  | [] => .error (.badSyntax (lit "--"))
  | b :: _ =>
    if b = '-'.toUInt8 || b = '='.toUInt8 then .error (.badSyntax (lit "--" ++ name))
    else
      let (n, v) := splitLong name
      match named? fs n with
      | none => .error (.unknown n)
      | some f =>
        match v with
        | some v => .ok (f, some v)
        | none => .ok (f, if f.kind = .switch then some on else none)

def Given.read (fs : List Flag) : List Text → Except FlagProblem Given
  | [] => .ok {}
  | s :: rest =>
    match Word.ofText s with
    | .plain => do
      let g ← read fs rest
      return { g with args := s :: g.args }
    | .stop => .ok { args := rest }
    | .long name => do
      let (f, v) ← readLong fs name
      match v with
      | some v =>
        f.check v
        return (← read fs rest).withValue f v
      | none =>
        match rest with
        | [] => .error (.noValue f.name)
        | v :: rest =>
          f.check v
          return (← read fs rest).withValue f v
    | .short group => do
      let (vs, used) ← readShort fs rest.head? group
      let g ←
        match rest with
        | [] => pure {}
        | v :: more => if used then read fs more else read fs (v :: more)
      return vs.foldr (fun (f, v) g => g.withValue f v) g

end Wacc.Command
