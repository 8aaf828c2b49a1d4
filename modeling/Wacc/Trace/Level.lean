/-
  Trace levels, storage modes and formats, and their names.
-/
import Wacc.Text.Case
import Wacc.Text.Quoted

namespace Wacc.Trace

structure Scope where
  number : UInt8
  deriving DecidableEq, Repr, Inhabited

namespace Scope

def driver : Scope := ⟨1⟩

def pass : Scope := ⟨2⟩

def func : Scope := ⟨3⟩

def node : Scope := ⟨4⟩

def name (s : Scope) : Text :=
  if s = driver then lit "driver"
  else if s = pass then lit "pass"
  else if s = func then lit "func"
  else if s = node then lit "node"
  else lit "unknown"

end Scope

structure Level where
  number : UInt8
  deriving DecidableEq, Repr, Inhabited

namespace Level

def off : Level := ⟨0⟩

/-- As `detail`, but only kept in memory. -/
def error : Level := ⟨1⟩

def phase : Level := ⟨2⟩

def detail : Level := ⟨3⟩

def debug : Level := ⟨4⟩

def name (l : Level) : Text :=
  if l = off then lit "off"
  else if l = error then lit "error"
  else if l = phase then lit "phase"
  else if l = detail then lit "detail"
  else if l = debug then lit "debug"
  else lit "unknown"

def enabled (l : Level) : Bool := l != off

def admits (l : Level) (s : Scope) : Bool :=
  if l = phase then s.number ≤ Scope.pass.number
  else if l = error || l = detail then s.number ≤ Scope.func.number
  else l == debug

end Level

structure Mode where
  number : UInt8
  deriving DecidableEq, Repr, Inhabited

namespace Mode

def stream : Mode := ⟨1⟩

def ring : Mode := ⟨2⟩

def both : Mode := ⟨3⟩

def name (m : Mode) : Text :=
  if m = stream then lit "stream"
  else if m = ring then lit "ring"
  else if m = both then lit "both"
  else lit "unknown"

end Mode

structure Format where
  number : UInt8
  deriving DecidableEq, Repr, Inhabited

namespace Format

def auto : Format := ⟨0⟩

def text : Format := ⟨1⟩

def ndjson : Format := ⟨2⟩

end Format

inductive BadName where
  | level (name : Text)
  | format (name : Text)
  | mode (name : Text)
  deriving DecidableEq, Repr

def BadName.message : BadName → Text
  | .level n =>
    lit "invalid trace level: " ++ Quoted.quote n ++ lit " (expected: off|error|phase|detail|debug)"
  | .format n =>
    lit "invalid trace format: " ++ Quoted.quote n ++ lit " (expected: auto|text|ndjson)"
  | .mode n =>
    lit "invalid storage mode: " ++ Quoted.quote n ++ lit " (expected: stream|ring|both)"

def Level.ofName (n : Text) : Except BadName Level :=
  let m := Case.lower n
  if m = [] || m = lit "off" then .ok off
  else if m = lit "error" then .ok error
  else if m = lit "phase" then .ok phase
  else if m = lit "detail" then .ok detail
  else if m = lit "debug" then .ok debug
  else .error (.level n)

def Format.ofName (n : Text) : Except BadName Format :=
  let m := Case.lower n
  if m = [] || m = lit "auto" then .ok auto
  else if m = lit "text" then .ok text
  else if m = lit "ndjson" || m = lit "json" then .ok ndjson
  else .error (.format n)

def Mode.ofName (n : Text) : Except BadName Mode :=
  let m := Case.lower n
  if m = lit "stream" then .ok stream
  else if m = lit "ring" then .ok ring
  else if m = lit "both" then .ok both
  else .error (.mode n)

end Wacc.Trace
