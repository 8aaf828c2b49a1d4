/-
  Trace events and how they are written.
-/
import Wacc.Trace.Level
import Wacc.Text.Json

namespace Wacc.Trace

structure Kind where
  number : UInt8
  deriving DecidableEq, Repr, Inhabited

namespace Kind

def start : Kind := ⟨1⟩

def stop : Kind := ⟨2⟩

def point : Kind := ⟨3⟩

def name (k : Kind) : Text :=
  if k = start then lit "begin"
  else if k = stop then lit "end"
  else if k = point then lit "point"
  else lit "unknown"

def sign (k : Kind) : Text :=
  if k = start then lit "→ "
  else if k = stop then lit "← "
  else if k = point then lit "• "
  else []

end Kind

abbrev Attributes := List (Text × Text)

namespace Attributes

def set (as : Attributes) (key value : Text) : Attributes :=
  if as.any (·.1 == key) then as.map fun (k, v) => (k, if k = key then value else v)
  else as ++ [(key, value)]

def sorted (as : Attributes) : Attributes := as.mergeSort fun a b => !Text.lt b.1 a.1

end Attributes

structure Event where
  time : Text := []
  seq : Nat := 0
  kind : Kind
  scope : Scope
  span : Nat := 0
  parent : Nat := 0
  name : Text
  detail : Text := []
  extra : Attributes := []
  deriving DecidableEq, Repr, Inhabited

namespace Event

def json (e : Event) : Json :=
  .obj ([(lit "time", .str e.time), (lit "seq", .nat e.seq), (lit "kind", .str e.kind.name),
      (lit "scope", .str e.scope.name), (lit "span_id", .nat e.span)] ++
    (if e.parent = 0 then [] else [(lit "parent_id", .nat e.parent)]) ++
    [(lit "name", .str e.name)] ++
    (if e.detail.isEmpty then [] else [(lit "detail", .str e.detail)]) ++
    (if e.extra.isEmpty then []
      else [(lit "extra", .obj ((Attributes.sorted e.extra).map fun (k, v) => (k, .str v)))]))

def line (e : Event) : Text :=
  let number := decimal e.seq
  let pairs := (Attributes.sorted e.extra).map fun (k, v) => k ++ lit "=" ++ v
  lit "#" ++ number ++ Text.blanks (5 - number.length) ++ lit " [" ++ e.scope.name ++ lit "] " ++
    (if e.parent = 0 then [] else lit "  ") ++ e.kind.sign ++ e.name ++
    (if e.detail.isEmpty then [] else lit " (" ++ e.detail ++ lit ")") ++
    (if pairs.isEmpty then []
      else lit " \x7b" ++ Text.joinWith (lit ", ") pairs ++ lit "\x7d") ++ lit "\n"

def render (f : Format) (e : Event) : Text :=
  if f = .ndjson then e.json.compact ++ lit "\n" else e.line

end Event

end Wacc.Trace
