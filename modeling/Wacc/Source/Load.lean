/-
  Loading: how the bytes of a file on disk become source text.

  A byte-order mark at the start is removed, a carriage return before a newline is removed, and
  characters are composed.  The flags of the file say which of these changed anything.
-/
import Wacc.Source.File
import Wacc.Text.Composed

namespace Wacc.Load

def mark : Text := [0xEF, 0xBB, 0xBF]

def dropMark (t : Text) : Text := (t.after? mark).getD t

def joinLineEnds : Text → Text
  | [] => []
  | [b] => [b]
  | b :: c :: rest =>
    if b = '\r'.toUInt8 ∧ c = '\n'.toUInt8 then joinLineEnds (c :: rest)
    else b :: joinLineEnds (c :: rest)

def changed (flag : UInt8) (t u : Text) : UInt8 := if t = u then 0 else flag

def normalize (raw : Text) : Text × UInt8 :=
  let a := dropMark raw
  let b := joinLineEnds a
  let c := Composed.compose b
  (c, changed File.hadMark raw a ||| changed File.changedLineEnds a b ||| changed File.composed b c)

end Wacc.Load

namespace Wacc.FileSet

def load (s : FileSet) (path raw : Text) : UInt32 × FileSet :=
  let (content, flags) := Load.normalize raw
  s.add path content flags

end Wacc.FileSet
