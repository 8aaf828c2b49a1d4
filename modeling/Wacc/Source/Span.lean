/-
  Spans: byte ranges of a file.
-/
import Wacc.Text.Basic

namespace Wacc

/-- A half-open range of bytes in one file.  Offsets are 32-bit words. -/
structure Span where
  file : UInt32 := 0
  start : UInt32 := 0
  stop : UInt32 := 0
  deriving DecidableEq, Repr, Inhabited

namespace Span

def empty (s : Span) : Bool := s.start == s.stop

def size (s : Span) : UInt32 := s.stop - s.start

/-- The least span around both; `s` itself if the other lies in another file. -/
def cover (s t : Span) : Span :=
  if s.file ≠ t.file then s
  else { s with start := if t.start < s.start then t.start else s.start
                stop := if s.stop < t.stop then t.stop else s.stop }

def contains (s t : Span) : Bool := s.file == t.file && s.start ≤ t.start && t.stop ≤ s.stop

def atStop (s : Span) : Span := { s with start := s.stop }

def render (s : Span) : Text :=
  decimal s.file.toNat ++ lit ":" ++ decimal s.start.toNat ++ lit "-" ++ decimal s.stop.toNat

end Span

end Wacc
