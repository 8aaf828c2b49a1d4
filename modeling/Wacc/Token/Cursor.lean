/-
  Cursors: a place in the bytes of a file.
-/
import Wacc.Source.File

namespace Wacc

/-- A place in a file.  Offsets are 32-bit words and their sums wrap. -/
structure Cursor where
  file : UInt32
  content : Text
  off : UInt32 := 0

namespace Cursor

def start (f : File) : Cursor := { file := f.id, content := f.content }

def limit (c : Cursor) : UInt32 := c.content.length.toUInt32

def eof (c : Cursor) : Bool := c.limit ≤ c.off

def rest (c : Cursor) : Text := c.content.drop c.off.toNat

/-- The byte `n` places ahead, zero past the end. -/
def peekAt (c : Cursor) (n : UInt32) : UInt8 := (c.content[(c.off + n).toNat]?).getD 0

def peek (c : Cursor) : UInt8 := c.peekAt 0

def advance (c : Cursor) (n : Nat) : Cursor := { c with off := c.off + n.toUInt32 }

def bump (c : Cursor) : UInt8 × Cursor :=
  if c.eof then (0, c) else (c.peek, c.advance 1)

def eat (c : Cursor) (b : UInt8) : Bool × Cursor :=
  if !c.eof && c.peek == b then (true, c.advance 1) else (false, c)

def spanFrom (c : Cursor) (mark : UInt32) : Span := ⟨c.file, mark, c.off⟩

def here (c : Cursor) : Span := c.spanFrom c.off

end Cursor

end Wacc
