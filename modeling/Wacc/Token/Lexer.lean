/-
  Lexers: token by token reading with one token of look-ahead.
-/
import Wacc.Token.Scan
import Wacc.Token.Cursor

namespace Wacc

/-- A place in a file and the token that was looked at, if any.  The cursor stands behind that
    token. -/
structure Lexer where
  cursor : Cursor
  look : Option Token := none

namespace Lexer

def start (f : File) : Lexer := { cursor := .start f }

def scan (l : Lexer) : Token × Lexer :=
  let s := Scan.next l.cursor.file l.cursor.off.toNat l.cursor.rest
  (s.token, { cursor := l.cursor.advance s.used })

def next (l : Lexer) : Token × Lexer :=
  match l.look with
  | some t => (t, { l with look := none })
  | none => l.scan

def peek (l : Lexer) : Token × Lexer :=
  match l.look with
  | some t => (t, l)
  | none =>
    let (t, l) := l.scan
    (t, { l with look := some t })

def all (l : Lexer) : List Token × Lexer :=
  let c := l.cursor
  let more := (Scan.steps c.file c.off.toNat c.rest).map (·.token)
  let done : Lexer := { cursor := { c with off := c.limit } }
  match l.look with
  | none => (more, done)
  | some t => if t.kind = .eof then ([t], { l with look := none }) else (t :: more, done)

end Lexer

end Wacc
