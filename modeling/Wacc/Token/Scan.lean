/-
  Scanning: from bytes to tokens.

  A scan skips blanks and comments, reads one lexeme, and goes on behind it until the bytes end.
  A lexeme that is no token still takes at least one byte and is reported, so nothing of the text
  is lost and the scan always ends.

  * `triviaLength` is the number of bytes that blanks and comments take;
  * `lexeme` reads one lexeme by its first byte;
  * `scan` gives all tokens, the last one being the end of the file.
-/
import Wacc.Token.Kind
import Wacc.Token.Literal
import Wacc.Text.Quoted
import Wacc.Diagnostic.Basic

namespace Wacc

structure Token where
  kind : Kind
  span : Span
  text : Text
  deriving DecidableEq, Repr, Inhabited

namespace Scan

/-! ## Character classes -/

def isBlank (b : UInt8) : Bool :=
  b == ' '.toUInt8 || b == '\t'.toUInt8 || b == '\n'.toUInt8 || b == '\r'.toUInt8

def isDigit (b : UInt8) : Bool := '0'.toUInt8 ≤ b && b ≤ '9'.toUInt8

def isIdentStart (b : UInt8) : Bool :=
  b == '_'.toUInt8 || ('A'.toUInt8 ≤ b && b ≤ 'Z'.toUInt8) || ('a'.toUInt8 ≤ b && b ≤ 'z'.toUInt8)

def isIdentPart (b : UInt8) : Bool := isIdentStart b || isDigit b

/-- The number of bytes of blanks and comments; a comment runs from `#` to the end of its line. -/
def triviaLength (inComment : Bool) : Text → Nat
  | [] => 0
  | b :: rest =>
    if inComment then
      if b = '\n'.toUInt8 then triviaLength false rest + 1 else triviaLength true rest + 1
    else if isBlank b then triviaLength false rest + 1
    else if b = '#'.toUInt8 then triviaLength true rest + 1
    else 0

/-! ## Faults -/

inductive Fault where
  | unexpected (text : Text)
  | newlineInString
  | openString
  | openChar
  | emptyChar
  | longChar
  | badEscape (letter : UInt8)
  | nonAscii
  deriving DecidableEq, Repr

def Fault.code : Fault → Code
  | .unexpected _ => .unknownCharacter
  | .newlineInString | .openString => .unterminatedString
  | .openChar => .unterminatedChar
  | .emptyChar | .longChar => .badCharLiteral
  | .badEscape _ => .badEscape
  | .nonAscii => .nonAsciiLiteral

def Fault.message : Fault → Text
  | .unexpected t => lit "unexpected character " ++ Quoted.quote t
  | .newlineInString => lit "newline in string literal"
  | .openString => lit "unterminated string literal"
  | .openChar => lit "unterminated character literal"
  | .emptyChar => lit "empty character literal"
  | .longChar => lit "character literal holds more than one character"
  | .badEscape b => Literal.unknownEscapeText b
  | .nonAscii => lit "only ASCII characters are allowed in literals"

/-- A fault with its place, counted from the first byte of the lexeme. -/
structure Finding where
  fault : Fault
  start : Nat
  stop : Nat
  deriving DecidableEq, Repr

/-- The finding as a diagnostic about a file in which the lexeme starts at `off`. -/
def Finding.diagnostic (file : UInt32) (off : Nat) (f : Finding) : Diagnostic :=
  .error f.fault.code ⟨file, (off + f.start).toUInt32, (off + f.stop).toUInt32⟩ f.fault.message

/-! ## Lexemes -/

/-- A lexeme: its kind, how many bytes follow the first one, and what is wrong with it. -/
structure Lexeme where
  kind : Kind
  more : Nat
  findings : List Finding := []
  deriving DecidableEq, Repr

def escapeFindings (off : Nat) (letter : UInt8) : List Finding :=
  match Literal.escape? letter with
  | some _ => []
  | none => [⟨.badEscape letter, off, off + 2⟩]

def plainFindings (off : Nat) (b : UInt8) : List Finding :=
  if 0x80 ≤ b then [⟨.nonAscii, off, off + 1⟩] else []

def Lexeme.after (fs : List Finding) (l : Lexeme) : Lexeme := { l with findings := fs ++ l.findings }

def stringFrom (off : Nat) : Text → Lexeme
  | [] => ⟨.invalid, off - 1, [⟨.openString, 0, off⟩]⟩
  | b :: rest =>
    if b = '"'.toUInt8 then ⟨.strLit, off, []⟩
    else if b = '\n'.toUInt8 then ⟨.invalid, off - 1, [⟨.newlineInString, 0, off⟩]⟩
    else if b = '\\'.toUInt8 then
      match rest with
      | [] => ⟨.invalid, off, [⟨.openString, 0, off + 1⟩]⟩
      | e :: rest =>
        if e = '\n'.toUInt8 then ⟨.invalid, off, [⟨.newlineInString, 0, off + 1⟩]⟩
        else (stringFrom (off + 2) rest).after (escapeFindings off e)
    else (stringFrom (off + 1) rest).after (plainFindings off b)

/-- The end of a character literal whose first `off` bytes are read.  Without the closing quote
    everything up to the next quote or the end of the line belongs to it. -/
def charEnd (off : Nat) (rest : Text) : Lexeme :=
  let junk := (rest.takeWhile fun b => b != '\''.toUInt8 && b != '\n'.toUInt8).length
  let closed := (rest.drop junk).head? == some '\''.toUInt8
  if closed then
    if junk = 0 then ⟨.charLit, off, []⟩
    else ⟨.invalid, off + junk, [⟨.longChar, 0, off + junk + 1⟩]⟩
  else ⟨.invalid, off + junk - 1, [⟨.openChar, 0, off + junk⟩]⟩

def charFrom : Text → Lexeme
  | [] => ⟨.invalid, 0, [⟨.openChar, 0, 1⟩]⟩
  | b :: rest =>
    if b = '\n'.toUInt8 then ⟨.invalid, 0, [⟨.openChar, 0, 1⟩]⟩
    else if b = '\''.toUInt8 then ⟨.invalid, 1, [⟨.emptyChar, 0, 2⟩]⟩
    else if b = '\\'.toUInt8 then
      match rest with
      | [] => charEnd 2 []
      | e :: rest' =>
        if e = '\n'.toUInt8 then charEnd 2 rest
        else (charEnd 3 rest').after (escapeFindings 1 e)
    else (charEnd 2 rest).after (plainFindings 1 b)

def single (b : UInt8) : Option Kind :=
  match b.toNat with
  | 0x28 => some .lparen
  | 0x29 => some .rparen
  | 0x5B => some .lbracket
  | 0x5D => some .rbracket
  | 0x2C => some .comma
  | 0x3B => some .semicolon
  | 0x2B => some .plus
  | 0x2D => some .minus
  | 0x2A => some .star
  | 0x2F => some .slash
  | 0x25 => some .percent
  | 0x3D => some .assign
  | 0x21 => some .bang
  | 0x3C => some .lt
  | 0x3E => some .gt
  | _ => none

/-- The symbols of two bytes: the second byte and the kind, by the first byte. -/
def double (b : UInt8) : Option (UInt8 × Kind) :=
  match b.toNat with
  | 0x3D => some (0x3D, .eqEq)
  | 0x21 => some (0x3D, .bangEq)
  | 0x3C => some (0x3D, .ltEq)
  | 0x3E => some (0x3D, .gtEq)
  | 0x26 => some (0x26, .andAnd)
  | 0x7C => some (0x7C, .orOr)
  | _ => none

def symbol1 (b : UInt8) : Lexeme :=
  match single b with
  | some k => ⟨k, 0, []⟩
  | none => ⟨.invalid, 0, [⟨.unexpected [b], 0, 1⟩]⟩

def symbol (b : UInt8) (rest : Text) : Lexeme :=
  match double b with
  | some (c, k) => if rest.head? = some c then ⟨k, 1, []⟩ else symbol1 b
  | none => symbol1 b

def word (b : UInt8) (rest : Text) : Lexeme :=
  let tail := rest.takeWhile isIdentPart
  ⟨(Kind.keyword? (b :: tail)).getD .ident, tail.length, []⟩

def number (rest : Text) : Lexeme := ⟨.intLit, (rest.takeWhile isDigit).length, []⟩

def lexeme (b : UInt8) (rest : Text) : Lexeme :=
  if isIdentStart b then word b rest
  else if isDigit b then number rest
  else if b = '"'.toUInt8 then stringFrom 1 rest
  else if b = '\''.toUInt8 then charFrom rest
  else symbol b rest

/-! ## Tokens -/

structure Step where
  token : Token
  diagnostics : List Diagnostic
  used : Nat

def next (file : UInt32) (off : Nat) (content : Text) : Step :=
  let skip := triviaLength false content
  let start := off + skip
  match content.drop skip with
  | [] => ⟨⟨.eof, ⟨file, start.toUInt32, start.toUInt32⟩, []⟩, [], skip⟩
  | b :: rest =>
    let l := lexeme b rest
    let size := l.more + 1
    ⟨⟨l.kind, ⟨file, start.toUInt32, (start + size).toUInt32⟩, (b :: rest).take size⟩,
      l.findings.map (·.diagnostic file start), skip + size⟩

/-- A step that is not at the end of the file takes at least one byte. -/
theorem length_drop_next {file : UInt32} {off : Nat} {content : Text}
    (h : (next file off content).token.kind ≠ .eof) :
    (content.drop (next file off content).used).length < content.length := by
  cases hd : content.drop (triviaLength false content) with
  | nil => simp [next, hd] at h
  | cons b rest =>
    have hlen := congrArg List.length hd
    simp only [List.length_drop, List.length_cons] at hlen
    simp only [next, hd, List.length_drop]
    omega

/-- All tokens of the bytes that start at `off` in a file, each with its diagnostics. -/
def steps (file : UInt32) (off : Nat) (content : Text) : List Step :=
  let s := next file off content
  if _h : s.token.kind = .eof then [s]
  else s :: steps file (off + s.used) (content.drop s.used)
  termination_by content.length
  decreasing_by exact length_drop_next _h

def tokens (file : UInt32) (content : Text) : List Token := (steps file 0 content).map (·.token)

def diagnostics (file : UInt32) (content : Text) : List Diagnostic :=
  (steps file 0 content).flatMap (·.diagnostics)

end Scan

end Wacc
