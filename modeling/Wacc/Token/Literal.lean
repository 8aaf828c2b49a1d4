/-
  Spellings of character and string literals.

  Between the quotes a backslash and one of nine letters stand for one byte; every other byte
  stands for itself.
-/
import Wacc.Text.Utf8

namespace Wacc.Literal

def escape? (letter : UInt8) : Option UInt8 :=
  match letter.toNat with
  | 0x30 => some 0
  | 0x62 => some 8
  | 0x74 => some 9
  | 0x6E => some 10
  | 0x66 => some 12
  | 0x72 => some 13
  | 0x22 => some 0x22
  | 0x27 => some 0x27
  | 0x5C => some 0x5C
  | _ => none

inductive Error where
  | malformedChar (text : Text)
  | malformedString (text : Text)
  | notSingle (text : Text)
  | danglingEscape
  | unknownEscape (letter : UInt8)
  deriving DecidableEq, Repr

def unknownEscapeText (letter : UInt8) : Text :=
  lit "unknown escape sequence '\\" ++ Utf8.encode letter.toNat ++ lit "'"

def Error.message : Error → Text
  | .malformedChar t => lit "malformed character literal " ++ t
  | .malformedString t => lit "malformed string literal " ++ t
  | .notSingle t => lit "character literal " ++ t ++ lit " must hold one character"
  | .danglingEscape => lit "dangling escape"
  | .unknownEscape b => unknownEscapeText b

def unescape : Text → Except Error Text
  | [] => .ok []
  | b :: rest =>
    if b = '\\'.toUInt8 then
      match rest with
      | [] => .error .danglingEscape
      | e :: rest =>
        match escape? e with
        | none => .error (.unknownEscape e)
        | some v => (unescape rest).map (v :: ·)
    else (unescape rest).map (b :: ·)

def body? (q : UInt8) (t : Text) : Option Text :=
  match t with
  | [] => none
  | b :: rest =>
    if b = q then
      match rest.getLast? with
      | some e => if e = q then some rest.dropLast else none
      | none => none
    else none

def char (t : Text) : Except Error UInt8 :=
  match body? '\''.toUInt8 t with
  | none | some [] => .error (.malformedChar t)
  | some body =>
    match unescape body with
    | .error e => .error e
    | .ok [b] => .ok b
    | .ok _ => .error (.notSingle t)

def string (t : Text) : Except Error Text :=
  match body? '"'.toUInt8 t with
  | none => .error (.malformedString t)
  | some body => unescape body

end Wacc.Literal
