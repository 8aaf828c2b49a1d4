/-
  JSON text.

  A small value type and its two layouts: `compact`, on one line without blanks, and `indented`,
  with two spaces a level and a blank after each colon.  In strings the characters `<`, `>` and
  `&` and the two line separators are escaped, and a broken byte is written as the replacement
  character.
-/
import Wacc.Text.Utf8

namespace Wacc

inductive Json where
  | str (value : Text)
  | num (value : Int)
  | arr (items : List Json)
  | obj (fields : List (Text × Json))

namespace Json

def nat (n : Nat) : Json := .num n

def char (p : Utf8.Piece) : Text :=
  if p.broken then lit "\\ufffd"
  else match p.code with
    | 8 => lit "\\b"
    | 9 => lit "\\t"
    | 10 => lit "\\n"
    | 12 => lit "\\f"
    | 13 => lit "\\r"
    | 34 => lit "\\\""
    | 92 => lit "\\\\"
    | c =>
      if c < 0x20 ∨ c = 0x26 ∨ c = 0x3C ∨ c = 0x3E ∨ c = 0x2028 ∨ c = 0x2029 then
        lit "\\u" ++ hex 4 c
      else p.bytes

def string (t : Text) : Text := 34 :: (Utf8.pieces t).flatMap char ++ [34]

mutual

def compact : Json → Text
  | .str t => string t
  | .num n => decimalInt n
  | .arr items => lit "[" ++ compactItems items ++ lit "]"
  | .obj fields => lit "\x7b" ++ compactFields fields ++ lit "\x7d"

def compactItems : List Json → Text
  | [] => []
  | [v] => compact v
  | v :: w :: rest => compact v ++ lit "," ++ compactItems (w :: rest)

def compactFields : List (Text × Json) → Text
  | [] => []
  | [(k, v)] => string k ++ lit ":" ++ compact v
  | (k, v) :: f :: rest => string k ++ lit ":" ++ compact v ++ lit "," ++ compactFields (f :: rest)

end

def newline (level : Nat) : Text := 10 :: Text.blanks (2 * level)

mutual

def indentedAt (level : Nat) : Json → Text
  | .str t => string t
  | .num n => decimalInt n
  | .arr [] => lit "[]"
  | .arr (v :: rest) =>
    lit "[" ++ newline (level + 1) ++ indentedItems (level + 1) (v :: rest) ++ newline level ++ lit "]"
  | .obj [] => lit "\x7b\x7d"
  | .obj (f :: rest) =>
    lit "\x7b" ++ newline (level + 1) ++ indentedFields (level + 1) (f :: rest) ++ newline level ++
      lit "\x7d"

def indentedItems (level : Nat) : List Json → Text
  | [] => []
  | [v] => indentedAt level v
  | v :: w :: rest => indentedAt level v ++ lit "," ++ newline level ++ indentedItems level (w :: rest)

def indentedFields (level : Nat) : List (Text × Json) → Text
  | [] => []
  | [(k, v)] => string k ++ lit ": " ++ indentedAt level v
  | (k, v) :: f :: rest =>
    string k ++ lit ": " ++ indentedAt level v ++ lit "," ++ newline level ++
      indentedFields level (f :: rest)

end

def indented (v : Json) : Text := indentedAt 0 v ++ [10]

end Json

end Wacc
