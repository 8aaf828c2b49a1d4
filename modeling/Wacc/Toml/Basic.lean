/-
  The values of a TOML document.

  A table is a list of fields in the order in which they were first given.  The tables that a
  document appends under one name with double brackets are kept as a value of their own, because
  keys that lead through that name mean the last of them.
-/
import Wacc.Text.Utf8

namespace Wacc.Toml

/-- A value; numbers with a fraction and dates are kept as they were written. -/
inductive Value where
  | text (t : Text)
  | int (n : Int)
  | float (written : Text)
  | bool (b : Bool)
  | date (written : Text)
  | array (items : List Value)
  | table (fields : List (Text × Value))
  | tables (items : List (List (Text × Value)))

abbrev Fields := List (Text × Value)

abbrev Key := List Text

def isBare (b : UInt8) : Bool :=
  (65 ≤ b && b ≤ 90) || (97 ≤ b && b ≤ 122) || (48 ≤ b && b ≤ 57) || b == '_'.toUInt8 || b == '-'.toUInt8

def quotedByte (b : UInt8) : Text :=
  if b = '"'.toUInt8 then lit "\\\""
  else if b = '\\'.toUInt8 then lit "\\\\"
  else if b = 8 then lit "\\b"
  else if b = 9 then lit "\\t"
  else if b = 10 then lit "\\n"
  else if b = 12 then lit "\\f"
  else if b = 13 then lit "\\r"
  else if b < 32 || b = 127 then lit "\\u" ++ hex 4 b.toNat
  else [b]

def partText (t : Text) : Text :=
  if !t.isEmpty && t.all isBare then t else lit "\"" ++ t.flatMap quotedByte ++ lit "\""

def Key.text (k : Key) : Text := Text.joinWith (lit ".") (k.map partText)

namespace Fields

def get? (fs : Fields) (name : Text) : Option Value := (fs.find? (·.1 == name)).map (·.2)

def set (name : Text) (v : Value) : Fields → Fields
  | [] => [(name, v)]
  | (n, w) :: fs => if n = name then (n, v) :: fs else (n, w) :: set name v fs

def defines (fs : Fields) : Key → Bool
  | [] => false
  | [k] => (get? fs k).isSome
  | k :: ks =>
    match get? fs k with
    | some (.table inner) => defines inner ks
    | _ => false

/-- Change the table that the path leads to, the last one where tables were appended.  Fails if the
    path leads through a value that is no table, or if the change does. -/
def change (f : Fields → Option Fields) (fs : Fields) : Key → Option Fields
  | [] => f fs
  | k :: ks =>
    match get? fs k with
    | some (.table inner) => (change f inner ks).map fun t => set k (.table t) fs
    | some (.tables items) =>
      match items.getLast? with
      | none => none
      | some last => (change f last ks).map fun t => set k (.tables (items.dropLast ++ [t])) fs
    | _ => none

end Fields

end Wacc.Toml
