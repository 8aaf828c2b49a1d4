/-
  Types of values.

  An array type is kept flat: its innermost element type and the number of dimensions.  A pair
  type knows both slots; `anyPair` is the type of `null` and of pairs whose slots were not
  written down, and `emptyArray` is the type of `[]`.

  * `accepts d a` says that a place of type `d` takes a value of type `a`; it has a direction, as
    a string takes a character array and not the other way round;
  * `refine d a` fills the unwritten pairs of `d` from `a`;
  * `peel` takes one dimension off an array, `nested` several.
-/
import Wacc.Fault

namespace Wacc

/-- A type.  `unknown` stands for a kind number that means nothing. -/
inductive Ty where
  | int
  | bool
  | char
  | string
  | array (elem : Ty) (depth : UInt32)
  | emptyArray
  | pair (fst snd : Ty)
  | anyPair
  | unknown (kind : UInt8)
  deriving DecidableEq, Repr, Inhabited

namespace Ty

/-! ## Building -/

def arrayOf : Ty → Ty
  | .array e d => .array e (d + 1)
  | t => .array t 1

def arrayOfN (t : Ty) : Nat → Ty
  | 0 => t
  | n + 1 => arrayOf (arrayOfN t n)

/-! ## Asking -/

def isArray : Ty → Bool
  | .array _ _ | .emptyArray => true
  | _ => false

def isPair : Ty → Bool
  | .pair _ _ | .anyPair => true
  | _ => false

/-- Whether a type is the array of characters with one dimension, which is laid out as a string
    is. -/
def isCharArray : Ty → Bool
  | .array .char d => d == 1
  | _ => false

def size : Ty → UInt32
  | .char | .bool => 1
  | _ => 4

/-! ## Writing -/

def brackets (n : Nat) : Text := (List.replicate n (lit "[]")).flatten

def kindName (n : Nat) : Text :=
  match n with
  | 0 => lit "invalid"
  | 1 => lit "int"
  | 2 => lit "bool"
  | 3 => lit "char"
  | 4 => lit "string"
  | 5 => lit "array"
  | 6 => lit "empty array"
  | 7 => lit "pair"
  | 8 => lit "any pair"
  | n => lit "Kind(" ++ decimal n ++ lit ")"

def render : Ty → Text
  | .int => lit "int"
  | .bool => lit "bool"
  | .char => lit "char"
  | .string => lit "string"
  | .array e d => e.render ++ brackets d.toNat
  | .emptyArray => lit "[]"
  | .pair a b =>
    let slot (t : Ty) (text : Text) : Text :=
      match t with
      | .pair _ _ => lit "pair"
      | _ => text
    lit "pair(" ++ slot a a.render ++ lit ", " ++ slot b b.render ++ lit ")"
  | .anyPair => lit "pair"
  | .unknown k => kindName k.toNat

/-! ## Taking dimensions off -/

def peel : Ty → Except Fault Ty
  | .array e d => if d = 1 then .ok e else .ok (.array e (d - 1))
  | t => .error (.notArray t.render)

def nested (t : Ty) (n : UInt32) : Except Fault Ty :=
  if n = 0 then .ok t
  else match t with
    | .array e d =>
      if d < n then .error (.tooManyIndices t.render n)
      else if n = d then .ok e
      else .ok (.array e (d - n))
    | _ => .error (.tooManyIndices t.render n)

/-! ## Compatibility -/

/-- Whether a place of a type that is no array takes the array of `elem` with `depth`
    dimensions. -/
def acceptsArray (declared elem : Ty) (depth : UInt32) : Bool :=
  match declared with
  | .string => elem == .char && depth == 1
  | .emptyArray => true
  | _ => false

/-- Whether a place of type `declared` takes a value of the second type.  Of two arrays as many
    dimensions are taken off as both have. -/
def accepts : Ty → Ty → Bool
  | .int, .int | .bool, .bool | .char, .char | .string, .string => true
  | .string, .array e d => acceptsArray .string e d
  | .array _ _, .emptyArray => true
  | .array e d, .array e' d' =>
    if d = d' then e.accepts e'
    else if d < d' then e.acceptsArray e' (d' - d)
    else e' == .emptyArray
  | .emptyArray, t => t.isArray
  | .pair _ _, .anyPair => true
  | .pair a b, .pair a' b' => a.accepts a' && b.accepts b'
  | .anyPair, t => t.isPair
  | _, _ => false

/-- The slot of a pair, filled from the actual one if it was not written out. -/
def refineSlot : Ty → Ty → Ty
  | .anyPair, .pair a b => .pair a b
  | d, _ => d

/-- The declared type with its unwritten pairs filled from the actual type; nothing else
    changes. -/
def refine : Ty → Ty → Ty
  | .anyPair, .pair a b => .pair a b
  | .pair a b, .pair a' b' => .pair (refineSlot a a') (refineSlot b b')
  | d, _ => d

end Ty

end Wacc
