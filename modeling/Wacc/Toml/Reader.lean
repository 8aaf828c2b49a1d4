/-
  Reading a TOML document.

  The text is checked as a whole first: valid characters, no control characters, no carriage
  return without a line feed.  Then the lines are read one after the other.  All failures are
  alike, so the reader only says whether there is a document.
-/
import Wacc.Toml.Document
import Wacc.Toml.Scalar

namespace Wacc.Toml

def isControl (b : UInt8) : Bool := (b < 32 && b != 9 && b != 10 && b != 13) || b == 127

def returnsPaired : Text → Bool
  | [] => true
  | 13 :: 10 :: t => returnsPaired t
  | 13 :: _ => false
  | _ :: t => returnsPaired t

def isProper (t : Text) : Bool :=
  !(Utf8.codes t).contains Utf8.replacement && !t.any isControl && returnsPaired t

def dropMark : Text → Text
  | 0xFF :: 0xFE :: t => t
  | 0xFE :: 0xFF :: t => t
  | 0xEF :: 0xBB :: 0xBF :: t => t
  | t => t

/-- The state of a reader: the text that is left, the document so far, and the name whose value is
    being read. -/
structure State where
  rest : Text
  doc : Document := {}
  name : Text := []

abbrev Reader := StateT State Option

namespace Reader

def refuse {α : Type} : Reader α := fun _ => none

def peek? : Reader (Option UInt8) := return (← get).rest.head?

def moveTo (t : Text) : Reader Unit := modify fun s => { s with rest := t }

def skip : Reader Unit := modify fun s => { s with rest := s.rest.drop 1 }

def blanks : Reader Unit :=
  modify fun s => { s with rest := s.rest.dropWhile fun b => b == 32 || b == 9 }

def gaps : Reader Unit := modify fun s => { s with rest := s.rest.dropWhile isGap }

def change (f : Document → Option Document) : Reader Unit := do
  let s ← get
  match f s.doc with
  | some doc => set { s with doc }
  | none => refuse

def take {α : Type} (f : Text → Option (α × Text)) : Reader α := do
  match f (← get).rest with
  | some (a, rest) => moveTo rest; return a
  | none => refuse

def comment : Reader Unit :=
  modify fun s => { s with rest := s.rest.dropWhile fun b => b != 10 && b != 13 }

def gapsAndComments : Nat → Reader Unit
  | 0 => return
  | n + 1 => do
    gaps
    if (← peek?) == some '#'.toUInt8 then
      comment
      gapsAndComments n

def allGaps : Reader Unit := do gapsAndComments ((← get).rest.length + 1)

def part : Reader Text := do
  blanks
  match ← peek? with
  | none => refuse
  | some b =>
    if b = '"'.toUInt8 then skip; take basic?
    else if b = '\''.toUInt8 then skip; take literal?
    else
      let bare := (← get).rest.takeWhile isBare
      if bare.isEmpty then refuse
      moveTo ((← get).rest.dropWhile isBare)
      return bare

def keyTo (stop : Char) : Nat → Reader Key
  | 0 => refuse
  | n + 1 => do
    let p ← part
    blanks
    match ← peek? with
    | none => refuse
    | some b =>
      skip
      if b = '.'.toUInt8 then return p :: (← keyTo stop n)
      else if b = stop.toUInt8 then return [p]
      else refuse

def key (stop : Char) : Reader Key := do keyTo stop ((← get).rest.length + 1)

def quoted (q : Char) (line block : Text → Option (Text × Text)) : Reader Value := do
  let three := List.replicate 3 q.toUInt8
  match Text.after? (← get).rest three with
  | some t =>
    moveTo t
    return .text (← take block)
  | none =>
    skip
    return .text (← take line)

def scalar (b : UInt8) : Reader Value := do
  let t := (← get).rest
  if b = '"'.toUInt8 then quoted '"' basic? basicBlock?
  else if b = '\''.toUInt8 then quoted '\'' literal? literalBlock?
  else if isDigit b then take numberOrDate?
  else if b = '+'.toUInt8 || b = '-'.toUInt8 then take signedNumber?
  else if (lit "true").isPrefixOf t then moveTo (t.drop 4); return .bool true
  else if (lit "false").isPrefixOf t then moveTo (t.drop 5); return .bool false
  else if (lit "inf").isPrefixOf t || (lit "nan").isPrefixOf t then
    moveTo (t.drop 3)
    return .float (t.take 3)
  else refuse

def isArray : Value → Bool
  | .array _ => true
  | _ => false

mutual

def value : Nat → Bool → Reader Value
  | 0, _ => refuse
  | n + 1, inArray => do
    blanks
    match ← peek? with
    | none => refuse
    | some b =>
      if b = '['.toUInt8 then
        skip
        let name := (← get).name
        change fun d => some (d.mark name true)
        items n []
      else if b = 0x7B then
        skip
        let s ← get
        let here := s.doc.context ++ [s.name]
        change fun d => (d.imply here).enter here inArray
        let fs ← pairs n here [] true
        modify fun t => { t with doc := { t.doc with context := s.doc.context }, name := s.name }
        return .table fs
      else scalar b

def items : Nat → List Value → Reader Value
  | 0, _ => refuse
  | n + 1, done => do
    allGaps
    if (← peek?) == some ']'.toUInt8 then
      skip
      return .array done
    else
      let v ← value n true
      allGaps
      match ← peek? with
      | none => refuse
      | some b =>
        skip
        if b = ','.toUInt8 then items n (done ++ [v])
        else if b = ']'.toUInt8 then return .array (done ++ [v])
        else refuse

/-- The fields of a table in braces, up to its end.  It may be empty, but after a comma there is a
    field.  Each is listed under the last part of its key; the tables that the other parts name are
    made in the document. -/
def pairs : Nat → Key → Fields → Bool → Reader Fields
  | 0, _, _, _ => refuse
  | n + 1, here, done, mayEnd => do
    blanks
    if mayEnd && (← peek?) == some 0x7D then
      skip
      return done
    else
      let (k, v) ← pair n
      modify fun s => { s with doc := { s.doc with context := here } }
      let done := Fields.set (k.getLastD []) v done
      blanks
      match ← peek? with
      | none => refuse
      | some b =>
        skip
        if b = ','.toUInt8 then pairs n here done false
        else if b = 0x7D then return done
        else refuse

def pair : Nat → Reader (Key × Value)
  | 0 => refuse
  | n + 1 => do
    let k ← key '='
    let name := k.getLastD []
    change fun d => (d.enterImplied k.dropLast).map fun d => d.note (d.context ++ [name])
    modify fun s => { s with name }
    let v ← value n false
    change fun d => (d.put name v).map (·.mark name (isArray v))
    return (k, v)

end

def fuel (length : Nat) : Nat := 4 * length + 4

def lineEnd : Reader Unit := do
  blanks
  match ← peek? with
  | none => return
  | some b =>
    if b = '#'.toUInt8 then comment
    else if b = 10 || b = 13 then return
    else refuse

def header : Reader Unit := do
  skip
  let appended := (← peek?) == some '['.toUInt8
  if appended then skip
  let k ← key ']'
  if appended then
    if (← peek?) == some ']'.toUInt8 then skip else refuse
  change fun d => (d.enter k appended).map fun d => (d.mark [] false).note k
  lineEnd

def field : Reader Unit := do
  let s ← get
  let _ ← pair (fuel s.rest.length)
  modify fun t => { t with doc := { t.doc with context := s.doc.context }, name := [] }
  lineEnd

def lines : Nat → Reader Unit
  | 0 => refuse
  | n + 1 => do
    allGaps
    match ← peek? with
    | none => return
    | some b =>
      if b = '['.toUInt8 then header else field
      lines n

end Reader

def Document.ofText? (t : Text) : Option Document :=
  let t := dropMark t
  if !isProper t then none
  else ((Reader.lines (t.length + 1)).run { rest := t }).map fun (_, s) => s.doc

end Wacc.Toml
