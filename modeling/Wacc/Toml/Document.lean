/-
  A TOML document while it is read.

  A key may be given once.  A table that is only implied by a longer key may still be given once,
  and a key that held an array may be given again.
-/
import Wacc.Toml.Basic

namespace Wacc.Toml

structure Document where
  root : Fields := []
  /-- all keys and table names, in the order in which they were written -/
  keys : List Key := []
  context : Key := []
  implied : List Key := []
  arrays : List Key := []

namespace Document

def imply (d : Document) (k : Key) : Document :=
  { d with implied := if d.implied.contains k then d.implied else k :: d.implied }

def settle (d : Document) (k : Key) : Document := { d with implied := d.implied.filter (· != k) }

def note (d : Document) (k : Key) : Document := { d with keys := d.keys ++ [k] }

/-- What a mark on a name is put on: an empty name stands for the table itself. -/
def marked (d : Document) (name : Text) : Key :=
  let k := if name.isEmpty then d.context else d.context ++ [name]
  if k.isEmpty then [[]] else k

def mark (d : Document) (name : Text) (isArray : Bool) : Document :=
  let k := d.marked name
  let others := d.arrays.filter (· != k)
  { d with arrays := if isArray then k :: others else others }

def put (d : Document) (name : Text) (v : Value) : Option Document :=
  let k := d.context ++ [name]
  let put1 (fs : Fields) : Option Fields :=
    if (Fields.get? fs name).isNone || d.arrays.contains k then some (Fields.set name v fs)
    else if d.implied.contains k then some fs
    else none
  -- a name that was there is settled, a new one may stay implied
  let isNew (fs : Fields) : Option Fields :=
    if (Fields.get? fs name).isNone then some fs else none
  (Fields.change put1 d.root d.context).map fun root =>
    if (Fields.change isNew d.root d.context).isSome then { d with root }
    else { d.settle k with root }

def way (d : Document) (done : Key) : Key → Option Document
  | [] => some d
  | k :: ks =>
    let here := done ++ [k]
    let add (fs : Fields) : Option Fields :=
      if (Fields.get? fs k).isNone then some (Fields.set k (.table []) fs) else none
    match Fields.change add d.root done with
    | some root => way ({ d with root }.imply here) here ks
    | none =>
      -- it was there: it must be a table
      match Fields.change some d.root here with
      | some _ => way d here ks
      | none => none

def append (d : Document) (name : Text) : Option Document :=
  let add (fs : Fields) : Option Fields :=
    match Fields.get? fs name with
    | none => some (Fields.set name (.tables [[]]) fs)
    | some (.tables items) => some (Fields.set name (.tables (items ++ [[]])) fs)
    | some _ => none
  (Fields.change add d.root d.context).map fun root => { d with root }

/-- Enter a table: make those on the way, then add the table itself. -/
def enter (d : Document) (k : Key) (appended : Bool) : Option Document := do
  let name ← k.getLast?
  let d ← d.way [] k.dropLast
  let d := { d with context := k.dropLast }
  let d ← if appended then d.append name else d.put name (.table [])
  return { d with context := k }

def enterImplied (d : Document) : Key → Option Document
  | [] => some d
  | k :: ks => do
    let here := d.context ++ [k]
    let d ← (d.imply here).enter here false
    enterImplied d ks

end Document

end Wacc.Toml
