/-
  Bags: ordered collections of diagnostics with a limit.
-/
import Wacc.Diagnostic.Basic

namespace Wacc

/-- Diagnostics in order of arrival; a limit that is not positive is no limit. -/
structure Bag where
  limit : Int
  items : List Diagnostic := []
  deriving Repr

namespace Bag

def hasRoom (b : Bag) : Bool := b.limit ≤ 0 || (b.items.length : Int) < b.limit

def add (b : Bag) (d : Diagnostic) : Bag :=
  if b.hasRoom then { b with items := b.items ++ [d] } else b

def addAll (b : Bag) (ds : List Diagnostic) : Bag := ds.foldl add b

def merge (b c : Bag) : Bag :=
  let size : Int := (b.items.length + c.items.length : Nat)
  { limit := if 0 < b.limit && b.limit < size then size else b.limit
    items := b.items ++ c.items }

/-- Put the items into reporting order; items that compare equal keep their order. -/
def sort (b : Bag) : Bag :=
  { b with items := b.items.mergeSort fun d e => !e.before d }

def hasErrors (b : Bag) : Bool := Diagnostic.anyError b.items

def firstCategory (b : Bag) : Category := Diagnostic.firstCategory b.items

def exitCode (b : Bag) : Nat := Diagnostic.exitCode b.items

end Bag

end Wacc
