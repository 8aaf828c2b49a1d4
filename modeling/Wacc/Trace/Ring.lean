/-
  The last events, in a ring of slots.

  The next event goes to the slot `head`, over the oldest one once all slots are taken.  `toList`
  is what the ring holds, the oldest first.
-/
import Wacc.Trace.Event

namespace Wacc.Trace

structure Ring where
  slots : Array Event
  head : Nat := 0
  full : Bool := false
  deriving Repr

namespace Ring

def defaultCapacity : Nat := 1024

def capacityOf (size : Int) : Nat := if size ≤ 0 then defaultCapacity else size.toNat

def empty (size : Int) : Ring := { slots := Array.replicate (capacityOf size) default }

def push (r : Ring) (e : Event) : Ring :=
  let next := (r.head + 1) % r.slots.size
  { slots := r.slots.setIfInBounds r.head e, head := next, full := r.full || next == 0 }

def toList (r : Ring) : List Event :=
  if r.full then r.slots.toList.drop r.head ++ r.slots.toList.take r.head
  else r.slots.toList.take r.head

def map (f : Event → Event) (r : Ring) : Ring := { r with slots := r.slots.map f }

def render (r : Ring) (f : Format) : Text := r.toList.flatMap (·.render f)

end Ring

end Wacc.Trace
