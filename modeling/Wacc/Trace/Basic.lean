/-
  Traces: spans and points that go to a stream, a ring, or both.

  Every event that is written or kept gets the next number; one that is both written and kept gets
  two.  A span below the level of the trace is idle: it records nothing and has no number.
-/
import Wacc.Trace.Ring

namespace Wacc

namespace Trace

inductive Sink where
  | nothing
  | stream
  | ring (r : Ring)
  | both (r : Ring)
  deriving Repr

def Sink.name : Sink → Text
  | .nothing => lit "nop"
  | .stream => lit "stream"
  | .ring _ => lit "ring"
  | .both _ => lit "multi"

structure Config where
  level : Level
  mode : Mode := ⟨0⟩
  format : Format := .auto
  path : Text := []
  ring : Int := 0
  deriving Repr

end Trace

structure Trace where
  level : Trace.Level := .off
  sink : Trace.Sink := .nothing
  format : Trace.Format := .text
  clock : Text := []
  seq : Nat := 0
  spans : Nat := 0
  written : Text := []
  deriving Repr

namespace Trace

structure Span where
  live : Bool := false
  id : Nat := 0
  parent : Nat := 0
  scope : Scope := ⟨0⟩
  name : Text := []
  extra : Attributes := []
  deriving Repr, Inhabited

def Config.formatOf (c : Config) : Format :=
  if c.format ≠ .auto then c.format
  else if Text.endsWith c.path (lit ".ndjson") || Text.endsWith c.path (lit ".json") then .ndjson
  else .text

def Config.modeOf (c : Config) : Mode :=
  if c.level = .error then .ring else if c.mode = ⟨0⟩ then .stream else c.mode

/-- The trace that a configuration asks for; there is none for an unknown mode. -/
def ofConfig? (c : Config) (clock : Text) : Option Trace :=
  let t : Trace := { level := c.level, format := c.formatOf, clock }
  if c.level = .off then some { clock }
  else if c.modeOf = .stream then some { t with sink := .stream }
  else if c.modeOf = .ring then some { t with sink := .ring (.empty c.ring) }
  else if c.modeOf = .both then some { t with sink := .both (.empty c.ring) }
  else none

def streams (t : Trace) : Bool :=
  match t.sink with
  | .stream | .both _ => true
  | _ => false

def write (t : Trace) (e : Event) : Trace :=
  { t with seq := t.seq + 1, written := t.written ++ { e with seq := t.seq + 1 }.render t.format }

def keep (t : Trace) (r : Ring) (e : Event) : Ring := r.push { e with seq := t.seq + 1 }

def emit (t : Trace) (e : Event) : Trace :=
  if t.level.admits e.scope then
    match t.sink with
    | .nothing => t
    | .stream => t.write e
    | .ring r => { t with seq := t.seq + 1, sink := .ring (t.keep r e) }
    | .both r =>
      let t := t.write e
      { t with seq := t.seq + 1, sink := .both (t.keep r e) }
  else t

def admits (t : Trace) (s : Scope) : Bool := t.level.enabled && t.level.admits s

def start (t : Trace) (scope : Scope) (name : Text) (parent : Nat) : Span × Trace :=
  if t.admits scope then
    let id := t.spans + 1
    ({ live := true, id, parent, scope, name },
      { t with spans := id }.emit { time := t.clock, kind := .start, scope, span := id, parent, name })
  else ({}, t)

def stop (t : Trace) (s : Span) (detail : Text) : Trace :=
  if s.live then
    t.emit { time := t.clock, kind := .stop, scope := s.scope, span := s.id, parent := s.parent,
             name := s.name, detail, extra := s.extra }
  else t

def point (t : Trace) (scope : Scope) (name detail : Text) (parent : Nat) : Trace :=
  if t.admits scope then
    let id := t.spans + 1
    { t with spans := id }.emit
      { time := t.clock, kind := .point, scope, span := id, parent, name, detail }
  else t

def mapKept (t : Trace) (f : Event → Event) : Trace :=
  match t.sink with
  | .ring r => { t with sink := .ring (r.map f) }
  | .both r => { t with sink := .both (r.map f) }
  | _ => t

/-- Give a span a named value, to be recorded at its end.  Ends of the span that are kept with
    values share them with the span. -/
def annotate (t : Trace) (s : Span) (key value : Text) : Span × Trace :=
  if s.live then
    ({ s with extra := s.extra.set key value },
      t.mapKept fun e =>
        if e.kind = .stop && e.span = s.id && !e.extra.isEmpty then
          { e with extra := e.extra.set key value }
        else e)
  else (s, t)

def ring? (t : Trace) : Option Ring :=
  match t.sink with
  | .ring r => some r
  | _ => none

def history? (t : Trace) : Option Ring :=
  match t.sink with
  | .ring r | .both r => some r
  | _ => none

end Trace

end Wacc
