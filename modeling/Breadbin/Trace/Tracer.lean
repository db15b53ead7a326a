import Breadbin.Trace.Event

/-!
# Recording events

A tracer numbers spans and events and hands every event to a stream of text, to a ring, or to both.
-/

/-! ## The most recent events

A ring keeps a fixed number of events.  When it is full, every new event takes the place of the
oldest one.
-/

namespace Breadbin.Trace

/-- A buffer of events.  The next event goes to place `head`; once the buffer is full, the oldest
one is there. -/
structure Ring where
  level : Level
  slots : Array Event
  head : Nat := 0
  full : Bool := false
  deriving Inhabited

namespace Ring

/-- How many events are kept if nothing is said. -/
def defaultCapacity : Nat := 2048

/-- An empty ring; a capacity that is not positive stands for the default. -/
def ofCapacity (capacity : Int) (level : Level) : Ring :=
  { level, slots := Array.replicate (if capacity ≤ 0 then defaultCapacity else capacity.toNat) {} }

/-- The number of events that are kept. -/
def capacity (r : Ring) : Nat := r.slots.size

/-- Whether an event is kept at all. -/
def accepts (r : Ring) (e : Event) : Bool :=
  e.kind = .heartbeat || r.level.admits e.scope

/-- Keeps an event. -/
def push (r : Ring) (e : Event) : Ring :=
  let slots := r.slots.setIfInBounds r.head e
  if r.head + 1 = r.capacity then { r with slots, head := 0, full := true }
  else { r with slots, head := r.head + 1 }

/-- The events that are kept, oldest first. -/
def snapshot (r : Ring) : List Event :=
  let xs := r.slots.toList
  if r.full then xs.drop r.head ++ xs.take r.head else xs.take r.head

/-- The events as text, in lines for people or in documents; times count from the oldest one. -/
def dump (r : Ring) (f : Format) : String :=
  match r.snapshot with
  | [] => ""
  | e :: es =>
    let f := if f = .ndjson then .ndjson else .text
    String.join ((e :: es).map fun x => x.write f e.time)

end Ring

end Breadbin.Trace

namespace Breadbin.Trace

/-- Events as text, written as they come. -/
structure Sink where
  format : Format
  start : Int := 0
  count : Nat := 0
  written : String := ""
  deriving Repr, Inhabited

namespace Sink

/-- A new text.  A list for a trace viewer starts with an opening. -/
def ofFormat (f : Format) (start : Int) : Sink :=
  let format := if f = .auto then .text else f
  { format, start, written := if format = .chrome then "\x7b\"traceEvents\":[\n" else "" }

/-- Writes an event. -/
def push (s : Sink) (e : Event) : Sink :=
  let comma := if s.format = .chrome ∧ 0 < s.count then ",\n" else ""
  { s with count := s.count + 1, written := s.written ++ comma ++ e.write s.format s.start }

/-- The finished text. -/
def close (s : Sink) : String :=
  s.written ++ if s.format = .chrome then "\n]\x7d\n" else ""

end Sink

/-- Records what happens at some level. -/
structure Tracer where
  level : Level := .off
  sink : Option Sink := none
  ring : Option Ring := none
  /-- the number of the last event, which wraps around -/
  sequence : UInt64 := 0
  /-- the number of the last span -/
  spans : Nat := 0
  /-- the time events are stamped with -/
  now : Int := 0
  deriving Inhabited

/-- An open span; one that is not recorded has no number. -/
structure OpenSpan where
  recorded : Bool := false
  id : Nat := 0
  parent : Nat := 0
  scope : Scope := ⟨0⟩
  name : String := ""
  extra : List (String × String) := []
  deriving Repr, Inhabited

namespace Tracer

/-- Records nothing. -/
def off : Tracer := {}

/-- Hands an event to the text. -/
def pushSink (t : Tracer) (e : Event) : Tracer :=
  match t.sink with
  | none => t
  | some s =>
    if e.kind = .heartbeat || t.level.admits e.scope then
      let n := t.sequence + 1
      { t with sink := some (s.push { e with sequence := n.toNat }), sequence := n }
    else t

/-- Hands an event to the ring. -/
def pushRing (t : Tracer) (e : Event) : Tracer :=
  match t.ring with
  | none => t
  | some r =>
    if r.accepts e then
      let n := t.sequence + 1
      { t with ring := some (r.push { e with sequence := n.toNat }), sequence := n }
    else t

/-- Records an event. -/
def emit (t : Tracer) (e : Event) : Tracer := (t.pushSink e).pushRing e

/-- An event of a span. -/
def eventOf (t : Tracer) (s : OpenSpan) (kind : EventKind) (detail : String) : Event :=
  { time := t.now, kind, scope := s.scope, span := s.id, parent := s.parent, thread := 1
    name := s.name, detail }

/-- Opens a span, if its scope is recorded. -/
def openSpan (t : Tracer) (scope : Scope) (name : String) (parent : Nat) : Tracer × OpenSpan :=
  if t.level.isOn && t.level.admits scope then
    let s : OpenSpan := { recorded := true, id := t.spans + 1, parent, scope, name }
    let t := { t with spans := s.id }
    (t.emit (t.eventOf s .opened ""), s)
  else (t, {})

/-- Closes a span. -/
def closeSpan (t : Tracer) (s : OpenSpan) (detail : String) : Tracer :=
  if s.recorded then t.emit { t.eventOf s .closed detail with extra := s.extra } else t

/-- Records that something happens within a span. -/
def point (t : Tracer) (s : OpenSpan) (name detail : String) : Tracer :=
  if s.recorded then
    t.emit { t.eventOf s .point detail with name, parent := s.id, span := 0 }
  else t

end Tracer

/-- Adds an entry to the event that closes a span. -/
def OpenSpan.withExtra (s : OpenSpan) (key value : String) : OpenSpan :=
  if s.recorded then { s with extra := setEntry key value s.extra } else s

end Breadbin.Trace
