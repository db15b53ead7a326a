import Breadbin.Script.World
import Breadbin.Timing
import Breadbin.Trace.Tracer

/-!
# Scripts that are traced and timed

Most of what commands do is done within a session, which records events and measures steps.
-/

namespace Breadbin

/-- What is recorded while a command runs. -/
structure Session where
  tracer : Trace.Tracer := .off
  /-- whether recorded events are shown at once -/
  showsTrace : Bool := false
  /-- the measured steps, if any are measured -/
  timing : Option Timing := none
  view : Build.View := .off
  deriving Inhabited

/-- A script within a session. -/
abbrev Work := StateT Session Script

namespace Work

/-- Asks something of the world. -/
def ask (r : Request) : Work r.Reply := StateT.lift (Script.request r)

/-- Tells news to whoever watches. -/
def tell (news : Build.Progress) : Work Unit := do
  ask (.tell news)
  if (← get).view = .lines then ask (.complain news.line)

/-- Shows the events that were recorded since the last time. -/
def showTrace : Work Unit := do
  let s ← get
  match s.tracer.sink with
  | some sink =>
    if s.showsTrace && !sink.written.isEmpty then
      set { s with tracer := { s.tracer with sink := some { sink with written := "" } } }
      ask (.complain sink.written)
  | none => pure ()

/-- Records something now. -/
def record {α : Type} (f : Trace.Tracer → α × Trace.Tracer) : Work α := do
  let now ← ask .now
  let (a, tracer) := f { (← get).tracer with now }
  modify ({ · with tracer })
  showTrace
  return a

/-- Opens a span. -/
def openSpan (scope : Trace.Scope) (name : String) (parent : Nat) : Work Trace.OpenSpan :=
  record fun t => let (t, s) := t.openSpan scope name parent; (s, t)

/-- Closes a span. -/
def closeSpan (span : Trace.OpenSpan) (detail : String) : Work Unit :=
  record fun t => ((), t.closeSpan span detail)

/-- Starts a step, if steps are measured. -/
def startStep (name : String) : Work (Option Nat) := do
  match (← get).timing with
  | none => return none
  | some t =>
    let (t, step) := t.start (← ask .now) name
    modify ({ · with timing := some t })
    return some step

/-- Ends a step, if it was measured. -/
def finishStep (step : Option Nat) (note : String) : Work Unit := do
  match (← get).timing, step with
  | some t, some step =>
    let now ← ask .now
    modify ({ · with timing := some (t.finish now step note) })
  | _, _ => pure ()

/-- The table of the measured steps; nothing if none are measured. -/
def timingSummary : Work String := do
  return ((← get).timing.map Timing.summary).getD ""

end Work

end Breadbin
