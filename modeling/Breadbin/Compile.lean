import Breadbin.Lowering.Startup

/-!
# Compilation

Compiling a program for a target gives an image unless an error was found.
-/

namespace Breadbin

/-- What comes of compiling a program. -/
structure Compilation where
  image : Option Image := none
  diagnostics : Bag := {}
  routines : List RoutineId := []
  slots : List Slot := []
  /-- the number of bytes before branches were widened -/
  unlinked : Nat := 0
  /-- the fault of whoever built the program -/
  fault : Option LoweringError := none
  tracer : Trace.Tracer := .off
  deriving Inhabited

namespace Compilation

/-- How to compile. -/
structure Options where
  target : Target := .c64
  /-- how many diagnostics are kept; all, unless positive -/
  mostDiagnostics : Int := 0

/-- The state before anything is lowered. -/
def initialEmission (t : Target) (bag : Bag) (tracer : Trace.Tracer) (span : Trace.OpenSpan) :
    Lowering.Emission :=
  { workspace := { target := t }, allocator := .ofTarget t,
    reports := .filtering bag, tracer, span }

/-- What is left of lowering: its result or its fault, and the state it ended in. -/
def lower (p : Program) (s : Lowering.Emission) : Except LoweringError Image × Lowering.Emission :=
  (Lowering.lowerProgram.run p).run.run s

/-- Compiles a program for a valid target. -/
def ofProgram (p : Program) (o : Options) (tracer : Trace.Tracer) (parent : Nat) : Compilation :=
  let bag := Bag.ofLimit o.mostDiagnostics
  let (tracer, span) := tracer.openSpan .program ("mos:" ++ Text.shown p.name) parent
  let (result, s) := lower p (initialEmission o.target bag tracer span)
  let done : Compilation :=
    { diagnostics := s.reports.bag
      routines := s.workspace.required
      slots := s.allocator.slots.toList
      unlinked := s.workspace.stream.size }
  match result with
  | .error fault =>
    { done with
      diagnostics := done.diagnostics.add (.error fault.code .none fault.message)
      fault := some fault
      tracer := s.tracer.closeSpan span "failed" }
  | .ok image =>
    if done.diagnostics.hasErrors then { done with tracer := s.tracer.closeSpan span "errors" }
    else
      { done with
        image := some image
        tracer := s.tracer.closeSpan span s!"{image.bytes.size} bytes" }

end Compilation

/-- Compiles a program, if there is one. -/
def compile (p : Option Program) (o : Compilation.Options) (tracer : Trace.Tracer) (parent : Nat) :
    Compilation :=
  match p with
  | none =>
    { diagnostics := .ofLimit o.mostDiagnostics, fault := some (.malformed "nil program"), tracer }
  | some p =>
    match o.target.error? with
    | some e =>
      { diagnostics :=
          (Bag.ofLimit o.mostDiagnostics).add (.error .invalidTarget .none e.message)
        tracer }
    | none => .ofProgram p o tracer parent

end Breadbin
