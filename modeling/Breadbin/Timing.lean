import Breadbin.Numeric.Double
import Breadbin.Text.Digits

/-!
# How long things take

The steps of a command are measured one by one.  Times are counted in nanoseconds.
-/

namespace Breadbin

/-- One measured step. -/
structure Phase where
  name : String
  start : Int := 0
  duration : Int := 0
  /-- what is added about it once it is over -/
  note : String := ""
  deriving DecidableEq, Repr, Inhabited

/-- The measured steps, in the order in which they began. -/
structure Timing where
  phases : Array Phase := #[]
  deriving DecidableEq, Repr, Inhabited

namespace Timing

/-- Starts a step, and tells which one it is. -/
def start (t : Timing) (now : Int) (name : String) : Timing × Nat :=
  (⟨t.phases.push { name, start := now }⟩, t.phases.size)

/-- Ends a step; nothing happens if there is no such step. -/
def finish (t : Timing) (now : Int) (step : Nat) (note : String) : Timing :=
  ⟨t.phases.modify step fun p => { p with duration := now - p.start, note }⟩

/-- What is noted of a step that may fail. -/
def failureNote (failed : Bool) : String := if failed then "failed" else ""

/-- From the first start to the last end; steps may overlap. -/
def total (t : Timing) : Int :=
  match t.phases.toList with
  | [] => 0
  | p :: ps =>
    let first := ps.foldl (fun m q => min m q.start) p.start
    let last := (p :: ps).foldl (fun m q => max m (q.start + q.duration)) p.start
    last - first

/-- Milliseconds with two places, at least eight columns wide. -/
def milliseconds (nanoseconds : Int) : String :=
  Text.padLeft 8
    ((Numeric.Double.ofRatio (nanoseconds < 0) nanoseconds.natAbs 1000000).withPlaces 2) ++ " ms"

/-- A table of all steps. -/
def summary (t : Timing) : String :=
  let names := t.phases.toList.map (·.name.utf8ByteSize)
  let width := names.foldl max "total".length
  let line (name : String) (duration : Int) (note : String) : String :=
    "  " ++ Text.padRight width name ++ " " ++ milliseconds duration ++
      (if note.isEmpty then "" else "  " ++ note) ++ "\n"
  "timings:\n" ++ String.join (t.phases.toList.map fun p => line p.name p.duration p.note) ++
    line "total" t.total ""

end Timing

end Breadbin
