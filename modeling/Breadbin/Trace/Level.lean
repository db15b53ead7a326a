import Breadbin.Text.Case
import Breadbin.Text.Quoted

/-!
# How much is traced, and where

A level decides by scope which events are recorded.  Scopes and kinds of events are numbered; a
number that names none is kept as it is.
-/

namespace Breadbin.Trace

/-- How much is traced. -/
inductive Level where
  | off
  /-- everything, but only kept back for a failure -/
  | error
  /-- commands, programs and passes -/
  | phase
  /-- functions too -/
  | detail
  | unknown (number : UInt8)
  deriving DecidableEq, Repr, Inhabited

/-- How coarse an event is: the coarser, the lower the number. -/
structure Scope where
  number : UInt8
  deriving DecidableEq, Repr, Inhabited

namespace Scope

/-- A whole command. -/
def command : Scope := ⟨1⟩

/-- A program. -/
def program : Scope := ⟨2⟩

/-- A pass over a program. -/
def pass : Scope := ⟨3⟩

/-- A function. -/
def function : Scope := ⟨4⟩

/-- The name of a scope. -/
def text (s : Scope) : String :=
  ["driver", "program", "pass", "func"][s.number.toNat - 1]?.filter (fun _ => s.number ≠ 0)
    |>.getD "unknown"

end Scope

namespace Level

/-- The level with a number. -/
def ofNumber (n : UInt8) : Level :=
  [off, error, phase, detail][n.toNat]?.getD (unknown n)

/-- The name of a level. -/
def text : Level → String
  | off => "off"
  | error => "error"
  | phase => "phase"
  | detail => "detail"
  | unknown _ => "unknown"

/-- Whether anything is traced. -/
def isOn (l : Level) : Bool := l ≠ off

/-- Whether events of a scope are recorded. -/
def admits (l : Level) (s : Scope) : Bool :=
  match l with
  | error | detail => true
  | phase => s.number ≤ Scope.pass.number
  | off | unknown _ => false

/-- The level with a name, in any case. -/
def parse? (s : String) : Option Level :=
  [off, error, phase, detail].find? fun l => l.text == Text.lower s

end Level

/-- Where events go. -/
inductive Storage where
  /-- written as they come -/
  | stream
  /-- kept back -/
  | ring
  | both
  | unknown (number : UInt8)
  deriving DecidableEq, Repr, Inhabited

namespace Storage

/-- The storage with a number, counted from one. -/
def ofNumber (n : UInt8) : Storage :=
  if n = 1 then stream else if n = 2 then ring else if n = 3 then both else unknown n

/-- The name of a storage. -/
def text : Storage → String
  | stream => "stream"
  | ring => "ring"
  | both => "both"
  | unknown _ => "unknown"

/-- The storage with a name, in any case. -/
def parse? (s : String) : Option Storage :=
  [stream, ring, both].find? fun m => m.text == Text.lower s

end Storage

/-- How events are written. -/
inductive Format where
  /-- chosen by the name of the file -/
  | auto
  /-- a line for people -/
  | text
  /-- a document a line -/
  | ndjson
  /-- the items of a list for a trace viewer -/
  | chrome
  deriving DecidableEq, Repr, Inhabited

namespace Format

/-- The formats by number, from zero on. -/
def all : List Format := [auto, text, ndjson, chrome]

/-- The number of a format. -/
def number : Format → Nat
  | auto => 0
  | text => 1
  | ndjson => 2
  | chrome => 3

/-- The format with a number; one without a name writes lines for people. -/
def ofNumber (n : Nat) : Format := all[n]?.getD text

/-- The name of a format. -/
def name : Format → String
  | auto => "auto"
  | text => "text"
  | ndjson => "ndjson"
  | chrome => "chrome"

/-- The format with a name, in any case; no name means `auto`. -/
def parse? (s : String) : Option Format :=
  if s.isEmpty then some auto else all.find? fun f => f.name == Text.lower s

/-- The format for a file. -/
def forPath (f : Format) (path : String) : Format :=
  if f ≠ auto then f
  else if path.endsWith ".ndjson" then ndjson
  else if path.endsWith ".json" then chrome
  else text

end Format

/-- The complaint about a word that none of the expected ones equals. -/
def invalidWord (what word expected : String) : String :=
  "invalid " ++ what ++ " " ++ Text.quotedText word ++ " (expected " ++ expected ++ ")"

/-- The complaint about a level. -/
def Level.complaint (s : String) : String :=
  invalidWord "trace level" s "off|error|phase|detail"

/-- The complaint about a storage. -/
def Storage.complaint (s : String) : String :=
  invalidWord "trace mode" s "stream|ring|both"

/-- The complaint about a format. -/
def Format.complaint (s : String) : String :=
  invalidWord "trace format" s "auto|text|ndjson|chrome"

end Breadbin.Trace
