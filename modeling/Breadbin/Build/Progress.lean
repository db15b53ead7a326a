import Breadbin.Text.Case
import Breadbin.Text.Digits
import Breadbin.Trace.Level

/-!
# Progress

While programs are built, every step of every file is told to whoever watches.
-/

namespace Breadbin.Build

/-- A step of building one program. -/
structure Stage where
  name : String
  deriving DecidableEq, Repr, Inhabited

namespace Stage

/-- Reading the file. -/
def load : Stage := ⟨"load"⟩

/-- Making an image of it. -/
def compile : Stage := ⟨"compile"⟩

/-- Writing the image. -/
def write : Stage := ⟨"write"⟩

end Stage

/-- How far a step has come. -/
structure Status where
  name : String
  deriving DecidableEq, Repr, Inhabited

namespace Status

/-- It waits. -/
def queued : Status := ⟨"queued"⟩

/-- It has begun. -/
def working : Status := ⟨"working"⟩

/-- An image that was kept earlier made it needless. -/
def cached : Status := ⟨"cached"⟩

/-- It is over. -/
def done : Status := ⟨"done"⟩

/-- It failed. -/
def failed : Status := ⟨"error"⟩

end Status

/-- News about a file, or about the whole build if no file is named. -/
structure Progress where
  file : String
  stage : Stage
  status : Status
  error : Option String := none
  deriving DecidableEq, Repr, Inhabited

namespace Progress

/-- The news that a step is over one way or the other. -/
def isResult (p : Progress) : Bool :=
  p.file ≠ "" && p.status ≠ .queued && p.status ≠ .working

/-- A line about a step that is over. -/
def line (p : Progress) : String :=
  if p.isResult then
    "[" ++ Text.padRight 7 p.status.name ++ "] " ++ Text.padRight 8 p.stage.name ++ " " ++ p.file ++
      (p.error.map (": " ++ ·)).getD "" ++ "\n"
  else ""

end Progress

/-- How progress is shown. -/
inductive View where
  /-- a picture on a terminal, nothing elsewhere -/
  | auto
  | picture
  /-- a line per step -/
  | lines
  | off
  deriving DecidableEq, Repr, Inhabited

namespace View

/-- The name of a view. -/
def name : View → String
  | auto => "auto"
  | picture => "tui"
  | lines => "plain"
  | off => "off"

/-- The view of exactly that name. -/
def ofName? (s : String) : Option View :=
  [auto, picture, lines, off].find? (·.name == s)

/-- The view with a name, in any case; no name means `auto`. -/
def parse? (s : String) : Option View :=
  if s.isEmpty then some auto else ofName? (Text.lower s)

/-- The complaint about a name. -/
def complaint (s : String) : String :=
  Trace.invalidWord "ui mode" s "auto|tui|plain|off"

end View

end Breadbin.Build
