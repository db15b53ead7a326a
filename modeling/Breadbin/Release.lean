import Breadbin.Text.Json
import Breadbin.Text.Path
import Breadbin.Text.Style

/-!
# Which release this is

The version of the tool, and what is known of how it was built.
-/

namespace Breadbin

/-- What a build of the tool says of itself. -/
structure Release where
  version : String := "0.1.0-dev"
  commit : String := ""
  date : String := ""
  deriving DecidableEq, Repr, Inhabited

namespace Release

/-- The machine that code is made for. -/
def machine : String := "6502 / C64"

/-- The three numbers of a version; the last one holds all that follows a second point. -/
def numbers? (core : String) : Option (String × String × String) :=
  match Text.Path.splitOn '.' core with
  | major :: minor :: patch :: more => some (major, minor, String.intercalate "." (patch :: more))
  | _ => none

/-- What stands before the first dash, and what follows it. -/
def parts (version : String) : String × String :=
  match Text.Path.splitOn '-' version with
  | [] => (version, "")
  | core :: rest => (core, String.intercalate "-" rest)

/-- The version, each of its numbers in a colour of its own. -/
def styled (colour : Bool) (r : Release) : String :=
  let (core, suffix) := parts r.version
  let paint (c : Text.Colour) := Text.Style.apply ⟨colour, some c, true⟩
  match numbers? core with
  | none => r.version
  | some (major, minor, patch) =>
    paint .yellow major ++ "." ++ paint .green minor ++ "." ++ paint .blue patch ++
      if suffix.isEmpty then "" else "-" ++ suffix

/-- A line that is left out when there is nothing to tell. -/
def lineUnlessEmpty (label value : String) : String :=
  if value.isEmpty then "" else label ++ value ++ "\n"

/-- The text for people. -/
def banner (colour : Bool) (r : Release) : String :=
  "halfbyte " ++ r.styled colour ++ " (" ++ machine ++ ")\n" ++
    lineUnlessEmpty "commit: " r.commit ++ lineUnlessEmpty "built:  " r.date

/-- The text for other programs. -/
def document (r : Release) : String :=
  let optional (name value : String) : List (String × Text.Json) :=
    if value.isEmpty then [] else [(name, .string value)]
  Text.Json.indented (.record
    ([("tool", .string "halfbyte"), ("version", .string r.version), ("target", .string machine)] ++
      optional "git_commit" r.commit ++ optional "build_date" r.date)) ++ "\n"

end Release

end Breadbin
