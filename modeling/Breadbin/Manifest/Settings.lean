import Breadbin.Manifest.Basic
import Breadbin.Placement.Target
import Breadbin.Text.Case
import Breadbin.Text.Path
import Breadbin.Text.Quoted

/-!
# Settings of a build

What a manifest says is laid over the defaults.
-/

namespace Breadbin

/-- Where built images go. -/
structure Output where
  /-- one program file each, or one disk for all -/
  format : String := ""
  directory : String := ""
  /-- the name of the disk and of its file -/
  diskName : String := ""
  diskId : String := ""
  deriving DecidableEq, Repr, Inhabited

/-- How programs are built. -/
structure Settings where
  name : String := ""
  target : Target := .c64
  output : Output := { format := "prg", directory := "." }
  mostDiagnostics : Int := 100
  cache : Bool := false
  deriving DecidableEq, Repr, Inhabited

/-- What is wrong with a manifest. -/
inductive ManifestError where
  | unreadable (e : Manifest.ReadError)
  | unknownTarget (name : String)
  | target (e : TargetError)
  | format (given : String)
  | negativeLimit
  deriving DecidableEq, Repr

/-- What is told about it, after the path of the manifest. -/
def ManifestError.message : ManifestError → String
  | unreadable e => e.message
  | unknownTarget name => "unknown target " ++ Text.quotedText name
  | target e => e.message
  | format given => "[output].format must be prg or d64, got " ++ Text.quotedText given
  | negativeLimit => "[build].max_diagnostics must not be negative"

namespace Manifest

/-- The target of a manifest, whether it can be used or not. -/
def target (m : Manifest) : Except ManifestError Target := do
  let base ← match m.targetName with
    | none => pure Target.c64
    | some name => (Target.lookup? name).elim (.error (.unknownTarget name)) .ok
  return { base with
    loadAddress := m.loadAddress.getD base.loadAddress
    startLine := m.startLine.getD base.startLine
    variableBase := m.variableBase.getD base.variableBase
    variableLimit := m.variableLimit.getD base.variableLimit }

/-- The directory for the output; a relative one starts at the manifest's own. -/
def outputDirectory (m : Manifest) (root : String) : String :=
  if m.directory.isEmpty then root
  else if Text.Path.isAbsolute m.directory then m.directory
  else Text.Path.join [root, m.directory]

/-- The settings of a manifest in the given directory. -/
def settings (m : Manifest) (root : String) : Except ManifestError Settings := do
  let target ← m.target
  if let some e := target.error? then .error (.target e)
  let format := if m.format.isEmpty then "prg" else Text.lower m.format
  if format ≠ "prg" ∧ format ≠ "d64" then .error (.format m.format)
  let most := m.mostDiagnostics.getD 100
  if most < 0 then .error .negativeLimit
  return {
    name := m.name
    target
    output :=
      { format
        directory := m.outputDirectory root
        diskName := if m.diskName.isEmpty then m.name else m.diskName
        diskId := m.diskId }
    mostDiagnostics := most
    cache := m.cache }

/-- The settings that the contents of a manifest's file ask for. -/
def settingsOf (file : Bytes) (root : String) : Except ManifestError Settings :=
  match parse file with
  | .error e => .error (.unreadable e)
  | .ok m => m.settings root

/-- The manifest of a new project.  It spells out the defaults. -/
def template (name : String) : String :=
  let t := Target.c64
  let address (a : UInt16) := "0x" ++ Text.hexUpper 4 a.toNat
  "\n".intercalate
    ["# halfbyte project manifest",
      "[package]",
      "name = " ++ Text.quotedText name,
      "",
      "[target]",
      "name = " ++ Text.quotedText t.name,
      "load_address = " ++ address t.loadAddress,
      s!"basic_stub = {t.startLine}",
      "var_base = " ++ address t.variableBase,
      "var_limit = " ++ address t.variableLimit,
      "",
      "[output]",
      "format = \"prg\"",
      "dir = \"build\"",
      "disk_name = " ++ Text.quotedText (Text.upper name),
      "disk_id = \"hb\"",
      "",
      "[build]",
      "max_diagnostics = 100",
      "cache = false",
      ""]

end Manifest

end Breadbin
