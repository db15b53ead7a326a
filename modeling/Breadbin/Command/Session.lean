import Breadbin.Build.Output
import Breadbin.Command.Catalogue
import Breadbin.Diagnostic.Document
import Breadbin.Machine.Cpu

/-!
# What commands have in common

A command runs in some directory, finds the manifest above it, and is traced if its flags ask for
it.
-/

/-! ## What goes wrong with commands -/

namespace Breadbin.Command

/-- Why a command failed. -/
inductive CommandError where
  | colour (given : String)
  | traceLevel (given : String)
  | traceStorage (given : String)
  | traceFormat (given : String)
  | traceFile (e : FileError)
  | view (given : String)
  | outputFormat (given : String)
  | diagnosticsFormat (given : String)
  | versionFormat (given : String)
  /-- a place where a manifest could be cannot be looked at -/
  | manifestPlace (path : String) (e : FileError)
  | manifest (path : String) (e : ManifestError)
  | noInput
  | noPrograms (manifest directory : String)
  | cache (e : FileError)
  /-- nothing says where images are to be kept -/
  | noHome
  | buildFailed (failures total : Nat)
  | outputFailed (e : Build.OutputError)
  | build (e : Build.BuildError)
  | hasErrors (path : String)
  | file (e : FileError)
  | storage (path : String) (e : StorageError)
  | emptyDisk (path : String)
  | member (path : String) (name : Bytes) (e : StorageError)
  | notLoaded (e : Machine.Fault)
  /-- a run was ended by its limit -/
  | endless (name : Bytes) (e : Machine.Fault)
  | stopped (name : Bytes) (e : Machine.Fault)
  | notADirectory (path : String)
  | noDirectory (path : String) (e : FileError)
  | alreadyInitialised (manifest : String)
  | manifestNotWritten (e : FileError)
  | helloNotWritten (e : FileError)

/-- The complaint about the value of a flag. -/
def invalidFlag (flag given expected : String) : String :=
  "invalid --" ++ flag ++ " value " ++ Text.quotedText given ++ " (expected " ++ expected ++ ")"

/-- What is told about it. -/
def CommandError.message : CommandError → String
  | colour given => invalidFlag "color" given "auto|on|off"
  | traceLevel given => Trace.Level.complaint given
  | traceStorage given => Trace.Storage.complaint given
  | traceFormat given => Trace.Format.complaint given
  | traceFile e => "failed to create tracer: open trace output: " ++ e.message
  | view given => Build.View.complaint given
  | outputFormat given => invalidFlag "format" given "prg|d64"
  | diagnosticsFormat given => invalidFlag "diagnostics" given "pretty|json"
  | versionFormat given =>
    "unsupported format " ++ Text.quotedText given ++ " (must be pretty or json)"
  | manifestPlace path e => "failed to stat " ++ Text.quotedText path ++ ": " ++ e.message
  | manifest path e => path ++ ": " ++ e.message
  | noInput =>
    "no input files and no " ++ Manifest.fileName ++ " found\n" ++
      "please name the programs to build, e.g.:\n  halfbyte build hello.hbir"
  | noPrograms path directory => path ++ ": no .hbir files in " ++ directory
  | cache e => "image cache: " ++ e.message
  | noHome => "$HOME is not defined"
  | buildFailed failures total => s!"build failed: {failures} of {total} programs did not compile"
  | outputFailed e => "build failed: " ++ e.message
  | build e => e.message
  | hasErrors path => path ++ ": " ++ Build.BuildError.hasErrors.message
  | file e => e.message
  | storage path e => path ++ ": " ++ e.message
  | emptyDisk path => path ++ ": disk is empty"
  | member path name e => path ++ ": " ++ Text.quoted name ++ ": " ++ e.message
  | notLoaded e => e.message
  | endless name e => Text.shown name ++ " did not return: " ++ e.message
  | stopped name e => Text.shown name ++ ": " ++ e.message
  | notADirectory path => Text.quotedText path ++ " is not a directory"
  | noDirectory path e => "failed to create directory " ++ Text.quotedText path ++ ": " ++ e.message
  | alreadyInitialised path => "project already initialized: " ++ path ++ " exists"
  | manifestNotWritten e => "failed to write manifest: " ++ e.message
  | helloNotWritten e => "failed to write hello.hbir: " ++ e.message

end Breadbin.Command

/-! ## Where commands run -/

namespace Breadbin.Command

/-- Where a command runs. -/
structure Surroundings where
  /-- the working directory, as an absolute path -/
  here : String
  /-- where images are kept, if there is a place for them -/
  cacheDirectory : Option String := none
  /-- texts can be coloured, unless something else is asked for -/
  colour : Bool := false
  deriving Inhabited

/-- A command as it is given. -/
structure Call where
  surroundings : Surroundings
  flags : List Flag
  arguments : Arguments
  colour : Bool := false

namespace Call

/-- The value of a flag. -/
def flag (c : Call) (name : String) : String := c.arguments.value c.flags name

/-- Whether a switch is on. -/
def isOn (c : Call) (name : String) : Bool := c.arguments.isOn name

/-- Whether little is told. -/
def quiet (c : Call) : Bool := c.isOn "quiet"

/-- The first argument that is no flag. -/
def operand (c : Call) : String := c.arguments.others.getD 0 ""

end Call

/-- Work that may fail. -/
abbrev Job := ExceptT CommandError Work

namespace Job

/-- Asks something of the world. -/
def ask (r : Request) : Job r.Reply := ExceptT.lift (Work.ask r)

/-- Asks something of the world that may fail. -/
def attempt {ε α : Type} (cause : ε → CommandError) (x : Work (Except ε α)) : Job α := do
  match ← ExceptT.lift x with
  | .error e => throw (cause e)
  | .ok a => return a

end Job

/-- Whether texts are coloured. -/
def colourOf (given : String) (usual : Bool) : Except CommandError Bool :=
  let word := Text.lower (Text.trim given)
  if word = "" ∨ word = "auto" then .ok usual
  else if word = "on" then .ok true
  else if word = "off" then .ok false
  else .error (.colour given)

/-- What the flags ask to be traced. -/
structure TraceRequest where
  level : Trace.Level
  storage : Trace.Storage
  format : Trace.Format
  /-- a file, or the complaints if there is no name or a dash -/
  path : String
  ringSize : Int
  deriving Inhabited

namespace TraceRequest

/-- Whether events are written down at all, and not only kept back. -/
def streams (r : TraceRequest) : Bool := r.storage ≠ .ring

/-- Whether events are written among the complaints. -/
def toComplaints (r : TraceRequest) : Bool := r.path = "" || r.path = "-"

/-- Reads the flags for tracing; nothing if nothing is traced. -/
def ofCall? (c : Call) : Except CommandError (Option TraceRequest) := do
  let path := c.flag "trace"
  let given (name : String) := c.flag name
  let level ← (Trace.Level.parse? (given "trace-level")).elim
    (.error (.traceLevel (given "trace-level"))) .ok
  if level = .off && path.isEmpty then return none
  let level := if level = .off then .phase else level
  let storage ← (Trace.Storage.parse? (given "trace-mode")).elim
    (.error (.traceStorage (given "trace-mode"))) .ok
  let format ← (Trace.Format.parse? (given "trace-format")).elim
    (.error (.traceFormat (given "trace-format"))) .ok
  return some
    { level
      storage := if level = .error then .ring else storage
      format := format.forPath path
      path
      ringSize := c.arguments.int c.flags "trace-ring-size" }

/-- The tracer that is asked for. -/
def tracer (r : TraceRequest) (now : Int) : Trace.Tracer :=
  { level := r.level
    sink := if r.streams then some (.ofFormat r.format now) else none
    ring := if r.storage = .stream then none else some (.ofCapacity r.ringSize r.level)
    now }

/-- Starts tracing. -/
def start (r : TraceRequest) : Job Unit := do
  if r.streams && !r.toComplaints then
    Job.attempt .traceFile (Work.ask (.write r.path []))
  let now ← Job.ask .now
  modify ({ · with tracer := r.tracer now, showsTrace := r.toComplaints })
  ExceptT.lift Work.showTrace

/-- Ends tracing.  After a failure, the events that were kept back are shown. -/
def stop (r : TraceRequest) (failed : Bool) : Work Unit := do
  let t := (← get).tracer
  match t.ring with
  | some ring =>
    if failed then
      Work.ask (.complain ("trace: last events before the failure:\n" ++ ring.dump .text))
  | none => pure ()
  match t.sink with
  | some sink =>
    if r.toComplaints then Work.ask (.complain sink.close)
    else discard (Work.ask (.write r.path (Text.bytesOf sink.close)))
  | none => pure ()

end TraceRequest

/-- The directories above a directory, itself first. -/
def upwards (directory : String) : List String :=
  let names := (Text.Path.splitOn '/' directory).filter (!·.isEmpty)
  ((List.range (names.length + 1)).map fun i => "/" ++ "/".intercalate (names.take i)).reverse

/-- Looks for a manifest in the given directories, in turn. -/
def findManifest : List String → Job (Option String)
  | [] => return none
  | directory :: rest => do
    let path := Text.Path.join [directory, Manifest.fileName]
    match ← Job.ask (.look path) with
    | .ok _ => return some path
    | .error e =>
      if e.cause = .missing then findManifest rest else throw (.manifestPlace path e)

/-- The settings of the project around the working directory, and its manifest if there is one. -/
def settings (s : Surroundings) : Job (Settings × Option String) := do
  match ← findManifest (upwards s.here) with
  | none => return ({}, none)
  | some path =>
    let fail (e : ManifestError) : CommandError := .manifest path e
    match ← Job.ask (.read path) with
    | .error e => throw (fail (.unreadable (.malformed e.message)))
    | .ok contents =>
      match Manifest.settingsOf contents (Text.Path.directory path) with
      | .error e => throw (fail e)
      | .ok settings => return (settings, some path)

/-- How diagnostics are shown. -/
inductive Report where
  | pretty (colour : Bool)
  | document
  deriving DecidableEq, Repr

/-- The text for diagnostics; nothing if there are none. -/
def Report.text (r : Report) (bag : Bag) (files : FileSet) : String :=
  if bag.size = 0 then ""
  else
    match r with
    | document =>
      Diagnostic.document bag.items.toList (some files) { positions := true, notes := true }
    | pretty colour =>
      Diagnostic.pretty bag.items.toList (some files) { colour, context := 1, notes := true } ++
        (if bag.dropped = 0 then ""
          else s!"... {bag.dropped} more diagnostics not shown (see --max-diagnostics)\n") ++ "\n"

/-- Shows the diagnostics of an outcome. -/
def Report.outcome (r : Report) (quiet : Bool) (o : Build.Outcome) : String :=
  let bag := o.diagnostics
  if quiet && !bag.hasErrors then "" else r.text bag.sort o.fileSet

end Breadbin.Command
