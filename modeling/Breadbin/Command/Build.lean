import Breadbin.Command.Session
import Breadbin.Program.Build

/-!
# Building from the command line
-/

namespace Breadbin.Command

/-- The settings with what the flags say laid over them. -/
def Call.overlay (c : Call) (s : Settings) : Except CommandError Settings := do
  let a := c.arguments
  if let some format := a.given? "format" then
    if format ≠ "prg" ∧ format ≠ "d64" then .error (.outputFormat format)
  let o := s.output
  return { s with
    output :=
      { format := (a.given? "format").getD o.format
        directory := (a.given? "out-dir").getD o.directory
        diskName := (a.given? "disk-name").getD o.diskName
        diskId := (a.given? "disk-id").getD o.diskId }
    cache := if (a.given? "cache").isSome then a.isOn "cache" else s.cache
    mostDiagnostics :=
      if (a.given? "max-diagnostics").isSome then a.int c.flags "max-diagnostics"
      else s.mostDiagnostics }

/-- The programs to build: those that are named, or all next to the manifest. -/
def inputFiles (named : List String) (manifest : Option String) : Job (List Bytes) := do
  match named, manifest with
  | _ :: _, _ => return named.map Text.bytesOf
  | [], none => throw .noInput
  | [], some path =>
    let directory := Text.Path.directory path
    let names := (← Job.ask (.list directory)).filter (Text.bytesOf ".hbir").isSuffixOf
    if names.isEmpty then throw (.noPrograms path directory)
    return (names.map fun n => Text.Path.joined [Text.bytesOf directory, n]).mergeSort

/-- How diagnostics are to be shown. -/
def Call.report (c : Call) : Except CommandError Report :=
  match c.flag "diagnostics" with
  | "pretty" => .ok (.pretty c.colour)
  | "json" => .ok .document
  | other => .error (.diagnosticsFormat other)

/-- How progress is to be shown where there is no terminal. -/
def Call.view (c : Call) : Except CommandError Build.View :=
  match Build.View.parse? (c.flag "ui") with
  | none => .error (.view (c.flag "ui"))
  | some .lines => .ok (if c.quiet then .off else .lines)
  | some _ => .ok .off

/-- The text for output that is missing. -/
def Report.outputError (r : Report) (e : Build.OutputError) : String :=
  r.text ((Bag.ofLimit 1).add (.error .writeFailure .none e.message)) {}

/-- Builds programs and writes their images. -/
def build (c : Call) : Job Unit := do
  let (project, manifest) ← settings c.surroundings
  let s ← liftExcept (c.overlay project)
  let files ← inputFiles c.arguments.others.toList manifest
  if s.cache then
    match c.surroundings.cacheDirectory with
    | none => throw .noHome
    | some directory => Job.attempt .cache (Work.ask (.makeDirectories directory))
  let report ← liftExcept c.report
  let view ← liftExcept c.view
  modify ({ · with view })
  let outcomes ← ExceptT.lift <| Build.buildPaths
    { target := s.target, mostDiagnostics := s.mostDiagnostics, cache := s.cache } files
  let step ← ExceptT.lift (Work.startStep "write")
  let written ← ExceptT.lift (Build.writeOutcomes s.output outcomes)
  ExceptT.lift (Work.finishStep step s.output.format)
  Job.ask (.complain (String.join (outcomes.map (report.outcome c.quiet))))
  if let some e := written.error then Job.ask (.complain (report.outputError e))
  if !c.quiet then
    Job.ask (.print (Text.bytesOf (String.join (written.paths.map fun p => "wrote " ++ p ++ "\n"))))
  Job.ask (.complain (← ExceptT.lift Work.timingSummary))
  let failures := (outcomes.filter (·.failed)).length
  if 0 < failures then throw (.buildFailed failures outcomes.length)
  if let some e := written.error then throw (.outputFailed e)
where
  /-- Ends the job with an error, if there is one. -/
  liftExcept {α : Type} : Except CommandError α → Job α
    | .error e => throw e
    | .ok a => return a

end Breadbin.Command

/-!
## New projects

A new project has a manifest and a program that says hello.
-/

namespace Breadbin.Command

/-- A program that prints a greeting and counts to three. -/
def helloProgram : Program :=
  let p : Program := { name := Text.bytesOf "hello" }
  let p := p.addFunction Program.mainName (.scalar .void) [] [(Text.bytesOf "i", .scalar .u8)] {}
  let println (e : Expr) : Stmt := .newEvaluate (.ofBuiltin .println [e])
  let number (n : Int64) : Expr := .ofInt (.scalar .u8) n
  let body : List Stmt :=
    [println (.ofText (Text.bytesOf "HELLO FROM HALFBYTE")),
      .newCount 1 (number 1) (number 3) false [println (.ofSymbol p 1)]]
  { p with functions :=
      { p.functions with items := p.functions.items.map fun f => { f with body := .ofList body } } }

/-- The name of a project in a directory. -/
def projectName (directory : String) : String :=
  let name := Text.trim (Text.Path.base directory)
  if name = "" ∨ name = "." ∨ name = "/" then "halfbyte-project" else name

/-- Makes sure that there is a directory for the project. -/
def projectDirectory (path : String) : Job Unit := do
  match ← Job.ask (.look path) with
  | .ok true => return
  | .ok false => throw (.notADirectory path)
  | .error e =>
    if e.cause ≠ .missing then throw (.file e)
    Job.attempt (.noDirectory path) (Work.ask (.makeDirectories path))

/-- Writes the program that says hello, unless there is one; tells whether it did. -/
def writeHello (path : String) : Job Bool := do
  match ← Job.ask (.look path) with
  | .error e =>
    if e.cause ≠ .missing then return false
    Job.attempt .helloNotWritten (Work.ask (.write path (Program.encode (some helloProgram))))
    return true
  | .ok _ => return false

/-- Starts a project in a directory. -/
def init (c : Call) : Job Unit := do
  let here := c.surroundings.here
  let given := c.operand
  let directory :=
    if c.arguments.others.isEmpty || given = "." then here
    else if Text.Path.isAbsolute given then given
    else Text.Path.join [here, given]
  projectDirectory directory
  let manifest := Text.Path.join [directory, Manifest.fileName]
  if (← Job.ask (.look manifest)).isOk then throw (.alreadyInitialised manifest)
  let contents := Text.bytesOf (Manifest.template (projectName directory))
  Job.attempt .manifestNotWritten (Work.ask (.write manifest contents))
  let created ← writeHello (Text.Path.join [directory, "hello.hbir"])
  Job.ask <| .print <| Text.bytesOf <|
    "Initialized halfbyte project in " ++ Text.Path.relative here directory ++ "\n  - " ++
      Manifest.fileName ++ "\n  - hello.hbir" ++ (if created then "" else " (existing)") ++ "\n"

end Breadbin.Command
