import Breadbin.Cache.Entry
import Breadbin.Compile
import Breadbin.Program.Decoding
import Breadbin.Script.Work
import Breadbin.Script.World

/-!
# Building programs

A program is read from its file and compiled, unless the cache keeps its image.
-/

namespace Breadbin.Build

/-- Why a program has no image. -/
inductive BuildError where
  | unreadable (e : FileError)
  | malformed (path : Bytes) (e : Program.DecodeError)
  /-- what should be a file is something else -/
  | notAFile (path : Bytes) (e : FileError)
  /-- the compiler cannot go on -/
  | fault (e : LoweringError)
  /-- the diagnostics tell why -/
  | hasErrors
  deriving Inhabited

/-- What is told about it. -/
def BuildError.message : BuildError → String
  | unreadable e => e.message
  | malformed path e => Text.shown path ++ ": " ++ e.message
  | notAFile path e => Text.shown path ++ ": " ++ Program.badFile ++ ": " ++ e.message
  | fault e => e.message
  | hasErrors => "program has errors"

/-- What came of building one file. -/
structure Outcome where
  path : Bytes
  program : Option Program := none
  result : Option Compilation := none
  /-- the image was kept from an earlier build -/
  cached : Bool := false
  error : Option BuildError := none
  deriving Inhabited

namespace Outcome

/-- The name of the output: that of the program, or that of the file. -/
def name (o : Outcome) : Bytes :=
  match o.program with
  | some p => if p.name.isEmpty then Text.Path.stemOf o.path else p.name
  | none => Text.Path.stemOf o.path

/-- The image, if there is one. -/
def image? (o : Outcome) : Option Image :=
  match o.error with
  | some _ => none
  | none => o.result.bind (·.image)

/-- There is no image. -/
def failed (o : Outcome) : Bool := o.image?.isNone

/-- The sources that the program carries. -/
def fileSet (o : Outcome) : FileSet := (o.program.map (·.fileSet)).getD {}

/-- The code of a failure that came with no diagnostics. -/
def failureCode (o : Outcome) : BuildError → Code
  | .malformed .. | .notAFile .. => .decodeFailure
  | _ => if o.program.isSome then .internal else .loadFailure

/-- What there is to report. -/
def diagnostics (o : Outcome) : Bag :=
  match o.result with
  | some r => r.diagnostics
  | none =>
    match o.error with
    | none => .ofLimit 1
    | some e => (Bag.ofLimit 1).add (.error (o.failureCode e) .none e.message)

end Outcome

/-- How programs are built. -/
structure Options where
  target : Target := .c64
  mostDiagnostics : Int := 0
  /-- whether images are kept and looked up -/
  cache : Bool := false
  deriving Inhabited

/-- Reads a program. -/
def load (path : Bytes) : Work (Except BuildError Program) := do
  match ← Work.ask (.read path) with
  | .error e => return .error (if e.operation = "read" then .notAFile path e else .unreadable e)
  | .ok contents =>
    match Program.decode contents with
    | .error e => return .error (.malformed path e)
    | .ok p => return .ok p

/-- What the cache keeps of a program, if it may be asked. -/
def lookUp (p : Program) (o : Options) : Work (Option Cache.Payload) :=
  if o.cache then Work.ask (.fetch (Cache.key p o.target)) else return none

/-- Compiles a program, and keeps its image. -/
def compileAndKeep (p : Program) (o : Options) (parent : Nat) : Work Compilation := do
  let c ← Work.record fun t =>
    let c := compile p { target := o.target, mostDiagnostics := o.mostDiagnostics } t parent
    (c, c.tracer)
  match c.fault, c.image with
  | none, some image =>
    if o.cache then Work.ask (.keep (Cache.key p o.target) (.of p.name image c.diagnostics))
  | _, _ => pure ()
  return c

/-- The image of a program, from the cache if it is there; tells whether it was. -/
def imageOf (p : Program) (o : Options) (parent : Nat) : Work (Compilation × Bool) := do
  match ← lookUp p o with
  | some kept =>
    return ({ image := some kept.image, diagnostics := kept.diagnostics o.mostDiagnostics }, true)
  | none => return (← compileAndKeep p o parent, false)

/-- Tells that a stage failed. -/
def giveUp (o : Outcome) (stage : Stage) (e : BuildError) : Work Outcome := do
  Work.tell { file := Text.shown o.path, stage, status := .failed, error := some e.message }
  return { o with error := some e }

/-- Builds the program of one file. -/
def buildFile (o : Options) (parent : Nat) (path : Bytes) : Work Outcome := do
  let outcome : Outcome := { path }
  Work.tell { file := Text.shown path, stage := .load, status := .working }
  let step ← Work.startStep ("load " ++ Text.shown (Text.Path.baseOf path))
  let loaded ← load path
  Work.finishStep step (Timing.failureNote !loaded.isOk)
  match loaded with
  | .error e => giveUp outcome .load e
  | .ok program =>
    let outcome := { outcome with program := some program }
    Work.tell { file := Text.shown path, stage := .compile, status := .working }
    let step ← Work.startStep ("compile " ++ Text.shown outcome.name)
    let (result, cached) ← imageOf program o parent
    Work.finishStep step (if cached then "cached" else "")
    let outcome := { outcome with result := some result, cached }
    match result.fault, result.image with
    | some e, _ => giveUp outcome .compile (.fault e)
    | none, none => giveUp outcome .compile .hasErrors
    | none, some _ =>
      Work.tell { file := Text.shown path, stage := .compile, status :=
        if cached then .cached else .done }
      return outcome

/-- Builds the programs of the files at several paths. -/
def buildPaths (o : Options) (paths : List Bytes) : Work (List Outcome) := do
  let span ← Work.openSpan .command "build" 0
  paths.forM fun path => Work.tell { file := Text.shown path, stage := .load, status := .queued }
  let outcomes ← paths.mapM (buildFile o span.id)
  let failures := (outcomes.filter (·.failed)).length
  Work.closeSpan (span.withExtra "files" (toString paths.length)) s!"{failures} failed"
  return outcomes

/-- Builds the programs of several files whose paths are given as texts. -/
def buildFiles (o : Options) (paths : List String) : Work (List Outcome) :=
  buildPaths o (paths.map Text.bytesOf)

end Breadbin.Build

/-!
## Builds in turns

Several files may be built at the same time.  A crew has a limited number of workers; each carries
out the script of one file, and in between any other worker may have a turn.  One request is
answered at a time.
-/

namespace Breadbin.Build

/-- Where one file of a build is. -/
inductive Desk where
  /-- a worker carries out what is left of the script -/
  | working (script : Script (Outcome × Session))
  | finished (outcome : Outcome)

/-- Whether a worker sits at the desk. -/
def Desk.isWorking : Desk → Bool
  | working _ => true
  | finished _ => false

/-- A build that is under way.  The desks are those of the files that were begun, in their order. -/
structure Crew where
  world : World
  desks : List Desk
  /-- the files that are not begun -/
  waiting : List Bytes

namespace Crew

/-- How many workers a crew has for some files: as many as asked for, or as there are processors if
no number is asked for, but not more than files. -/
def size (jobs : Int) (processors files : Nat) : Nat :=
  max 1 (min (if jobs ≤ 0 then processors else jobs.toNat) files)

/-- How many workers are busy. -/
def busy (c : Crew) : Nat := c.desks.countP Desk.isWorking

/-- Nothing is begun yet. -/
def start (world : World) (paths : List Bytes) : Crew := ⟨world, [], paths⟩

/-- What the crew does next: a free worker begins the next file, one of the workers has a request
answered, whenever that is, or one of them is done. -/
inductive Step (o : Options) (parent workers : Nat) : Crew → Crew → Prop
  | begin {w : World} {desks : List Desk} {path : Bytes} {waiting : List Bytes} (s : Session)
      (free : busy ⟨w, desks, path :: waiting⟩ < workers) :
      Step o parent workers ⟨w, desks, path :: waiting⟩
        ⟨w, desks ++ [.working ((buildFile o parent path).run s)], waiting⟩
  | turn {w : World} {before after : List Desk} {waiting : List Bytes} {r : Request}
      {next : r.Reply → Script (Outcome × Session)} (time : Int) :
      Step o parent workers ⟨w, before ++ .working (.ask r next) :: after, waiting⟩
        ⟨(World.answer r { w with time }).2,
          before ++ .working (next (World.answer r { w with time }).1) :: after, waiting⟩
  | finish {w : World} {before after : List Desk} {waiting : List Bytes} {outcome : Outcome}
      {s : Session} :
      Step o parent workers ⟨w, before ++ .working (.done (outcome, s)) :: after, waiting⟩
        ⟨w, before ++ .finished outcome :: after, waiting⟩

end Crew

end Breadbin.Build
