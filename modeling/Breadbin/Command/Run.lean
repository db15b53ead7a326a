import Breadbin.Command.Session
import Breadbin.Machine.Execute
import Breadbin.Program.Printer

/-!
# Running a program

The command that runs a compiled program, and where the program comes from.
-/

namespace Breadbin.Command

/-!
## Programs that are ready to run

A program to run comes from a program file, from a disk, or straight from the compiler.
-/

/-- A program with the address it starts at. -/
structure Executable where
  name : Bytes
  prg : Prg
  entry : UInt16
  /-- the number of bytes before the program itself -/
  stub : Nat := 0
  symbols : SymbolTable := fun _ => none
  dataStart : UInt16 := 0

namespace Executable

/-- A program file starts behind the line that calls it, if it begins with that line, and at its
load address if not. -/
def ofPrg (name : Bytes) (p : Prg) : Executable :=
  let (line, entry) := { Target.c64 with loadAddress := p.load }.stub
  if line.isPrefixOf p.data then { name, prg := p, entry, stub := line.length }
  else { name, prg := p, entry := p.load }

/-- A compiled program knows its labels and where its constants start. -/
def ofImage (name : Bytes) (i : Image) : Executable :=
  { name
    prg := .ofImage i
    entry := i.entry
    stub := (i.entry - i.origin).toNat
    symbols := i.symbolTable
    dataStart := (i.lookup? "const_0").getD 0 }

/-- Compiles the program of a file.  Its diagnostics are shown if there is no image. -/
def compiled (c : Call) (path : String) (target : Target) : Job Executable := do
  let program ← Job.attempt .build (Build.load path)
  let (result, _) ← ExceptT.lift (Build.imageOf program { target } 0)
  match result.fault, result.image with
  | some e, _ => throw (.build (.fault e))
  | none, none =>
    let outcome : Build.Outcome :=
      { path, program := some program, result := some result, error := some .hasErrors }
    Job.ask (.complain ((Report.pretty c.colour).outcome false outcome))
    throw (.hasErrors path)
  | none, some image => return ofImage program.name image

/-- Ends the job if a disk or a program file is at fault. -/
def stored {α : Type} (cause : StorageError → CommandError) : Except StorageError α → Job α
  | .error e => throw (cause e)
  | .ok a => return a

/-- The program of a name on a disk, or its first one if no name is given. -/
def fromDisk (path member : String) : Job Executable := do
  let image ← Job.attempt .file (Work.ask (.read path))
  let disk ← stored (.storage path) (Disk.parse image)
  let name ←
    if member.isEmpty then
      match ← stored (.storage path) disk.files with
      | [] => throw (.emptyDisk path)
      | first :: _ => pure first.name
    else pure member
  let prg ← stored (.member path (Text.bytesOf name)) (disk.readPrg (Text.bytesOf name))
  return ofPrg (Text.bytesOf name) prg

/-- The program that a path and perhaps a name on a disk lead to. -/
def ofCall (c : Call) (target : Target) : Job Executable := do
  let path := c.operand
  match Text.lower (Text.Path.extension path) with
  | ".hbir" => compiled c path target
  | ".d64" => fromDisk path (c.flag "file")
  | _ =>
    let file ← Job.attempt .file (Work.ask (.read path))
    let prg ← stored (.storage path) (Prg.parse file)
    return ofPrg (Text.bytesOf (Text.Path.stem path)) prg

end Executable

/-! ## Running and disassembling from the command line -/

/-- What a program wrote, as text that ends its last line. -/
def outputText (output : Bytes) : String :=
  let text := Text.Petscii.decode output
  if text.isEmpty || text.endsWith "\n" then text else text ++ "\n"

/-- Runs a program and shows what it wrote. -/
def run (c : Call) : Job Unit := do
  let (s, _) ← settings c.surroundings
  let step ← ExceptT.lift (Work.startStep "load")
  let p ← Executable.ofCall c s.target
  ExceptT.lift (Work.finishStep step "")
  let cpu ← match ({} : Machine.Cpu).load p.prg.load p.prg.data with
    | (_, some fault) => throw (.notLoaded fault)
    | (cpu, none) => pure cpu
  let span ← ExceptT.lift (Work.openSpan .command "run" 0)
  let step ← ExceptT.lift (Work.startStep "run")
  let limit := (Text.Radix.natural (c.flag "steps")).toOption.getD 0
  let (cpu, fault) := cpu.call p.entry limit
  let note := s!"{cpu.steps} steps"
  ExceptT.lift (Work.finishStep step note)
  ExceptT.lift (Work.closeSpan (span.withExtra "program" (Text.shown p.name)) note)
  let output := cpu.output.toList
  Job.ask (.print (if c.isOn "raw" then output else Text.bytesOf (outputText output)))
  Job.ask (.complain (← ExceptT.lift Work.timingSummary))
  match fault with
  | none => return
  | some (.stepLimit n pc) => throw (.endless p.name (.stepLimit n pc))
  | some fault => throw (.stopped p.name fault)

/-- Four digits of an address; one below zero keeps its sign. -/
def addressText (n : Int) : String :=
  if n < 0 then "-" ++ Text.hexUpper 3 n.natAbs else Text.hexUpper 4 n.toNat

/-- The lines of a program's code, after what there is to say about it. -/
def listing (p : Executable) (withStub : Bool) : String :=
  let hidden := 0 < p.stub && !withStub
  let load := addressText p.prg.load.toNat
  let start := if hidden then p.stub else 0
  let code := p.prg.data.drop start
  let origin := if hidden then p.entry else p.prg.load
  let lines := disassemble code origin p.symbols p.dataStart
  (if hidden then s!"; ${load}  BASIC stub, {p.stub} bytes: SYS {p.entry.toNat}\n" else "") ++
    "; " ++ Text.shown p.name ++ ": $" ++ load ++ "-$" ++ addressText ((p.prg.stop : Int) - 1) ++
    ", entry $" ++ addressText p.entry.toNat ++ "\n" ++
    String.join (lines.map fun l => l.print ++ "\n")

/-- Shows the code of a program. -/
def showCode (c : Call) : Job Unit := do
  let (s, _) ← settings c.surroundings
  let p ← Executable.ofCall c s.target
  Job.ask (.print (Text.bytesOf (listing p (c.isOn "stub"))))

/-- Shows a program as it is held in its file. -/
def inspect (c : Call) : Job Unit := do
  let program ← Job.attempt .build (Build.load c.operand)
  Job.ask (.print (Text.bytesOf program.listing))

end Breadbin.Command
