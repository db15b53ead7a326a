import Breadbin.Assembly.Stream
import Breadbin.Assembly.Link
import Breadbin.Assembly.Operand
import Breadbin.Build.Outcome
import Breadbin.Build.Output
import Breadbin.Build.Progress
import Breadbin.Cache.Entry
import Breadbin.Command.Build
import Breadbin.Command.Catalogue
import Breadbin.Command.Session
import Breadbin.Command.Run
import Breadbin.Command.Flag
import Breadbin.Command.Interpreter
import Breadbin.Compile
import Breadbin.Diagnostic.Bag
import Breadbin.Diagnostic.Basic
import Breadbin.Diagnostic.Document
import Breadbin.Diagnostic.Short
import Breadbin.Disk.Basic
import Breadbin.Disk.Directory
import Breadbin.Disk.Files
import Breadbin.Disk.FreeTable
import Breadbin.Files.Tree
import Breadbin.Instruction.Disassembly
import Breadbin.Instruction.Opcode
import Breadbin.Lowering.Call
import Breadbin.Lowering.Constant
import Breadbin.Lowering.Convert
import Breadbin.Lowering.Value
import Breadbin.Lowering.Emission
import Breadbin.Lowering.Operation
import Breadbin.Lowering.Recursion
import Breadbin.Lowering.Startup
import Breadbin.Lowering.Statement
import Breadbin.Machine.Cpu
import Breadbin.Machine.Execute
import Breadbin.Machine.Memory
import Breadbin.Main
import Breadbin.Manifest.Basic
import Breadbin.Manifest.Settings
import Breadbin.Numeric.Double
import Breadbin.Numeric.Fixed
import Breadbin.Numeric.Half
import Breadbin.Numeric.Shortest
import Breadbin.Pack.Reader
import Breadbin.Pack.Writer
import Breadbin.Placement.Allocator
import Breadbin.Placement.Target
import Breadbin.Program.Basic
import Breadbin.Program.Build
import Breadbin.Program.Builtin
import Breadbin.Program.Decoding
import Breadbin.Program.Encoding
import Breadbin.Program.Expr
import Breadbin.Program.Printer
import Breadbin.Release
import Breadbin.Routine.Basic
import Breadbin.Routine.Chance
import Breadbin.Routine.FixedPoint
import Breadbin.Routine.FloatingPoint
import Breadbin.Routine.Integer
import Breadbin.Routine.Library
import Breadbin.Routine.Strings
import Breadbin.Routine.Writer
import Breadbin.Script.World
import Breadbin.Script.Work
import Breadbin.Source.FileSet
import Breadbin.Text.Bytes
import Breadbin.Text.Case
import Breadbin.Text.Digits
import Breadbin.Text.Folding
import Breadbin.Text.Json
import Breadbin.Text.Path
import Breadbin.Text.Petscii
import Breadbin.Text.Quoted
import Breadbin.Text.Sha256
import Breadbin.Text.Style
import Breadbin.Timing
import Breadbin.Toml.Document
import Breadbin.Toml.Scalar
import Breadbin.Toml.Statement
import Breadbin.Trace.Event
import Breadbin.Trace.Level
import Breadbin.Trace.Tracer
import Breadbin.Ty.Basic
import Breadbin.Ty.Resolution
import Breadbin.Ty.Conversion
import Breadbin.Ty.Operator
import Breadbin.Proofs.Assembly.Linking
import Breadbin.Proofs.Assembly.Growth
import Breadbin.Proofs.Build.Writing
import Breadbin.Proofs.Cache.Key
import Breadbin.Proofs.Instruction.Disassembly
import Breadbin.Proofs.Machine.Byte
import Breadbin.Proofs.Machine.Code
import Breadbin.Proofs.Machine.Frame
import Breadbin.Proofs.Machine.Word
import Breadbin.Proofs.Machine.Conduct
import Breadbin.Proofs.Machine.Contents
import Breadbin.Proofs.Program.Truncation
import Breadbin.Proofs.Routine.Division
import Breadbin.Proofs.Routine.Multiplication
import Breadbin.Proofs.Routine.SignedDivision
import Breadbin.Proofs.Compilation.Diagnostics
import Breadbin.Proofs.Compilation.Regions
import Breadbin.Proofs.Assembly.Progress
import Breadbin.Proofs.Assembly.Trampolines
import Breadbin.Proofs.Assembly.Tail
import Breadbin.Proofs.Build.Parallel
import Breadbin.Proofs.Program.WellFormed
import Breadbin.Proofs.Ty.Resolution
import Breadbin.Proofs.Lowering.Functions
import Breadbin.Proofs.Disk.Runs
import Breadbin.Proofs.Disk.Atomicity
import Breadbin.Proofs.Disk.Reading
import Breadbin.Proofs.Program.RoundTrip
import Breadbin.Proofs.Machine.Branching
import Breadbin.Proofs.Compilation.Faults
import Breadbin.Proofs.Lowering.Constants
import Breadbin.Proofs.Routine.Library
import Breadbin.Proofs.Lowering.Blindness
import Breadbin.Proofs.Compilation.Caching
import Breadbin.Proofs.Machine.Leeway
import Breadbin.Proofs.Routine.Conducts
import Breadbin.Proofs.Routine.Flow
import Breadbin.Proofs.Lowering.Folding
import Breadbin.Proofs.Lowering.Conditions
import Breadbin.Proofs.Lowering.Elements
import Breadbin.Proofs.Routine.Arithmetic
import Breadbin.Proofs.Routine.Conversions
import Breadbin.Proofs.Routine.Addition
import Breadbin.Proofs.Routine.Calculations
import Breadbin.Proofs.Routine.Quotient
import Breadbin.Proofs.Routine.Linked
import Breadbin.Proofs.Routine.Parsing
import Breadbin.Proofs.Routine.Texts
import Breadbin.Proofs.Routine.Chance
import Breadbin.Proofs.Routine.Frames
import Breadbin.Proofs.Lowering.Draws
import Breadbin.Proofs.Placement.Requests
import Breadbin.Proofs.Lowering.Cycles
import Breadbin.Proofs.Lowering.Counting
import Breadbin.Proofs.Lowering.Running
import Breadbin.Proofs.Lowering.Interning
import Breadbin.Proofs.Compilation.Parts
import Breadbin.Proofs.Compilation.Blocks
import Breadbin.Proofs.Compilation.Entry
import Breadbin.Proofs.Trace.Ring
import Breadbin.Proofs.Source.Positions
import Breadbin.Proofs.Machine.Clearing
import Breadbin.Proofs.Lowering.Clearing
import Breadbin.Proofs.Routine.Inspection
