import Breadbin.Assembly.Link
import Breadbin.Lowering.Recursion
import Breadbin.Lowering.Statement
import Breadbin.Routine.Library

/-!
# Whole programs

Addresses are handed out first.  The code starts with the initialisation of the global variables and
the call of the entry function; the functions follow, then the routines they ask for, the constants
and the data blocks.
-/

namespace Breadbin.Lowering

open Assembly

/-- Gives a symbol an address. -/
def allocate (id : SymbolId) : Lower Unit := do
  let found := ((← read).symbol? id).map fun s => (s.name, s.type)
  match (← get).allocator.allocateSymbol id found with
  | .ok (allocator, _) => modify fun s => { s with allocator }
  | .error cause => throw (.allocation cause)

/-- Gives a global variable or a constant an address.  A constant with a literal for its value is
known. -/
def allocateGlobal (g : Declaration) : Lower Unit := do
  allocate g.symbol
  let s ← symbol g.symbol
  if s.symbolClass = .constant && g.value.isLiteral && !s.type.isArray then
    modify fun e => { e with constants := (g.symbol, g.value) :: e.constants }

/-- Gives a function a label, and its parameters and local variables addresses. -/
def allocateFrame (f : Function) : Lower Unit := do
  let l ← write (.namedLabel f.name)
  modify fun s => { s with functions := (f.id, l) :: s.functions }
  f.parameters.items.forM allocate
  f.locals.items.forM allocate

/-- Gives everything an address. -/
def allocateStorage : Lower Unit := do
  let p ← read
  p.globals.items.forM allocateGlobal
  modify fun s => { s with globalSize := s.allocator.used }
  p.functions.items.forM allocateFrame

/-- Warns about functions that can reach themselves. -/
def warnRecursion : Lower Unit := do
  (← read).recursiveFunctions.forM fun f =>
    report (.warning .recursiveCall f.span
      ("function " ++ Text.quoted f.name ++ " is recursive; every call shares one static frame"))

/-- Whether a number is a power of two; zero counts as one. -/
def isPowerOfTwo (n : UInt16) : Bool := n &&& (n - 1) = 0

/-- The name of a data block's label. -/
def blockLabel (d : DataBlock) : Bytes := Text.bytesOf "data_" ++ d.name

/-- Gives data blocks labels.  Of blocks with one name the first counts. -/
def declareData : (seen : List Bytes) → List (DataBlock × Nat) → Lower Unit
  | _, [] => return ()
  | seen, (d, i) :: rest => do
    if seen.contains d.name then
      reportError .duplicateData d.span
        ("data block " ++ Text.quoted d.name ++ " is declared twice")
      declareData seen rest
    else
      if 1 < d.align && !isPowerOfTwo d.align then
        reportError .badAlignment d.span
          ("data block " ++ Text.quoted d.name ++
            s!": alignment {d.align.toNat} is not a power of two")
      else
        let l ← write (.namedLabel (blockLabel d))
        modify fun s => { s with data := (UInt32.ofNat (i + 1), l) :: s.data }
      declareData (d.name :: seen) rest

/-- Writes the data blocks that have labels. -/
def emitData : Lower Unit := do
  (← read).data.items.zipIdx.forM fun (d, i) => do
    match (← get).data.lookup (UInt32.ofNat (i + 1)) with
    | none => return ()
    | some l => write (.onStream fun s => ((s.align d.align).bind l).data d.bytes.items)

/-- Sets a global variable to its first value. -/
def initialise (g : Declaration) : Lower Unit := do
  if !g.value.isAbsent then
    let s ← symbol g.symbol
    if s.type.isArray then reportError .typeMismatch g.span (arrayInitialiser s.name)
    else
      lowerExpr g.value s.type
      store (← symbolRef g.symbol) s.type.isWide

/-- Clears the global variables and sets those that have a first value. -/
def initialiseGlobals : Lower Unit := do
  let s ← get
  clearRegion s.workspace.target.variableBase s.globalSize.toNat
  (← read).globals.items.forM initialise

/-- Opens a span inside the one of the program. -/
def openSpan (scope : Trace.Scope) (name : String) : Lower Trace.OpenSpan :=
  modifyGet fun s =>
    let (tracer, span) := s.tracer.openSpan scope name s.span.id
    (span, { s with tracer })

/-- Closes a span. -/
def closeSpan (span : Trace.OpenSpan) (detail : String) : Lower Unit :=
  modify fun s => { s with tracer := s.tracer.closeSpan span detail }

/-- Records a pass with its outcome. -/
def pass (name : String) (body : Lower Unit) : Lower Unit := do
  let span ← openSpan .pass name
  try
    body
    closeSpan span ""
  catch e =>
    closeSpan span e.message
    throw e

/-- Whether a body ends with a statement tagged to leave the function. -/
def endsWithReturn (b : Block) : Bool :=
  b.statements.getLast?.any fun s => s.tag == Stmt.giveBackTag

/-- Lowers the body of a function.  One that may run off its end gets a closing return. -/
def functionBody (f : Function) : Lower Unit := do
  match (← get).functions.lookup f.id with
  | none => throw (.noLabel f.name)
  | some l =>
    modify fun s => { s with current := some f, loops := [] }
    place l
    try lowerBlock f.body catch e => throw (.inFunction f.name e)
    if !endsWithReturn f.body then op .rts

/-- Lowers a function. -/
def lowerFunction (f : Function) : Lower Unit := do
  let span ← openSpan .function ("func:" ++ Text.shown f.name)
  try functionBody f catch e =>
    closeSpan span ""
    throw e
  closeSpan span ""
  modify fun s => { s with current := none }

/-- The name of the first instruction's label. -/
def startLabel : Bytes := Text.bytesOf "start"

/-- Lowers the start of the program and all its functions. -/
def lowerCode (entry : Option Function) : Lower Unit := do
  let p ← read
  initialiseGlobals
  if p.callsBuiltin Builtin.isRandom then callRoutine .randomInit
  match entry with
  | none => pure ()
  | some f => write (.callLabel (((← get).functions.lookup f.id).getD .none))
  op .rts
  p.functions.items.forM lowerFunction

/-- Writes what the code asks for: routines, constants and data blocks. -/
def lowerTail : Lower Unit := do
  write Routine.emitLibrary
  modify fun s =>
    { s with workspace := { s.workspace with stream := s.pool.emit s.workspace.stream } }
  emitData
  match (← get).workspace.stream.error with
  | some cause => throw (.assembly cause)
  | none => return ()

/-- Links the code. -/
def linkImage : Lower Image := do
  let s ← get
  match s.workspace.stream.link s.workspace.target.loadAddress with
  | .error cause => throw (.assembly cause)
  | .ok image => return { image with entry := (image.addressOf? startLabel).getD image.entry }

/-- Lowers a whole program. -/
def lowerProgram : Lower Image := do
  let p ← read
  pass "allocate" allocateStorage
  if p.entry?.isNone then
    reportError .missingEntry .none "program has no entry function"
  warnRecursion
  declareData [] p.data.items.zipIdx
  let target := (← get).workspace.target
  write (.data target.stub.1)
  write (.onStream fun s => (s.placeLabel startLabel).1)
  pass "lower" (lowerCode p.entry?)
  pass "runtime" lowerTail
  let span ← openSpan .pass "link"
  let image ←
    try linkImage
    catch e =>
      closeSpan span e.message
      throw e
  closeSpan span ""
  return image

end Breadbin.Lowering
