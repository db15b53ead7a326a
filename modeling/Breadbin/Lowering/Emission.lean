import Breadbin.Assembly.Stream
import Breadbin.Diagnostic.Bag
import Breadbin.Diagnostic.Basic
import Breadbin.Placement.Allocator
import Breadbin.Program.Basic
import Breadbin.Program.Expr
import Breadbin.Routine.Writer
import Breadbin.Text.Bytes
import Breadbin.Trace.Tracer
import Breadbin.Ty.Resolution
import Breadbin.Ty.Conversion

/-!
# Code under construction

Lowering writes code, hands out addresses, collects constants and reports what it finds.  All of
that stays when lowering fails, so that what was done so far can be told.

Every value ends up in A, or with its low byte in A and its high byte in X.
-/

/-!
## Why a program cannot be lowered

These are faults of whoever built the program, not of its author: broken references, nodes without
their parts, conversions the type rules never ask for.
-/

namespace Breadbin

/-- Why a program cannot be lowered. -/
inductive LoweringError where
  /-- a conversion that only a cast may ask for, or none at all -/
  | unauthorized (conversion : Conversion) (span : Span)
  /-- a choice without arms -/
  | emptyChoice
  /-- a function is left where there is none -/
  | strayReturn
  /-- no symbol has the number -/
  | unknownSymbol (id : SymbolId)
  /-- no symbol has the number of a loop variable -/
  | unknownCounter (id : SymbolId)
  /-- the symbol has no address -/
  | noStorage (name : String)
  /-- no function has the number -/
  | unknownFunction (id : FunctionId)
  /-- the function has no label -/
  | noLabel (name : Bytes)
  /-- a node that lacks its parts, or is none -/
  | malformed (what : String)
  /-- a variable gets no address -/
  | allocation (cause : AllocationError)
  /-- the code cannot be assembled -/
  | assembly (cause : Assembly.Error)
  /-- a failure inside a function -/
  | inFunction (name : Bytes) (cause : LoweringError)
  deriving DecidableEq, Repr

namespace LoweringError

/-- The text of a failure. -/
def message : LoweringError → String
  | unauthorized conversion span =>
    s!"mos: conversion not authorized by the type rules: {conversion.text} at {span.text}"
  | emptyChoice => "mos: control-flow construct out of order: if cannot go from entered to resolved"
  | strayReturn => "mos: control-flow construct out of order: return outside of a function"
  | unknownSymbol id => s!"mos: unknown symbol: {id.toNat}"
  | unknownCounter id => s!"mos: unknown symbol: loop variable {id.toNat}"
  | noStorage name => "mos: unknown symbol: " ++ name ++ " has no storage"
  | unknownFunction id => s!"mos: unknown function: {id.toNat}"
  | noLabel name => "mos: unknown function: " ++ Text.quoted name ++ " has no label"
  | malformed what => "mos: malformed HIR node: " ++ what
  | allocation cause => cause.message
  | assembly cause => cause.message
  | inFunction name cause => Text.shown name ++ ": " ++ cause.message

/-- The code a failure is reported under. -/
def code : LoweringError → Code
  | unauthorized .. => .unauthorizedConversion
  | unknownSymbol _ | unknownCounter _ | noStorage _ | unknownFunction _ | noLabel _ =>
    .unknownSymbol
  | allocation (.outOfSpace ..) | allocation .outOfRange => .outOfVariableSpace
  | allocation (.collision _) => .allocationCollision
  | assembly (.unresolvedLabel ..) => .unresolvedLabel
  | assembly (.imageTooLarge ..) | assembly (.targetTooLarge _) | assembly (.labelTooLarge _) =>
    .imageTooLarge
  | inFunction _ cause => cause.code
  | emptyChoice | strayReturn | malformed _ | allocation _ | assembly _ => .internal

end LoweringError

end Breadbin

namespace Breadbin

/-!
## The constant pool

Constant bytes are collected while code is emitted and laid out behind it.  Equal bytes share one
label.
-/

/-- Constants with their labels, in the order of their first use. -/
structure Pool where
  entries : Array (Assembly.LabelId × Bytes) := #[]
  deriving Repr, Inhabited

namespace Pool

/-- The label of some bytes that are in the pool. -/
def find? (p : Pool) (data : Bytes) : Option Assembly.LabelId :=
  (p.entries.find? fun e => e.2 == data).map (·.1)

/-- The label of some bytes, which are added on first use. -/
def intern (p : Pool) (s : Assembly.Stream) (data : Bytes) :
    Pool × Assembly.Stream × Assembly.LabelId :=
  match p.find? data with
  | some l => (p, s, l)
  | none =>
    let (s, l) := s.newLabel s!"const_{p.entries.size}"
    (⟨p.entries.push (l, data)⟩, s, l)

/-- The number of different constants. -/
def length (p : Pool) : Nat := p.entries.size

/-- The number of bytes of all constants. -/
def size (p : Pool) : Nat := p.entries.foldl (fun n e => n + e.2.length) 0

/-- Binds every label and appends its bytes. -/
def emit (p : Pool) (s : Assembly.Stream) : Assembly.Stream :=
  p.entries.foldl (fun s e => (s.bind e.1).data e.2) s

end Pool

end Breadbin

namespace Breadbin.Lowering

open Assembly

/-- Where the statements that leave a loop, or go on with it, jump to. -/
structure LoopLabels where
  next : LabelId
  exit : LabelId
  deriving Repr, Inhabited

/-- The state of lowering. -/
structure Emission where
  workspace : Routine.Workspace
  allocator : Allocator
  reports : Reports
  pool : Pool := {}
  functions : List (FunctionId × LabelId) := []
  data : List (DataId × LabelId) := []
  /-- the constants whose value is known -/
  constants : List (SymbolId × Expr) := []
  /-- the function being lowered -/
  current : Option Function := none
  /-- the loops around the statement being lowered, innermost first -/
  loops : List LoopLabels := []
  /-- how many numbered labels there are -/
  labels : Nat := 0
  /-- how many bytes the global variables and constants take -/
  globalSize : Int := 0
  tracer : Trace.Tracer := .off
  /-- the span of the whole program -/
  span : Trace.OpenSpan := {}
  deriving Inhabited

/-- Lowers a part of a program. -/
abbrev Lower := ReaderT Program (ExceptT LoweringError (StateM Emission))

/-- Writes code. -/
def write {α : Type} (w : Routine.Writer α) : Lower α :=
  modifyGet fun s =>
    let (a, workspace) := w.run s.workspace
    (a, { s with workspace })

/-- Reports a finding. -/
def report (d : Diagnostic) : Lower Unit :=
  modify fun s => { s with reports := s.reports.report d }

/-- Reports an error. -/
def reportError (code : Code) (span : Span) (message : String) : Lower Unit :=
  report (.error code span message)

/-- Reports the findings of a check and gives its result, if it is accepted. -/
def checked {α : Type} (c : Checked α) : Lower (α × Bool) := do
  c.findings.forM report
  return (c.value, c.accepted)

/-- Writes an instruction. -/
def emit (mn : Mnemonic) (operand : Operand) : Lower Unit := write (.emit mn operand)

/-- Writes an instruction without operand. -/
def op (mn : Mnemonic) : Lower Unit := write (.op mn)

/-- Writes an instruction with a byte in it. -/
def imm (mn : Mnemonic) (v : UInt8) : Lower Unit := write (.imm mn v)

/-- Writes an instruction on a byte of the zero page. -/
def zp (mn : Mnemonic) (address : UInt8) : Lower Unit := write (.zp mn address)

/-- Writes an instruction on an address. -/
def mem (mn : Mnemonic) (ref : AddressRef) : Lower Unit := emit mn (.absolute ref)

/-- Writes a conditional branch. -/
def branchTo (mn : Mnemonic) (l : LabelId) : Lower Unit := write (.branch mn l)

/-- Writes a jump. -/
def jumpTo (l : LabelId) : Lower Unit := write (.jump l)

/-- Binds a label to the current position. -/
def place (l : LabelId) : Lower Unit := write (.bind l)

/-- Calls a routine. -/
def callRoutine (id : RoutineId) : Lower Unit := write (.call id)

/-- Makes a label with a name and a number. -/
def newLabel (name : String) : Lower LabelId := do
  modify fun s => { s with labels := s.labels + 1 }
  write (.namedLabel (Text.bytesOf s!"{name}_{(← get).labels}"))

/-- Loads the value at an address. -/
def load (ref : AddressRef) (wide : Bool) : Lower Unit := do
  mem .lda ref
  if wide then mem .ldx (ref.plus 1)

/-- Stores the value at an address. -/
def store (ref : AddressRef) (wide : Bool) : Lower Unit := do
  mem .sta ref
  if wide then mem .stx (ref.plus 1)

/-- Loads the value of a slot. -/
def loadSlot (slot : UInt8) (wide : Bool) : Lower Unit := do
  zp .lda slot
  if wide then zp .ldx (slot + 1)

/-- Stores the value into a slot. -/
def storeSlot (slot : UInt8) (wide : Bool) : Lower Unit := do
  zp .sta slot
  if wide then zp .stx (slot + 1)

/-- Loads a constant. -/
def loadConstant (v : UInt16) (wide : Bool) : Lower Unit := do
  imm .lda v.toUInt8
  if wide then imm .ldx (v >>> 8).toUInt8

/-- Loads an address that is known when the image is linked. -/
def loadAddress (ref : AddressRef) : Lower Unit := do
  emit .lda (.lowByte ref)
  emit .ldx (.highByte ref)

/-- Saves the value on the stack, low byte first. -/
def push (wide : Bool) : Lower Unit := do
  op .pha
  if wide then
    op .txa
    op .pha

/-- Restores the value saved last. -/
def pop (wide : Bool) : Lower Unit := do
  if wide then
    op .pla
    op .tax
  op .pla

/-- Makes the zero flag tell whether A is zero. -/
def testA : Lower Unit := imm .cmp 0

/-- Loads zero; stands in for a value that cannot be had. -/
def zero (t : Ty) : Lower Unit := loadConstant 0 t.isWide

/-- Turns the condition a branch tests into 0 or 1. -/
def materialize (mn : Mnemonic) : Lower Unit := do
  let yes ← newLabel "true"
  let done ← newLabel "bool"
  branchTo mn yes
  imm .lda 0
  branchTo .beq done
  place yes
  imm .lda 1
  place done

/-- Widens the value in A to two bytes. -/
def extend (k : Kind) : Lower Unit := do
  if !k.isWide then
    imm .ldx 0
    if k = .i8 then
      let positive ← newLabel "sext"
      imm .cmp 0x80
      branchTo .bcc positive
      op .dex
      place positive

/-- The name of a symbol, or its number. -/
def symbolName (p : Program) (id : SymbolId) : String :=
  match p.symbol? id with
  | some s => Text.shown s.name
  | none => toString id.toNat

/-- The address of a symbol. -/
def symbolRef (id : SymbolId) : Lower AddressRef := do
  match (← get).allocator.lookup? id with
  | some address => return .fixed address
  | none => throw (.noStorage (symbolName (← read) id))

/-- A symbol that has to be there. -/
def symbol (id : SymbolId) : Lower Symbol := do
  match (← read).symbol? id with
  | some s => return s
  | none => throw (.unknownSymbol id)

end Breadbin.Lowering
