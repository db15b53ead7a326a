import Breadbin.Assembly.Operand
import Breadbin.Text.Quoted

/-!
# Instruction streams

A stream is a buffer of machine code with symbolic labels.  An operand that depends on a label is
written as zero and recorded as a fixup.  The first failure stays: what is emitted after it is
ignored, and linking reports it.
-/

/-! ## Assembly failures -/

namespace Breadbin.Assembly

/-- Why a stream cannot be assembled. -/
inductive Error where
  /-- the instruction has no such mode -/
  | unknownEncoding (mnemonic : Mnemonic) (mode : Mode)
  /-- a label was bound a second time -/
  | labelRebound (name : Bytes)
  /-- a label that the stream never made -/
  | invalidLabel (label : LabelId)
  /-- a label that is used and never bound -/
  | unresolvedLabel (name : Bytes) (site : Nat)
  /-- the image leaves the address space -/
  | imageTooLarge (size : Nat) (origin : UInt16)
  /-- an operand refers to an address outside the address space -/
  | targetTooLarge (site : Nat)
  /-- a named label lies outside the address space -/
  | labelTooLarge (name : Bytes)
  /-- the alignment is not a power of two -/
  | badAlignment (alignment : UInt16)
  /-- padding and trampolines kept moving each other -/
  | unsettled (passes : Nat)
  /-- a displacement that belongs to no branch does not fit -/
  | notABranch (site : Nat) (code : UInt8)
  /-- a branch is out of range after the layout -/
  | branchTooFar (site : Nat) (displacement : Int)
  deriving DecidableEq, Repr

/-- The text of a failure. -/
def Error.message : Error → String
  | unknownEncoding mnemonic mode =>
    s!"asm: no encoding for instruction: {mnemonic.text} {mode.text}"
  | labelRebound name => "asm: label bound twice: " ++ Text.quoted name
  | invalidLabel label => s!"asm: invalid label: {label.number.toNat}"
  | unresolvedLabel name site =>
    "asm: unresolved label: " ++ Text.quoted name ++ s!" referenced at offset {site}"
  | imageTooLarge size origin =>
    s!"asm: image exceeds address space: {size} bytes at $" ++ Text.hexUpper 4 origin.toNat
  | targetTooLarge site => s!"asm: image exceeds address space: fixup target at {site}"
  | labelTooLarge name => "asm: image exceeds address space: label " ++ Text.quoted name
  | badAlignment alignment => s!"asm: bad alignment: {alignment.toNat} is not a power of two"
  | unsettled passes => s!"asm: bad alignment: layout did not settle after {passes} passes"
  | notABranch site code =>
    s!"asm: fixup at {site} does not belong to a branch ($" ++ Text.hexUpper 2 code.toNat ++ ")"
  | branchTooFar site displacement =>
    s!"asm: branch at {site} still out of range ({displacement})"

end Breadbin.Assembly

/-! ## Streams -/

namespace Breadbin.Assembly

/-- How the bytes of a fixup are filled in. -/
inductive FixupKind where
  /-- the displacement of a conditional branch -/
  | relative
  /-- the operand of a jump or call -/
  | absolute
  /-- any other address of two bytes -/
  | address
  /-- the low byte of an address -/
  | addressLow
  /-- the high byte of an address -/
  | addressHigh
  deriving DecidableEq, Repr, Inhabited

def FixupKind.text : FixupKind → String
  | relative => "relative"
  | absolute => "absolute"
  | address => "address"
  | addressLow => "address-low"
  | addressHigh => "address-high"

/-- Operand bytes at an offset that wait for the address of a label. -/
structure Fixup where
  site : Nat
  label : LabelId
  kind : FixupKind
  addend : UInt16
  deriving DecidableEq, Repr, Inhabited

/-- A label: bound to an offset, or still open. -/
structure Label where
  name : Bytes
  offset : Option Nat := none
  deriving DecidableEq, Repr, Inhabited

/-- A place where the linker pads with zeros up to a multiple of `alignment`; `pad` counts the zeros
it has put there. -/
structure AlignMark where
  offset : Nat
  alignment : Nat
  pad : Nat := 0
  deriving DecidableEq, Repr, Inhabited

/-- Machine code under construction.  Label `n` stands at index `n - 1`. -/
structure Stream where
  code : Array UInt8 := #[]
  labels : Array Label := #[]
  fixups : Array Fixup := #[]
  marks : Array AlignMark := #[]
  error : Option Error := none
  deriving Repr, Inhabited

namespace Stream

/-- Records a failure unless there is one. -/
def fail (s : Stream) (e : Error) : Stream :=
  match s.error with
  | some _ => s
  | none => { s with error := some e }

/-- The number of bytes emitted so far. -/
def size (s : Stream) : Nat := s.code.size

/-- The label with a number. -/
def label? (s : Stream) (l : LabelId) : Option Label :=
  if l.isSome then s.labels[l.number.toNat - 1]? else none

/-- Makes a label that is not bound. -/
def addLabel (s : Stream) (name : Bytes) : Stream × LabelId :=
  let id : LabelId := ⟨UInt32.ofNat (s.labels.size + 1)⟩
  ({ s with labels := s.labels.push { name } }, id)

/-- Makes a label with a text for its name. -/
abbrev newLabel (s : Stream) (name : String) : Stream × LabelId := s.addLabel (Text.bytesOf name)

/-- Binds a label to the current position. -/
def bind (s : Stream) (l : LabelId) : Stream :=
  match s.label? l with
  | none => s.fail (.invalidLabel l)
  | some label =>
    match label.offset with
    | some _ => s.fail (.labelRebound label.name)
    | none =>
      let here := s.code.size
      { s with labels := s.labels.set! (l.number.toNat - 1) { label with offset := some here } }

/-- Makes a label bound to the current position. -/
def placeLabel (s : Stream) (name : Bytes) : Stream × LabelId :=
  let (s, l) := s.addLabel name
  (s.bind l, l)

/-- Makes a label bound to the current position, with a text for its name. -/
abbrev here (s : Stream) (name : String) : Stream × LabelId := s.placeLabel (Text.bytesOf name)

/-- The offset of a bound label. -/
def offset? (s : Stream) (l : LabelId) : Option Nat :=
  (s.label? l).bind (·.offset)

/-- The name of a label; a label of another stream has none. -/
def nameOf (s : Stream) (l : LabelId) : Bytes :=
  ((s.label? l).map (·.name)).getD []

/-- The name of a label as it is shown. -/
def labelName (s : Stream) (l : LabelId) : String := Text.shown (s.nameOf l)

/-- The fixup an operand needs. -/
def fixupKind (mnemonic : Mnemonic) (op : Operand) : FixupKind :=
  match op.mode.operandSize with
  | 2 => if mnemonic == .jmp || mnemonic == .jsr then .absolute else .address
  | _ =>
    match op.part with
    | .whole => .relative
    | .low => .addressLow
    | .high => .addressHigh

/-- The operand bytes: the value, or zeros where a label decides. -/
def operandBytes (op : Operand) : List UInt8 :=
  let v := if op.label.isSome then 0 else op.value
  match op.mode.operandSize with
  | 0 => []
  | 1 => [v.toUInt8]
  | _ => [v.toUInt8, (v >>> 8).toUInt8]

/-- Appends bytes one by one. -/
def pushAll (code : Array UInt8) (bytes : List UInt8) : Array UInt8 :=
  bytes.foldl Array.push code

/-- Appends an instruction. -/
def emit (s : Stream) (mnemonic : Mnemonic) (op : Operand) : Stream :=
  match s.error with
  | some _ => s
  | none =>
    match Opcode.encode? mnemonic op.mode with
    | none => s.fail (.unknownEncoding mnemonic op.mode)
    | some code =>
      if op.label.isSome && (s.label? op.label).isNone then s.fail (.invalidLabel op.label)
      else
        let site := s.code.size + 1
        let fixups :=
          if op.label.isSome && op.mode.operandSize != 0 then
            s.fixups.push ⟨site, op.label, fixupKind mnemonic op, op.value⟩
          else s.fixups
        { s with code := pushAll (s.code.push code) (operandBytes op), fixups }

/-- Appends an instruction without operand; shifts work on the accumulator. -/
def op (s : Stream) (mnemonic : Mnemonic) : Stream :=
  match mnemonic with
  | .asl | .lsr | .rol | .ror => s.emit mnemonic .accumulator
  | _ => s.emit mnemonic .implied

/-- Appends a conditional branch. -/
def branch (s : Stream) (mnemonic : Mnemonic) (l : LabelId) : Stream :=
  s.emit mnemonic (.relative l)

/-- Appends a jump. -/
def jump (s : Stream) (l : LabelId) : Stream :=
  s.emit .jmp (.absolute (.ofLabel l))

/-- Appends a call. -/
def call (s : Stream) (l : LabelId) : Stream :=
  s.emit .jsr (.absolute (.ofLabel l))

/-- Appends raw bytes. -/
def data (s : Stream) (bytes : List UInt8) : Stream :=
  match s.error with
  | some _ => s
  | none => { s with code := pushAll s.code bytes }

/-- Lets the next byte land on a multiple of `n`. -/
def align (s : Stream) (n : UInt16) : Stream :=
  match s.error with
  | some _ => s
  | none =>
    if n ≤ 1 then s
    else if n &&& (n - 1) ≠ 0 then s.fail (.badAlignment n)
    else { s with marks := s.marks.push { offset := s.code.size, alignment := n.toNat } }

/-- Appends an address, low byte first. -/
def word (s : Stream) (r : AddressRef) : Stream :=
  match s.error with
  | some _ => s
  | none =>
    if r.isLabel then
      if (s.label? r.label).isNone then s.fail (.invalidLabel r.label)
      else
        let site := s.code.size
        { s with
          code := pushAll s.code [0, 0]
          fixups := s.fixups.push ⟨site, r.label, .address, r.address⟩ }
    else s.data [r.address.toUInt8, (r.address >>> 8).toUInt8]

end Stream

end Breadbin.Assembly
