import Breadbin.Instruction.Opcode

/-!
# Operands

An operand carries a fixed value or refers to a label whose address is known only after linking.
-/

namespace Breadbin.Assembly

/-- The number of a label within a stream; zero is never a label. -/
structure LabelId where
  number : UInt32
  deriving DecidableEq, Repr, Inhabited

/-- No label. -/
def LabelId.none : LabelId := ⟨0⟩

def LabelId.isSome (l : LabelId) : Bool := l.number != 0

/-- A fixed address, or an offset from a label. -/
structure AddressRef where
  address : UInt16 := 0
  label : LabelId := .none
  deriving DecidableEq, Repr, Inhabited

namespace AddressRef

/-- A fixed address. -/
def fixed (address : UInt16) : AddressRef := { address }

/-- A label plus an offset. -/
def ofLabel (label : LabelId) (offset : UInt16 := 0) : AddressRef := { address := offset, label }

def isLabel (r : AddressRef) : Bool := r.label.isSome

/-- The reference moved by some bytes. -/
def plus (r : AddressRef) (n : UInt16) : AddressRef := { r with address := r.address + n }

end AddressRef

/-- Which bytes of an address an operand takes. -/
inductive Part where
  | whole
  | low
  | high
  deriving DecidableEq, Repr, Inhabited

/-- The operand of an instruction. -/
structure Operand where
  mode : Mode
  value : UInt16 := 0
  label : LabelId := .none
  part : Part := .whole
  deriving DecidableEq, Repr, Inhabited

namespace Operand

/-- No operand. -/
def implied : Operand := { mode := .implied }

/-- The accumulator. -/
def accumulator : Operand := { mode := .accumulator }

/-- A byte in the instruction itself. -/
def immediate (v : UInt8) : Operand := { mode := .immediate, value := v.toUInt16 }

/-- A byte of the zero page. -/
def zeroPage (address : UInt8) : Operand := { mode := .zeroPage, value := address.toUInt16 }

/-- A byte of the zero page, indexed by X. -/
def zeroPageX (address : UInt8) : Operand := { mode := .zeroPageX, value := address.toUInt16 }

/-- The byte that a pointer in the zero page, indexed by Y, points at. -/
def indirectY (address : UInt8) : Operand := { mode := .indirectY, value := address.toUInt16 }

/-- An operand of two bytes in a mode. -/
def ofRef (mode : Mode) (r : AddressRef) : Operand :=
  { mode, value := r.address, label := r.label }

def absolute (r : AddressRef) : Operand := ofRef .absolute r

def absoluteX (r : AddressRef) : Operand := ofRef .absoluteX r

def absoluteY (r : AddressRef) : Operand := ofRef .absoluteY r

/-- The address stored at an address. -/
def indirect (r : AddressRef) : Operand := ofRef .indirect r

/-- The low byte of an address. -/
def lowByte (r : AddressRef) : Operand :=
  if r.isLabel then { mode := .immediate, value := r.address, label := r.label, part := .low }
  else immediate r.address.toUInt8

/-- The high byte of an address. -/
def highByte (r : AddressRef) : Operand :=
  if r.isLabel then { mode := .immediate, value := r.address, label := r.label, part := .high }
  else immediate (r.address >>> 8).toUInt8

/-- The target of a conditional branch. -/
def relative (l : LabelId) : Operand := { mode := .relative, label := l }

end Operand

end Breadbin.Assembly
