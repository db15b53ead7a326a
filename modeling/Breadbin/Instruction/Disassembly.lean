import Breadbin.Instruction.Opcode
import Breadbin.Text.Bytes
import Breadbin.Text.Digits

/-!
# Disassembly

Bytes are read back as instructions of the encoding table.  What is no complete instruction, and
everything from the start of the data on, becomes rows of bytes.
-/

namespace Breadbin

/-- Names of addresses. -/
abbrev SymbolTable := UInt16 → Option String

/-- One instruction or one row of data. -/
structure DisassemblyLine where
  address : UInt16
  bytes : Bytes
  label : String
  text : String
  deriving DecidableEq, Repr, Inhabited

namespace DisassemblyLine

/-- A byte in hexadecimal. -/
def byteText (b : UInt8) : String := Text.hexUpper 2 b.toNat

/-- A line as it is printed, with its label on a line above. -/
def print (l : DisassemblyLine) : String :=
  (if l.label.isEmpty then "" else l.label ++ ":\n")
    ++ Text.hexUpper 4 l.address.toNat ++ "  "
    ++ Text.padRight 9 (" ".intercalate (l.bytes.map byteText)) ++ " " ++ l.text

/-- A row of bytes. -/
def ofData (address : UInt16) (label : String) (bytes : Bytes) : DisassemblyLine :=
  { address, bytes, label
    text := ".byte " ++ ",".intercalate (bytes.map fun b => "$" ++ byteText b) }

/-- An address by its name, or in hexadecimal. -/
def addressText (symbols : SymbolTable) (address : UInt16) : String :=
  (symbols address).getD ("$" ++ Text.hexUpper 4 address.toNat)

/-- The text of an instruction at an address with its operand bytes. -/
def instructionText (symbols : SymbolTable) (op : Opcode) (address : UInt16) (operand : Bytes) :
    String :=
  let mn := op.mnemonic.text
  let byte := operand.headD 0
  let short := "$" ++ byteText byte
  let word := byte.toUInt16 + ((operand.drop 1).headD 0).toUInt16 * 256
  let long := addressText symbols word
  match op.mode with
  | .implied | .unknown _ => mn
  | .accumulator => mn ++ " A"
  | .immediate => mn ++ " #" ++ short
  | .zeroPage => mn ++ " " ++ short
  | .zeroPageX => mn ++ " " ++ short ++ ",X"
  | .zeroPageY => mn ++ " " ++ short ++ ",Y"
  | .absolute => mn ++ " " ++ long
  | .absoluteX => mn ++ " " ++ long ++ ",X"
  | .absoluteY => mn ++ " " ++ long ++ ",Y"
  | .indirect => mn ++ " (" ++ long ++ ")"
  | .indirectX => mn ++ " (" ++ short ++ ",X)"
  | .indirectY => mn ++ " (" ++ short ++ "),Y"
  | .relative => mn ++ " " ++ addressText symbols (Opcode.branchTarget address byte)

/-- The line that starts at an address, and how many bytes after the first belong to it. -/
def next (symbols : SymbolTable) (dataStart : UInt16) (address : UInt16) (b : UInt8)
    (rest : Bytes) : DisassemblyLine × Nat :=
  let label := (symbols address).getD ""
  if dataStart ≠ 0 ∧ dataStart ≤ address then
    let more := rest.take 7
    (ofData address label (b :: more), more.length)
  else
    match Opcode.decode? b with
    | none => (ofData address label [b], 0)
    | some op =>
      let n := op.mode.operandSize
      let operand := rest.take n
      if operand.length < n then (ofData address label [b], 0)
      else
        ({ address, bytes := b :: operand, label
           text := instructionText symbols op address operand }, n)

/-- Reads lines in front of which `reversed` have been read. -/
def readAll (symbols : SymbolTable) (dataStart : UInt16) (address : UInt16) (code : Bytes)
    (reversed : List DisassemblyLine) : List DisassemblyLine :=
  match code with
  | [] => reversed.reverse
  | b :: rest =>
    let (line, n) := next symbols dataStart address b rest
    readAll symbols dataStart (address + 1 + UInt16.ofNat n) (rest.drop n) (line :: reversed)
termination_by code.length
decreasing_by simp only [List.length_drop, List.length_cons]; omega

end DisassemblyLine

/-- The lines of code loaded at `origin`.  From `dataStart` on, unless that is zero, the bytes are
data. -/
def disassemble (code : Bytes) (origin : UInt16) (symbols : SymbolTable) (dataStart : UInt16) :
    List DisassemblyLine :=
  DisassemblyLine.readAll symbols dataStart origin code []

end Breadbin
