import Breadbin.Instruction.Opcode
import Breadbin.Machine.Memory
import Breadbin.Text.Digits

/-!
# The processor

The registers and the memory of the machine, with the flags and the stack.  Two entry points of the
built-in software are trapped: the one that prints a character and the one that moves or reports the
cursor.
-/

/-! ## Faults of a run -/

namespace Breadbin.Machine

/-- Why a run ends before its routine returns, or does not start. -/
inductive Fault where
  /-- a byte outside the documented instruction set -/
  | illegalOpcode (code : UInt8) (address : UInt16)
  /-- the break instruction -/
  | breakpoint (address : UInt16)
  /-- the routine did not return in time -/
  | stepLimit (limit : Nat) (pc : UInt16)
  /-- bytes that do not fit behind their load address -/
  | badImage (size : Nat) (address : UInt16)
  /-- a program file too short for a load address -/
  | shortFile (size : Nat)
  deriving DecidableEq, Repr

/-- The text of a fault. -/
def Fault.message : Fault → String
  | illegalOpcode code address =>
    "sim: illegal opcode: $" ++ Text.hexUpper 2 code.toNat ++ " at $" ++
      Text.hexUpper 4 address.toNat
  | breakpoint address => "sim: BRK executed at $" ++ Text.hexUpper 4 address.toNat
  | stepLimit limit pc =>
    s!"sim: step limit reached: {limit} steps, PC=$" ++ Text.hexUpper 4 pc.toNat
  | badImage size address =>
    s!"sim: bad image: {size} bytes at $" ++ Text.hexUpper 4 address.toNat
  | shortFile size => s!"sim: bad image: {size} bytes"

end Breadbin.Machine

namespace Breadbin.Machine

/-- The state of the machine. -/
structure Cpu where
  a : UInt8 := 0
  x : UInt8 := 0
  y : UInt8 := 0
  sp : UInt8 := 0xFF
  p : UInt8 := 0x24
  pc : UInt16 := 0
  row : UInt8 := 0
  column : UInt8 := 0
  /-- the trapped character output; zero when there is none -/
  chrout : UInt16 := 0xFFD2
  /-- the trapped cursor call; zero when there is none -/
  plot : UInt16 := 0xFFF0
  cycles : Nat := 0
  steps : Nat := 0
  memory : Memory := .zero
  /-- what was printed -/
  output : Array UInt8 := #[]
  deriving Inhabited

/-- The status flags. -/
inductive Flag where
  | carry | zero | interrupt | decimal | break | unused | overflow | negative
  deriving DecidableEq, Repr

/-- The bit of a flag in the status register. -/
@[inline] def Flag.mask : Flag → UInt8
  | carry => 0x01
  | zero => 0x02
  | interrupt => 0x04
  | decimal => 0x08
  | «break» => 0x10
  | unused => 0x20
  | overflow => 0x40
  | negative => 0x80

/-- A status register with one flag set or cleared. -/
@[inline] def withFlag (p : UInt8) (f : Flag) (on : Bool) : UInt8 :=
  if on then p ||| f.mask else p &&& ~~~f.mask

/-- Whether a flag is set in a status register. -/
@[inline] def hasFlag (p : UInt8) (f : Flag) : Bool := p &&& f.mask != 0

/-- A status register with the zero and negative flags of a value. -/
@[inline] def withValue (p : UInt8) (v : UInt8) : UInt8 :=
  withFlag (withFlag p .zero (v == 0)) .negative (v &&& 0x80 != 0)

namespace Cpu

/-- Clears registers, counters and output; memory and traps stay. -/
def reset (c : Cpu) : Cpu :=
  { chrout := c.chrout, plot := c.plot, memory := c.memory }

@[inline] def flag (c : Cpu) (f : Flag) : Bool := hasFlag c.p f

@[inline] def setFlag (c : Cpu) (f : Flag) (on : Bool) : Cpu := { c with p := withFlag c.p f on }

/-- Loads A and sets the flags of the value. -/
@[inline] def setA (c : Cpu) (v : UInt8) : Cpu := { c with a := v, p := withValue c.p v }

/-- Loads X and sets the flags of the value. -/
@[inline] def setX (c : Cpu) (v : UInt8) : Cpu := { c with x := v, p := withValue c.p v }

/-- Loads Y and sets the flags of the value. -/
@[inline] def setY (c : Cpu) (v : UInt8) : Cpu := { c with y := v, p := withValue c.p v }

@[inline] def read (c : Cpu) (address : UInt16) : UInt8 := c.memory.read address

@[inline] def write (c : Cpu) (address : UInt16) (v : UInt8) : Cpu :=
  { c with memory := c.memory.write address v }

/-- The address of the stack slot that a stack pointer names. -/
@[inline] def stackSlot (sp : UInt8) : UInt16 := 0x0100 + sp.toUInt16

/-- Pushes a byte. -/
def push (c : Cpu) (v : UInt8) : Cpu :=
  { c with memory := c.memory.write (stackSlot c.sp) v, sp := c.sp - 1 }

/-- Pulls a byte. -/
def pull (c : Cpu) : Cpu × UInt8 :=
  let sp := c.sp + 1
  let v := c.read (stackSlot sp)
  ({ c with sp }, v)

/-- Pulls an address, low byte first. -/
def pullAddress (c : Cpu) : Cpu × UInt16 :=
  let (c, lo) := c.pull
  let (c, hi) := c.pull
  (c, lo.toUInt16 + hi.toUInt16 * 256)

/-- Pushes an address, high byte first. -/
def pushAddress (c : Cpu) (address : UInt16) : Cpu :=
  (c.push (address >>> 8).toUInt8).push address.toUInt8

/-- Returns from a subroutine. -/
def returnFromCall (c : Cpu) : Cpu :=
  let (c, address) := c.pullAddress
  { c with pc := address + 1 }

/-- Loads bytes that fit behind their address. -/
def load (c : Cpu) (address : UInt16) (bytes : Bytes) : Cpu × Option Fault :=
  if 65536 < address.toNat + bytes.length then (c, some (.badImage bytes.length address))
  else ({ c with memory := c.memory.writeBytes address bytes }, none)

/-- Loads a program file: two bytes of load address, then the bytes. -/
def loadFile (c : Cpu) (file : Bytes) : Cpu × UInt16 × Option Fault :=
  match file with
  | lo :: hi :: bytes =>
    let address := lo.toUInt16 + hi.toUInt16 * 256
    let (c, fault) := c.load address bytes
    (c, address, fault)
  | _ => (c, 0, some (.shortFile file.length))

/-- The string at an address: up to the next zero, at most 255 bytes. -/
def readString (c : Cpu) (address : UInt16) : Bytes :=
  c.memory.readString address 255

end Cpu

end Breadbin.Machine
