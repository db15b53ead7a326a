import Breadbin.Assembly.Stream
import Breadbin.Placement.Target
import Breadbin.Routine.Basic

/-!
# Writing routines

The fixed slots of the zero page, and the monad in which routines are written.
-/

namespace Breadbin.ZeroPage

/-!
## The zero page

Routines and compiled code pass values through fixed bytes of the zero page.  Words have their low
byte first.
-/

def intA : UInt8 := 0x02
def intB : UInt8 := 0x04
def intR : UInt8 := 0x06
def fixA : UInt8 := 0x08
def fixB : UInt8 := 0x0A
def fixR : UInt8 := 0x0C
def floatA : UInt8 := 0x0E
def floatB : UInt8 := 0x10
def floatR : UInt8 := 0x12
def intRemainder : UInt8 := 0x14

/-- Six bytes for the routines alone. -/
def work : UInt8 := 0x16
def string1 : UInt8 := 0x1C
def string2 : UInt8 := 0x1E

/-- The pointer through which compiled code reaches array elements. -/
def pointer : UInt8 := 0x20

/-- A word for compiled code alone. -/
def scratch : UInt8 := 0x22

/-- The state of the random number generator. -/
def seed : UInt8 := 0x24

/-- The names of the slots in listings, by address. -/
def symbols : List (UInt16 × String) :=
  [(0x02, "int_a"), (0x04, "int_b"), (0x06, "int_r"), (0x08, "fix_a"), (0x0A, "fix_b"),
    (0x0C, "fix_r"), (0x0E, "flt_a"), (0x10, "flt_b"), (0x12, "flt_r"), (0x14, "int_rem"),
    (0x16, "work"), (0x1C, "str_p1"), (0x1E, "str_p2"), (0x20, "ptr"), (0x22, "scratch"),
    (0x24, "seed")]

end Breadbin.ZeroPage

namespace Breadbin.Routine

/-!
## Writing code that calls routines

Code is written into a stream together with the record of the routines it asks for.  A routine has a
label from the first time it is asked for, and asking for it asks for all the routines it needs.
-/

open Assembly

/-- A stream under construction and the routines asked for and written so far. -/
structure Workspace where
  stream : Stream := {}
  target : Target
  labels : List (RoutineId × LabelId) := []
  emitted : List RoutineId := []
  deriving Inhabited

namespace Workspace

/-- The label of a routine that was asked for. -/
def label? (w : Workspace) (id : RoutineId) : Option LabelId :=
  w.labels.lookup id

/-- Asks for one routine, leaving aside what it needs. -/
def requireOne (w : Workspace) (id : RoutineId) : Workspace :=
  match w.label? id with
  | some _ => w
  | none =>
    let (stream, l) := w.stream.newLabel id.name
    { w with stream, labels := (id, l) :: w.labels }

/-- Asks for a routine and all it needs. -/
def require (w : Workspace) (id : RoutineId) : Workspace × LabelId :=
  let w := id.postorder.foldl requireOne w
  (w, (w.label? id).getD .none)

/-- The routines asked for, in order. -/
def required (w : Workspace) : List RoutineId :=
  RoutineId.all.filter fun id => (w.label? id).isSome

end Workspace

/-- Writes code into a workspace. -/
abbrev Writer := StateM Workspace

namespace Writer

/-- Changes the stream. -/
@[inline] def onStream (f : Stream → Stream) : Writer Unit :=
  modify fun w => { w with stream := f w.stream }

/-- The machine the code is for. -/
def target : Writer Target := return (← get).target

/-- Writes an instruction. -/
def emit (mn : Mnemonic) (operand : Operand) : Writer Unit := onStream (·.emit mn operand)

/-- Writes an instruction without operand. -/
def op (mn : Mnemonic) : Writer Unit := onStream (·.op mn)

/-- Writes an instruction with a byte in it. -/
def imm (mn : Mnemonic) (v : UInt8) : Writer Unit := emit mn (.immediate v)

/-- Writes an instruction on a byte of the zero page. -/
def zp (mn : Mnemonic) (address : UInt8) : Writer Unit := emit mn (.zeroPage address)

/-- Writes an instruction on what a pointer in the zero page, indexed by Y, points at. -/
def indY (mn : Mnemonic) (address : UInt8) : Writer Unit := emit mn (.indirectY address)

/-- Writes an instruction on a fixed address. -/
def abs (mn : Mnemonic) (address : UInt16) : Writer Unit := emit mn (.absolute (.fixed address))

/-- Writes an instruction on a fixed address, indexed by Y. -/
def absY (mn : Mnemonic) (address : UInt16) : Writer Unit := emit mn (.absoluteY (.fixed address))

/-- Writes an instruction on a table, indexed by X. -/
def tableX (mn : Mnemonic) (l : LabelId) : Writer Unit := emit mn (.absoluteX (.ofLabel l))

/-- Writes a conditional branch. -/
def branch (mn : Mnemonic) (l : LabelId) : Writer Unit := onStream (·.branch mn l)

/-- Writes a jump. -/
def jump (l : LabelId) : Writer Unit := onStream (·.jump l)

/-- Writes a call. -/
def callLabel (l : LabelId) : Writer Unit := onStream (·.call l)

/-- Writes bytes. -/
def data (bytes : List UInt8) : Writer Unit := onStream (·.data bytes)

/-- Makes a label with a name. -/
def namedLabel (name : Bytes) : Writer LabelId := do
  let w ← get
  let (stream, l) := w.stream.addLabel name
  set { w with stream }
  return l

/-- Makes a label. -/
def label : Writer LabelId := namedLabel []

/-- Binds a label to the current position. -/
def bind (l : LabelId) : Writer Unit := onStream (·.bind l)

/-- Makes a label bound to the current position. -/
def here : Writer LabelId := do
  let l ← label
  bind l
  return l

/-- Asks for a routine and gives its label. -/
def require (id : RoutineId) : Writer LabelId := do
  let (w, l) := (← get).require id
  set w
  return l

/-- Calls a routine. -/
def call (id : RoutineId) : Writer Unit := do
  callLabel (← require id)

/-- Ends with a jump to a routine. -/
def tailCall (id : RoutineId) : Writer Unit := do
  jump (← require id)

/-- Loads the address of a label, low byte in A and high byte in X. -/
def loadAddress (l : LabelId) : Writer Unit := do
  emit .lda (.lowByte (.ofLabel l))
  emit .ldx (.highByte (.ofLabel l))

/-- Returns the word of a slot, low byte in A and high byte in X. -/
def returnWord (a : UInt8) : Writer Unit := do
  zp .lda a
  zp .ldx (a + 1)
  op .rts

/-- Copies a word. -/
def moveWord (dst src : UInt8) : Writer Unit := do
  zp .lda src
  zp .sta dst
  zp .lda (src + 1)
  zp .sta (dst + 1)

/-- Stores a constant word. -/
def setWord (dst : UInt8) (v : UInt16) : Writer Unit := do
  imm .lda v.toUInt8
  zp .sta dst
  imm .lda (v >>> 8).toUInt8
  zp .sta (dst + 1)

/-- Stores the sum of two words. -/
def addWord (dst a b : UInt8) : Writer Unit := do
  op .clc
  zp .lda a
  zp .adc b
  zp .sta dst
  zp .lda (a + 1)
  zp .adc (b + 1)
  zp .sta (dst + 1)

/-- Stores the difference of two words. -/
def subWord (dst a b : UInt8) : Writer Unit := do
  op .sec
  zp .lda a
  zp .sbc b
  zp .sta dst
  zp .lda (a + 1)
  zp .sbc (b + 1)
  zp .sta (dst + 1)

/-- Negates a word in place; of the registers only A is used. -/
def negateWord (a : UInt8) : Writer Unit := do
  op .sec
  imm .lda 0
  zp .sbc a
  zp .sta a
  imm .lda 0
  zp .sbc (a + 1)
  zp .sta (a + 1)

/-- Shifts a word left. -/
def shiftLeftWord (a : UInt8) : Writer Unit := do
  zp .asl a
  zp .rol (a + 1)

/-- Shifts a word right. -/
def shiftRightWord (a : UInt8) : Writer Unit := do
  zp .lsr (a + 1)
  zp .ror a

/-- Sets the lowest bit of a byte when the carry is set. -/
def sticky (a : UInt8) : Writer Unit := do
  let skip ← label
  branch .bcc skip
  zp .lda a
  imm .ora 1
  zp .sta a
  bind skip

/-- Shifts a word right; the bit that is lost sticks to the lowest one. -/
def shiftRightSticky (a : UInt8) : Writer Unit := do
  shiftRightWord a
  sticky a

/-- Sets the carry when the first word is not below the second, both unsigned. -/
def compareWord (a b : UInt8) : Writer Unit := do
  zp .lda a
  zp .cmp b
  zp .lda (a + 1)
  zp .sbc (b + 1)

/-- Sets the zero flag when a word is zero. -/
def testWord (a : UInt8) : Writer Unit := do
  zp .lda a
  zp .ora (a + 1)

/-- Negates a negative word. -/
def absoluteWord (a : UInt8) : Writer Unit := do
  let positive ← label
  zp .lda (a + 1)
  branch .bpl positive
  negateWord a
  bind positive

end Writer

end Breadbin.Routine
