import Breadbin.Machine.Cpu

/-!
# Execution

One step executes one instruction of the encoding table, or a trap when the program counter stands
on one.  Decimal mode has no effect on arithmetic.
-/

namespace Breadbin.Machine.Cpu

/-- A word from its bytes. -/
@[inline] def wordOf (lo hi : UInt8) : UInt16 := lo.toUInt16 + hi.toUInt16 * 256

/-- The address an operand in memory lies at, for an instruction at `pos`. -/
def effectiveAddress (c : Cpu) (mode : Mode) (pos : UInt16) : UInt16 :=
  let lo := c.read (pos + 1)
  match mode with
  | .zeroPage => lo.toUInt16
  | .zeroPageX => (lo + c.x).toUInt16
  | .zeroPageY => (lo + c.y).toUInt16
  | .absolute => wordOf lo (c.read (pos + 2))
  | .absoluteX => wordOf lo (c.read (pos + 2)) + c.x.toUInt16
  | .absoluteY => wordOf lo (c.read (pos + 2)) + c.y.toUInt16
  | .indirectX =>
    let pointer := lo + c.x
    wordOf (c.read pointer.toUInt16) (c.read (pointer + 1).toUInt16)
  | .indirectY =>
    wordOf (c.read lo.toUInt16) (c.read (lo + 1).toUInt16) + c.y.toUInt16
  | .indirect =>
    -- the pointer does not carry into the next page
    let hi := c.read (pos + 2)
    wordOf (c.read (wordOf lo hi)) (c.read (wordOf (lo + 1) hi))
  | _ => 0

/-- The value an instruction reads. -/
def operand (c : Cpu) (mode : Mode) (pos : UInt16) : UInt8 :=
  match mode with
  | .immediate => c.read (pos + 1)
  | .accumulator => c.a
  | _ => c.read (c.effectiveAddress mode pos)

/-- Adds a value and the carry to A. -/
def addWithCarry (c : Cpu) (v : UInt8) : Cpu :=
  let carry := c.p &&& 1
  let sum := c.a.toUInt16 + v.toUInt16 + carry.toUInt16
  let res := sum.toUInt8
  let p := withFlag c.p .overflow ((c.a ^^^ res) &&& (v ^^^ res) &&& 0x80 != 0)
  { c with p := withFlag p .carry (0xFF < sum) }.setA res

/-- Sets the flags of a comparison. -/
def compare (c : Cpu) (register v : UInt8) : Cpu :=
  { c with p := withValue (withFlag c.p .carry (v ≤ register)) (register - v) }

/-- Changes A or a byte of memory; `f` gives the new value and the new status. -/
@[specialize] def modify (c : Cpu) (mode : Mode) (pos : UInt16)
    (f : UInt8 → UInt8 → UInt8 × UInt8) : Cpu :=
  if mode = .accumulator then
    let (v, p) := f c.p c.a
    { c with a := v, p := withValue p v }
  else
    let address := c.effectiveAddress mode pos
    let (v, p) := f c.p (c.read address)
    { c with memory := c.memory.write address v, p := withValue p v }

/-- Takes a branch or not. -/
def branch (c : Cpu) (taken : Bool) (pos : UInt16) : Cpu :=
  if taken then
    { c with pc := Opcode.branchTarget pos (c.read (pos + 1)), cycles := c.cycles + 1 }
  else c

/-- A status register as it is restored from the stack. -/
def restoredStatus (v : UInt8) : UInt8 :=
  (v &&& ~~~Flag.break.mask) ||| Flag.unused.mask

/-- Executes an instruction at `pos`, the program counter being behind it already. -/
def execute (c : Cpu) (op : Opcode) (pos : UInt16) : Cpu × Option Fault :=
  match op.mnemonic with
  | .lda => (c.setA (c.operand op.mode pos), none)
  | .ldx => (c.setX (c.operand op.mode pos), none)
  | .ldy => (c.setY (c.operand op.mode pos), none)
  | .sta => (c.write (c.effectiveAddress op.mode pos) c.a, none)
  | .stx => (c.write (c.effectiveAddress op.mode pos) c.x, none)
  | .sty => (c.write (c.effectiveAddress op.mode pos) c.y, none)
  | .tax => (c.setX c.a, none)
  | .tay => (c.setY c.a, none)
  | .txa => (c.setA c.x, none)
  | .tya => (c.setA c.y, none)
  | .tsx => (c.setX c.sp, none)
  | .txs => ({ c with sp := c.x }, none)
  | .pha => (c.push c.a, none)
  | .php => (c.push (c.p ||| Flag.break.mask ||| Flag.unused.mask), none)
  | .pla =>
    let (c, v) := c.pull
    (c.setA v, none)
  | .plp =>
    let (c, v) := c.pull
    ({ c with p := restoredStatus v }, none)
  | .adc => (c.addWithCarry (c.operand op.mode pos), none)
  | .sbc => (c.addWithCarry (~~~(c.operand op.mode pos)), none)
  | .and => (c.setA (c.a &&& c.operand op.mode pos), none)
  | .ora => (c.setA (c.a ||| c.operand op.mode pos), none)
  | .eor => (c.setA (c.a ^^^ c.operand op.mode pos), none)
  | .bit =>
    let v := c.operand op.mode pos
    let p := withFlag c.p .zero (c.a &&& v == 0)
    let p := withFlag p .negative (v &&& 0x80 != 0)
    ({ c with p := withFlag p .overflow (v &&& 0x40 != 0) }, none)
  | .cmp => (c.compare c.a (c.operand op.mode pos), none)
  | .cpx => (c.compare c.x (c.operand op.mode pos), none)
  | .cpy => (c.compare c.y (c.operand op.mode pos), none)
  | .inc => (c.modify op.mode pos fun p v => (v + 1, p), none)
  | .dec => (c.modify op.mode pos fun p v => (v - 1, p), none)
  | .inx => (c.setX (c.x + 1), none)
  | .iny => (c.setY (c.y + 1), none)
  | .dex => (c.setX (c.x - 1), none)
  | .dey => (c.setY (c.y - 1), none)
  | .asl => (c.modify op.mode pos fun p v => (v <<< 1, withFlag p .carry (v &&& 0x80 != 0)), none)
  | .lsr => (c.modify op.mode pos fun p v => (v >>> 1, withFlag p .carry (v &&& 1 != 0)), none)
  | .rol =>
    (c.modify op.mode pos fun p v =>
      ((v <<< 1) ||| (p &&& 1), withFlag p .carry (v &&& 0x80 != 0)), none)
  | .ror =>
    (c.modify op.mode pos fun p v =>
      ((v >>> 1) ||| ((p &&& 1) <<< 7), withFlag p .carry (v &&& 1 != 0)), none)
  | .jmp => ({ c with pc := c.effectiveAddress op.mode pos }, none)
  | .jsr =>
    let c := c.pushAddress (pos + 2)
    ({ c with pc := c.effectiveAddress op.mode pos }, none)
  | .rts => (c.returnFromCall, none)
  | .rti =>
    let (c, v) := c.pull
    let (c, address) := { c with p := restoredStatus v }.pullAddress
    ({ c with pc := address }, none)
  | .brk => (c, some (.breakpoint pos))
  | .bcc => (c.branch (!c.flag .carry) pos, none)
  | .bcs => (c.branch (c.flag .carry) pos, none)
  | .beq => (c.branch (c.flag .zero) pos, none)
  | .bne => (c.branch (!c.flag .zero) pos, none)
  | .bmi => (c.branch (c.flag .negative) pos, none)
  | .bpl => (c.branch (!c.flag .negative) pos, none)
  | .bvc => (c.branch (!c.flag .overflow) pos, none)
  | .bvs => (c.branch (c.flag .overflow) pos, none)
  | .clc => (c.setFlag .carry false, none)
  | .sec => (c.setFlag .carry true, none)
  | .cld => (c.setFlag .decimal false, none)
  | .sed => (c.setFlag .decimal true, none)
  | .cli => (c.setFlag .interrupt false, none)
  | .sei => (c.setFlag .interrupt true, none)
  | .clv => (c.setFlag .overflow false, none)
  | .nop => (c, none)
  | .none | .unknown _ => (c, some (.illegalOpcode op.code pos))

/-- Prints A and returns. -/
def printTrap (c : Cpu) : Cpu :=
  let c := { c with output := c.output.push c.a }.returnFromCall
  { c with steps := c.steps + 1 }

/-- Reports the cursor in X and Y when the carry is set, else moves it there; then returns. -/
def cursorTrap (c : Cpu) : Cpu :=
  let c := if c.flag .carry then { c with x := c.row, y := c.column }
    else { c with row := c.x, column := c.y }
  let c := c.returnFromCall
  { c with steps := c.steps + 1 }

/-- Executes one instruction or trap. -/
def step (c : Cpu) : Cpu × Option Fault :=
  if c.chrout ≠ 0 ∧ c.pc = c.chrout then (c.printTrap, none)
  else if c.plot ≠ 0 ∧ c.pc = c.plot then (c.cursorTrap, none)
  else
    let pos := c.pc
    let code := c.read pos
    match Opcode.decode? code with
    | none => (c, some (.illegalOpcode code pos))
    | some op =>
      { c with
        pc := pos + UInt16.ofNat op.mode.size
        steps := c.steps + 1
        cycles := c.cycles + op.cycles }.execute op pos

/-- Where a call ends: the pushed return address leads there. -/
def returnTrap : UInt16 := 0xFFFF

/-- Steps until the call returns, `budget` steps at most out of `limit`. -/
def runUntilReturn (limit : Nat) : (budget : Nat) → Cpu → Cpu × Option Fault
  | 0, c => if c.pc = returnTrap then (c, none) else (c, some (.stepLimit limit c.pc))
  | n + 1, c =>
    if c.pc = returnTrap then (c, none)
    else
      match c.step with
      | (c, none) => runUntilReturn limit n c
      | (c, some fault) => (c, some fault)

/-- One more step of a call, or its end. -/
def advance (c : Cpu) : Cpu ⊕ Cpu × Option Fault :=
  if c.pc = returnTrap then .inr (c, none)
  else
    match c.step with
    | (c, none) => .inl c
    | (c, some fault) => .inr (c, some fault)

/-- Steps until the call returns, however long that takes. -/
def runFreely (c : Cpu) : Cpu × Option Fault := repeatM (m := Id) advance c

/-- Runs the subroutine at an address until it returns, for at most `limit` steps; zero means no
limit. -/
def call (c : Cpu) (address : UInt16) (limit : Nat) : Cpu × Option Fault :=
  let c := { c.pushAddress (returnTrap - 1) with pc := address }
  if limit = 0 then runFreely c else runUntilReturn limit limit c

/-- Executes at most `n` steps, up to the first fault. -/
def stepMany : (n : Nat) → Cpu → Cpu × Option Fault
  | 0, c => (c, none)
  | n + 1, c =>
    match c.step with
    | (c, none) => stepMany n c
    | (c, some fault) => (c, some fault)

end Breadbin.Machine.Cpu
