import Mathlib.Logic.Function.Basic
import Breadbin.Proofs.Assembly.Listing
import Breadbin.Proofs.Machine.Byte

/-!
# Views of the processor

A view is what code can tell of the processor, with the zero page, the stack page and the rest of
the memory apart, so that no store into one of them is ever seen in another.  `View.exec` executes
an instruction that goes on with the next one, as it is written in a listing; `Cpu.Shows.execute`
says that the processor does the same.
-/

namespace Breadbin.Machine

open Assembly

/-- The registers, the flags that arithmetic sets, the memory, and what was printed. -/
structure View where
  a : UInt8
  x : UInt8
  y : UInt8
  sp : UInt8
  carry : Bool
  zero : Bool
  negative : Bool
  overflow : Bool
  zp : UInt8 → UInt8
  stack : UInt8 → UInt8
  /-- the memory behind the stack page -/
  main : UInt16 → UInt8
  chrout : UInt16
  plot : UInt16
  /-- what was printed -/
  output : Array UInt8
  row : UInt8
  column : UInt8

/-- The first address behind the stack page. -/
def mainBase : Nat := 0x200

namespace View

/-- Sets the flags of a value. -/
@[simp] def flags (v : View) (n : UInt8) : View :=
  { v with zero := n == 0, negative := isNegative n }

@[simp] def setA (v : View) (n : UInt8) : View := { v with a := n }.flags n

@[simp] def setX (v : View) (n : UInt8) : View := { v with x := n }.flags n

@[simp] def setY (v : View) (n : UInt8) : View := { v with y := n }.flags n

@[simp] def setCarry (v : View) (on : Bool) : View := { v with carry := on }

@[simp] def setOverflow (v : View) (on : Bool) : View := { v with overflow := on }

/-- Stores a byte into the zero page. -/
@[simp] def store (v : View) (z n : UInt8) : View := { v with zp := Function.update v.zp z n }

/-- Stores a byte behind the stack page. -/
def poke (v : View) (address : UInt16) (n : UInt8) : View :=
  { v with main := Function.update v.main address n }

def push (v : View) (n : UInt8) : View :=
  { v with stack := Function.update v.stack v.sp n, sp := v.sp - 1 }

/-- The byte that is pulled next. -/
def top (v : View) : UInt8 := v.stack (v.sp + 1)

/-- Prints the character in A. -/
def print (v : View) : View := { v with output := v.output.push v.a }

/-- Drops the byte that is pulled next. -/
def drop (v : View) : View := { v with sp := v.sp + 1 }

/-- Pushes the return address for a call in front of `b`. -/
def call (v : View) (b : Nat) : View :=
  (v.push (UInt8.ofNat ((b - 1) / 256))).push (UInt8.ofNat ((b - 1) % 256))

/-- The address that a return leads to. -/
def returnAddress (v : View) : Nat := v.top.toNat + 256 * v.drop.top.toNat + 1

/-- Adds a byte and the carry to A. -/
@[simp] def add (v : View) (n : UInt8) : View :=
  let sum := v.a.toNat + n.toNat + bit v.carry
  ((v.setOverflow (overflows v.a n v.carry)).setCarry (256 ≤ sum)).setA (UInt8.ofNat sum)

/-- Compares a register with a byte. -/
@[simp] def compare (v : View) (register n : UInt8) : View :=
  (v.setCarry (n.toNat ≤ register.toNat)).flags (register - n)

/-- The value that an operand stands for. -/
def operand? (v : View) : Arg → Option UInt8
  | .immediate n => some n
  | .zeroPage z => some (v.zp z)
  | .absolute r => if !r.isLabel && mainBase ≤ r.address.toNat then some (v.main r.address)
      else none
  | _ => none

/-- Stores a byte where an operand says. -/
def store? (v : View) (n : UInt8) : Arg → Option View
  | .zeroPage z => some (v.store z n)
  | _ => none

/-- Changes A or a byte of the zero page; `carry` gives the carry for the old value. -/
def change? (v : View) (f : UInt8 → UInt8) (carry : UInt8 → Bool) : Arg → Option View
  | .accumulator => some ((v.setCarry (carry v.a)).setA (f v.a))
  | .zeroPage z => some (((v.setCarry (carry (v.zp z))).store z (f (v.zp z))).flags (f (v.zp z)))
  | _ => none

/-- Executes an instruction that goes on with the next one.  Stores behind the stack page are left
out: they may hit the code. -/
def exec (v : View) (mn : Mnemonic) (arg : Arg) : Option View :=
  match mn with
  | .lda => (v.operand? arg).map v.setA
  | .ldx => (v.operand? arg).map v.setX
  | .ldy => (v.operand? arg).map v.setY
  | .sta => v.store? v.a arg
  | .stx => v.store? v.x arg
  | .sty => v.store? v.y arg
  | .tax => some (v.setX v.a)
  | .tay => some (v.setY v.a)
  | .txa => some (v.setA v.x)
  | .tya => some (v.setA v.y)
  | .pha => some (v.push v.a)
  | .pla => some (v.drop.setA v.top)
  | .adc => (v.operand? arg).map v.add
  | .sbc => (v.operand? arg).map fun n => v.add (~~~n)
  | .and => (v.operand? arg).map fun n => v.setA (v.a &&& n)
  | .ora => (v.operand? arg).map fun n => v.setA (v.a ||| n)
  | .eor => (v.operand? arg).map fun n => v.setA (v.a ^^^ n)
  | .cmp => (v.operand? arg).map (v.compare v.a)
  | .cpy => (v.operand? arg).map (v.compare v.y)
  | .inc => v.change? (· + 1) (fun _ => v.carry) arg
  | .dec => v.change? (· - 1) (fun _ => v.carry) arg
  | .inx => some (v.setX (v.x + 1))
  | .iny => some (v.setY (v.y + 1))
  | .dex => some (v.setX (v.x - 1))
  | .dey => some (v.setY (v.y - 1))
  | .asl => v.change? (fun n => UInt8.ofNat (2 * n.toNat)) isNegative arg
  | .lsr => v.change? (fun n => UInt8.ofNat (n.toNat / 2)) (fun n => n.toNat % 2 = 1) arg
  | .rol => v.change? (fun n => UInt8.ofNat (2 * n.toNat + bit v.carry)) isNegative arg
  | .ror =>
    v.change? (fun n => UInt8.ofNat (n.toNat / 2 + 128 * bit v.carry)) (fun n =>
      n.toNat % 2 = 1) arg
  | .clc => some (v.setCarry false)
  | .sec => some (v.setCarry true)
  | _ => none

/-- Whether a conditional branch is taken. -/
def takes? (v : View) : Mnemonic → Option Bool
  | .bcc => some (!v.carry)
  | .bcs => some v.carry
  | .beq => some v.zero
  | .bne => some (!v.zero)
  | .bmi => some v.negative
  | .bpl => some (!v.negative)
  | .bvc => some (!v.overflow)
  | .bvs => some v.overflow
  | _ => none

/-- Such an instruction leaves the memory behind the stack page alone. -/
theorem exec_main {v v' : View} {mn : Mnemonic} {arg : Arg} (h : v.exec mn arg = some v') :
    v'.main = v.main ∧ v'.chrout = v.chrout ∧ v'.plot = v.plot := by
  cases mn <;> simp only [exec, Option.map_eq_some_iff, reduceCtorEq] at h
  case sta | stx | sty =>
    cases arg <;> cases h
    exact ⟨rfl, rfl, rfl⟩
  case inc | dec | asl | lsr | rol | ror =>
    cases arg <;> cases h <;> exact ⟨rfl, rfl, rfl⟩
  case tax | tay | txa | tya | pha | pla | inx | iny | dex | dey | clc | sec =>
    cases h
    exact ⟨rfl, rfl, rfl⟩
  all_goals
    obtain ⟨n, -, rfl⟩ := h
    exact ⟨rfl, rfl, rfl⟩

theorem exec_of_inverse? {v : View} {mn inverse : Mnemonic} (h : mn.inverse? = some inverse)
    (arg : Arg) : v.exec mn arg = none := by
  cases mn <;> first | cases h; done | rfl

end View

/-- The processor is in a state with a given view. -/
structure Cpu.Shows (c : Cpu) (v : View) : Prop where
  a : c.a = v.a
  x : c.x = v.x
  y : c.y = v.y
  sp : c.sp = v.sp
  carry : c.flag .carry = v.carry
  zero : c.flag .zero = v.zero
  negative : c.flag .negative = v.negative
  overflow : c.flag .overflow = v.overflow
  zp : ∀ i : UInt8, c.read i.toUInt16 = v.zp i
  stack : ∀ i : UInt8, c.read (stackSlot i) = v.stack i
  main : ∀ address : UInt16, mainBase ≤ address.toNat → c.read address = v.main address
  chrout : c.chrout = v.chrout
  plot : c.plot = v.plot
  output : c.output = v.output
  row : c.row = v.row
  column : c.column = v.column

/-- The view of a processor. -/
def Cpu.view (c : Cpu) : View where
  a := c.a
  x := c.x
  y := c.y
  sp := c.sp
  carry := c.flag .carry
  zero := c.flag .zero
  negative := c.flag .negative
  overflow := c.flag .overflow
  zp i := c.read i.toUInt16
  stack i := c.read (stackSlot i)
  main := c.read
  chrout := c.chrout
  plot := c.plot
  output := c.output
  row := c.row
  column := c.column

theorem Cpu.shows_view (c : Cpu) : c.Shows c.view := by
  constructor <;> intros <;> rfl

namespace Cpu

/-! ## Addresses -/

theorem toNat_stackSlot (i : UInt8) : (stackSlot i).toNat = 0x100 + i.toNat := by
  have := i.toNat_lt
  simp [stackSlot]
  omega

theorem zp_ne_stackSlot (i j : UInt8) : i.toUInt16 ≠ stackSlot j := by
  intro h
  have := congrArg UInt16.toNat h
  rw [toNat_stackSlot, UInt8.toNat_toUInt16] at this
  have := i.toNat_lt
  omega

theorem zp_ne_main (i : UInt8) {address : UInt16} (h : mainBase ≤ address.toNat) :
    i.toUInt16 ≠ address := by
  rintro rfl
  have := i.toNat_lt
  rw [UInt8.toNat_toUInt16, mainBase] at h
  omega

theorem stackSlot_ne_main (i : UInt8) {address : UInt16} (h : mainBase ≤ address.toNat) :
    stackSlot i ≠ address := by
  rintro rfl
  have := i.toNat_lt
  rw [toNat_stackSlot, mainBase] at h
  omega

theorem toUInt16_inj {i j : UInt8} : i.toUInt16 = j.toUInt16 ↔ i = j := by
  rw [← UInt16.toNat_inj, ← UInt8.toNat_inj, UInt8.toNat_toUInt16, UInt8.toNat_toUInt16]

theorem stackSlot_inj {i j : UInt8} : stackSlot i = stackSlot j ↔ i = j := by
  rw [← UInt16.toNat_inj, ← UInt8.toNat_inj, toNat_stackSlot, toNat_stackSlot]
  omega

theorem read_write (m : Memory) (a b : UInt16) (n : UInt8) :
    (m.write a n).read b = if b = a then n else m.read b := by
  by_cases h : b = a
  · subst h
    simp
  · rw [if_neg h, Memory.read_write_of_ne m n (Ne.symm h)]

namespace Shows

variable {c : Cpu} {v : View}

/-! ## What the parts of an instruction do -/

theorem flags (h : c.Shows v) (n : UInt8) : { c with p := withValue c.p n }.Shows (v.flags n) :=
  { h with
    carry := by simpa [flag, hasFlag_withValue, View.flags] using h.carry
    zero := by simp [flag, hasFlag_withValue, View.flags]
    negative := by simp [flag, hasFlag_withValue, View.flags]
    overflow := by simpa [flag, hasFlag_withValue, View.flags] using h.overflow }

theorem setA (h : c.Shows v) (n : UInt8) : (c.setA n).Shows (v.setA n) :=
  { h.flags n with a := rfl }

theorem setX (h : c.Shows v) (n : UInt8) : (c.setX n).Shows (v.setX n) :=
  { h.flags n with x := rfl }

theorem setY (h : c.Shows v) (n : UInt8) : (c.setY n).Shows (v.setY n) :=
  { h.flags n with y := rfl }

theorem setCarry (h : c.Shows v) (on : Bool) :
    { c with p := withFlag c.p .carry on }.Shows (v.setCarry on) :=
  { h with
    carry := by simp [flag, hasFlag_withFlag]
    zero := by simpa [flag, hasFlag_withFlag] using h.zero
    negative := by simpa [flag, hasFlag_withFlag] using h.negative
    overflow := by simpa [flag, hasFlag_withFlag] using h.overflow }

theorem setOverflow (h : c.Shows v) (on : Bool) :
    { c with p := withFlag c.p .overflow on }.Shows (v.setOverflow on) :=
  { h with
    carry := by simpa [flag, hasFlag_withFlag] using h.carry
    zero := by simpa [flag, hasFlag_withFlag] using h.zero
    negative := by simpa [flag, hasFlag_withFlag] using h.negative
    overflow := by simp [flag, hasFlag_withFlag] }

theorem store (h : c.Shows v) (z n : UInt8) : (c.write z.toUInt16 n).Shows (v.store z n) :=
  { h with
    zp := fun i => by
      have := h.zp i
      simp only [read] at this
      simp [Cpu.write, read, read_write, toUInt16_inj, View.store, Function.update_apply, this]
    stack := fun i => (Memory.read_write_of_ne _ _ (zp_ne_stackSlot z i)).trans (h.stack i)
    main := fun address hmain =>
      (Memory.read_write_of_ne _ _ (zp_ne_main z hmain)).trans (h.main address hmain) }

theorem poke (h : c.Shows v) {address : UInt16} (hmain : mainBase ≤ address.toNat) (n : UInt8) :
    (c.write address n).Shows (v.poke address n) :=
  { h with
    zp := fun i => (Memory.read_write_of_ne _ _ (zp_ne_main i hmain).symm).trans (h.zp i)
    stack := fun i =>
      (Memory.read_write_of_ne _ _ (stackSlot_ne_main i hmain).symm).trans (h.stack i)
    main := fun b hb => by
      have := h.main b hb
      simp only [read] at this
      simp [Cpu.write, read, read_write, View.poke, Function.update_apply, this] }

theorem push (h : c.Shows v) (n : UInt8) : (c.push n).Shows (v.push n) :=
  { h with
    sp := by simp [Cpu.push, View.push, h.sp]
    zp := fun i => (Memory.read_write_of_ne _ _ (zp_ne_stackSlot i _).symm).trans (h.zp i)
    stack := fun i => by
      have := h.stack i
      simp only [read] at this
      simp [Cpu.push, read, read_write, stackSlot_inj, View.push, Function.update_apply, h.sp, this]
    main := fun address hmain =>
      (Memory.read_write_of_ne _ _ (stackSlot_ne_main _ hmain)).trans (h.main address hmain) }

theorem pull (h : c.Shows v) : c.pull.1.Shows v.drop ∧ c.pull.2 = v.top := by
  have hsp : c.sp + 1 = v.sp + 1 := by rw [h.sp]
  refine ⟨{ h with sp := hsp }, ?_⟩
  rw [View.top, ← hsp]
  exact h.stack _

theorem add (h : c.Shows v) (n : UInt8) : (c.addWithCarry n).Shows (v.add n) := by
  have hcarry : hasFlag c.p .carry = v.carry := h.carry
  have hadd : c.addWithCarry n =
      { c with
          p := withFlag (withFlag c.p .overflow (overflows v.a n v.carry)) .carry
            (256 ≤ v.a.toNat + n.toNat + bit v.carry) }.setA
        (UInt8.ofNat (v.a.toNat + n.toNat + bit v.carry)) := by
    simp only [addWithCarry, and_one_eq, hcarry, toUInt8_sum, carry_sum, overflow_sum, h.a]
  rw [hadd]
  exact ((h.setOverflow _).setCarry _).setA _

theorem compare (h : c.Shows v) (register n : UInt8) :
    (c.compare register n).Shows (v.compare register n) := by
  have := (h.setCarry (decide (n.toNat ≤ register.toNat))).flags (register - n)
  simpa [Cpu.compare, View.compare, UInt8.le_iff_toNat_le] using this

/-! ## Instructions -/

/-- The bytes of an operand stand behind the opcode at `pos`. -/
def Fetches (c : Cpu) (pos : UInt16) : Arg → Prop
  | .immediate n | .zeroPage n => c.read (pos + 1) = n
  | .absolute r => r.isLabel = false → wordOf (c.read (pos + 1)) (c.read (pos + 2)) = r.address
  | _ => True

theorem operand (h : c.Shows v) {arg : Arg} {pos : UInt16} (hfetch : Fetches c pos arg) {n : UInt8}
    (hn : v.operand? arg = some n) : c.operand arg.mode pos = n := by
  cases arg with
  | immediate m =>
    obtain rfl := Option.some.inj hn
    exact hfetch
  | zeroPage z =>
    obtain rfl := Option.some.inj hn
    rw [← h.zp z]
    exact congrArg (fun lo => c.read lo.toUInt16) hfetch
  | absolute r =>
    simp only [View.operand?] at hn
    split at hn
    next hr =>
      obtain rfl := Option.some.inj hn
      simp only [Bool.and_eq_true, Bool.not_eq_true', decide_eq_true_eq] at hr
      rw [← h.main _ hr.2]
      exact congrArg c.read (hfetch hr.1)
    next => cases hn
  | _ => cases hn

theorem store? (h : c.Shows v) {arg : Arg} {pos : UInt16} (hfetch : Fetches c pos arg) {n : UInt8}
    {v' : View} (hv : v.store? n arg = some v') :
    (c.write (c.effectiveAddress arg.mode pos) n).Shows v' := by
  cases arg with
  | zeroPage z =>
    obtain rfl := Option.some.inj hv
    have : c.effectiveAddress .zeroPage pos = z.toUInt16 := congrArg UInt8.toUInt16 hfetch
    rw [Arg.mode, this]
    exact h.store z n
  | _ => cases hv

theorem modify (h : c.Shows v) {arg : Arg} {pos : UInt16} (hfetch : Fetches c pos arg) {v' : View}
    {f : UInt8 → UInt8} {carry : UInt8 → Bool} {g : UInt8 → UInt8 → UInt8 × UInt8}
    (hg : ∀ n, g c.p n = (f n, withFlag c.p .carry (carry n)))
    (hv : v.change? f carry arg = some v') : (c.modify arg.mode pos g).Shows v' := by
  cases arg with
  | accumulator =>
    obtain rfl := Option.some.inj hv
    simp only [Cpu.modify, Arg.mode, if_true, hg, ← h.a]
    exact (h.setCarry _).setA _
  | zeroPage z =>
    obtain rfl := Option.some.inj hv
    have haddress : c.effectiveAddress .zeroPage pos = z.toUInt16 := congrArg UInt8.toUInt16 hfetch
    have hread : c.read z.toUInt16 = v.zp z := h.zp z
    simp only [Cpu.modify, Arg.mode, reduceCtorEq, if_false, haddress, hg, hread]
    exact ((h.setCarry _).store z _).flags _
  | _ => cases hv

theorem modify_pc (c : Cpu) (mode : Mode) (pos : UInt16) (g : UInt8 → UInt8 → UInt8 × UInt8) :
    (c.modify mode pos g).pc = c.pc := by
  simp only [Cpu.modify]
  split <;> rfl

/-- The processor executes an instruction as its view does. -/
theorem execute (h : c.Shows v) (op : Opcode) {arg : Arg} {pos : UInt16}
    (hmode : op.mode = arg.mode)
    (hfetch : Fetches c pos arg) {v' : View} (hexec : v.exec op.mnemonic arg = some v') :
    ∃ c', c.execute op pos = (c', none) ∧ c'.Shows v' ∧ c'.pc = c.pc := by
  have hcarry : hasFlag c.p .carry = v.carry := h.carry
  obtain ⟨code, mn, mode, cycles⟩ := op
  obtain rfl : mode = arg.mode := hmode
  cases mn <;> simp only [View.exec, Option.map_eq_some_iff, reduceCtorEq] at hexec
  case lda | ldx | ldy | adc | sbc =>
    obtain ⟨n, hn, rfl⟩ := hexec
    refine ⟨_, rfl, ?_, rfl⟩
    rw [h.operand hfetch hn]
    first
    | exact h.setA _
    | exact h.setX _
    | exact h.setY _
    | exact h.add _
  case and | ora | eor | cmp | cpy =>
    obtain ⟨n, hn, rfl⟩ := hexec
    refine ⟨_, rfl, ?_, rfl⟩
    rw [h.operand hfetch hn]
    simp only [h.a, h.y]
    first
    | exact h.setA _
    | exact h.compare _ _
  case sta | stx | sty =>
    refine ⟨_, rfl, ?_, rfl⟩
    simp only [h.a, h.x, h.y]
    exact h.store? hfetch hexec
  case tax | tay | txa | tya | inx | iny | dex | dey =>
    obtain rfl := Option.some.inj hexec
    refine ⟨_, rfl, ?_, rfl⟩
    simp only [h.a, h.x, h.y]
    first
    | exact h.setA _
    | exact h.setX _
    | exact h.setY _
  case pha =>
    obtain rfl := Option.some.inj hexec
    refine ⟨_, rfl, ?_, rfl⟩
    rw [← h.a]
    exact h.push _
  case pla =>
    obtain rfl := Option.some.inj hexec
    refine ⟨_, rfl, ?_, rfl⟩
    rw [← h.pull.2]
    exact h.pull.1.setA _
  case clc | sec =>
    obtain rfl := Option.some.inj hexec
    exact ⟨_, rfl, h.setCarry _, rfl⟩
  case inc | dec =>
    refine ⟨_, rfl, h.modify hfetch (fun n => ?_) hexec, modify_pc ..⟩
    rw [← hcarry, withFlag_hasFlag]
  case asl | lsr =>
    refine ⟨_, rfl, h.modify hfetch (fun n => ?_) hexec, modify_pc ..⟩
    simp only [and_0x80, and_one, shiftLeft_one, shiftRight_one]
  case rol | ror =>
    refine ⟨_, rfl, h.modify hfetch (fun n => ?_) hexec, modify_pc ..⟩
    rw [and_one_eq c.p, hcarry]
    simp only [and_0x80, and_one, rotateLeft, rotateRight]

end Shows

end Cpu

end Breadbin.Machine
