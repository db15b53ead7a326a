import Breadbin.Text.Bytes

/-!
# Memory

The processor sees 65536 bytes; addresses wrap around.
-/

namespace Breadbin

/-- The bytes of the whole address space. -/
structure Memory where
  cells : Vector UInt8 65536
  deriving Inhabited

namespace Memory

/-- Memory full of zeros. -/
def zero : Memory := ⟨Vector.replicate 65536 0⟩

/-- The byte at an address. -/
@[inline] def read (m : Memory) (a : UInt16) : UInt8 :=
  have : a.toNat < 65536 := a.toNat_lt
  m.cells[a.toNat]

/-- Stores a byte at an address. -/
@[inline] def write (m : Memory) (a : UInt16) (v : UInt8) : Memory :=
  ⟨m.cells.set a.toNat v a.toNat_lt⟩

/-- The word whose low byte is at an address. -/
def readWord (m : Memory) (a : UInt16) : UInt16 :=
  (m.read a).toUInt16 + (m.read (a + 1)).toUInt16 * 256

/-- Stores a word, low byte first. -/
def writeWord (m : Memory) (a v : UInt16) : Memory :=
  (m.write a v.toUInt8).write (a + 1) (v >>> 8).toUInt8

/-- Stores bytes from an address on. -/
def writeBytes (m : Memory) (a : UInt16) : Bytes → Memory
  | [] => m
  | b :: rest => (m.write a b).writeBytes (a + 1) rest

/-- `n` bytes from an address on. -/
def readBytes (m : Memory) (a : UInt16) (n : Nat) : Bytes :=
  (List.range n).map fun i => m.read (a + UInt16.ofNat i)

/-- The bytes up to the next zero, at most `n`. -/
def readString (m : Memory) (a : UInt16) : (n : Nat) → Bytes
  | 0 => []
  | n + 1 =>
    let b := m.read a
    if b = 0 then [] else b :: m.readString (a + 1) n

@[simp] theorem read_write_self (m : Memory) (a : UInt16) (v : UInt8) :
    (m.write a v).read a = v := by
  simp [read, write]

theorem read_write_of_ne (m : Memory) {a b : UInt16} (v : UInt8) (h : a ≠ b) :
    (m.write a v).read b = m.read b := by
  have : a.toNat ≠ b.toNat := fun e => h (UInt16.toNat_inj.1 e)
  simp [read, write, this]

end Memory

end Breadbin
