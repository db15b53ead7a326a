import Breadbin.Proofs.Machine.Frame
import Breadbin.Proofs.Machine.Word

/-!
# Storing anywhere

A byte may be stored at any address, also in the first two pages, if it does not hit the code.  What
is stored is read back, and every other byte of the memory is as it was.  Behind the stack page a
value of one or two bytes is read and replaced, and `View.Keeps` says that what waits on the stack
is kept.
-/

namespace Breadbin.Machine

open Assembly

/-- Stores a byte at any address. -/
def View.write (v : View) (address : UInt16) (n : UInt8) : View :=
  if address.toNat < 0x100 then v.store (UInt8.ofNat address.toNat) n
  else if address.toNat < mainBase then
    { v with stack := Function.update v.stack (UInt8.ofNat (address.toNat - 0x100)) n }
  else v.poke address n

namespace View

variable (v : View) (address : UInt16) (n : UInt8)

/-- Behind the stack page a byte is stored like any other one there. -/
theorem write_main {address : UInt16} (h : mainBase ≤ address.toNat) :
    v.write address n = v.poke address n := by
  have : (0x100 : Nat) ≤ mainBase := by decide
  rw [write, if_neg (by omega), if_neg (by omega)]

theorem peek_main {address : UInt16} (h : mainBase ≤ address.toNat) :
    v.peek address = v.main address := by
  have : (0x100 : Nat) ≤ mainBase := by decide
  rw [peek, if_neg (by omega), if_neg (by omega)]

/-- The registers do not change. -/
theorem write_registers : (v.write address n).a = v.a ∧ (v.write address n).x = v.x ∧
    (v.write address n).y = v.y ∧ (v.write address n).sp = v.sp := by
  unfold write
  split
  · exact ⟨rfl, rfl, rfl, rfl⟩
  · split <;> exact ⟨rfl, rfl, rfl, rfl⟩

@[simp] theorem write_a : (v.write address n).a = v.a := (v.write_registers address n).1

@[simp] theorem write_x : (v.write address n).x = v.x := (v.write_registers address n).2.1

@[simp] theorem write_y : (v.write address n).y = v.y := (v.write_registers address n).2.2.1

@[simp] theorem write_sp : (v.write address n).sp = v.sp := (v.write_registers address n).2.2.2

theorem ofNat_inj_of_lt {i j : Nat} (hi : i < 256) (hj : j < 256) :
    UInt8.ofNat i = UInt8.ofNat j ↔ i = j := by
  rw [← UInt8.toNat_inj, UInt8.toNat_ofNat', UInt8.toNat_ofNat']
  omega

/-- What is stored is there. -/
theorem peek_write_self : (v.write address n).peek address = n := by
  unfold write peek
  by_cases hzero : address.toNat < 0x100
  · simp only [hzero, if_true, store, Function.update_self]
  · by_cases hstack : address.toNat < mainBase
    · simp only [hzero, hstack, if_true, if_false, Function.update_self]
    · simp only [hzero, hstack, if_false, poke, Function.update_self]

/-- Every other byte is as it was. -/
theorem peek_write_of_ne {other : UInt16} (hne : other ≠ address) :
    (v.write address n).peek other = v.peek other := by
  have hbase : mainBase = 0x200 := rfl
  have hnat : other.toNat ≠ address.toNat := fun heq => hne (UInt16.toNat_inj.1 heq)
  unfold write peek
  by_cases hzero : address.toNat < 0x100
  · by_cases hother : other.toNat < 0x100
    · have hslot : UInt8.ofNat other.toNat ≠ UInt8.ofNat address.toNat :=
        fun heq => hnat ((ofNat_inj_of_lt hother hzero).1 heq)
      simp only [hzero, hother, if_true, store, Function.update_of_ne hslot]
    · simp only [hzero, hother, if_true, if_false, store]
  · by_cases hstack : address.toNat < mainBase
    · by_cases hother : other.toNat < 0x100
      · simp only [hzero, hstack, hother, if_true, if_false]
      · by_cases hother' : other.toNat < mainBase
        · have hslot : UInt8.ofNat (other.toNat - 0x100) ≠ UInt8.ofNat (address.toNat - 0x100) := by
            rw [Ne, ofNat_inj_of_lt (by omega) (by omega)]
            omega
          simp only [hzero, hstack, hother, hother', if_true, if_false, Function.update_of_ne hslot]
        · simp only [hzero, hstack, hother, hother', if_true, if_false]
    · simp only [hzero, hstack, if_false, poke, Function.update_of_ne hne]

end View

theorem Cpu.Shows.write {c : Cpu} {v : View} (h : c.Shows v) (address : UInt16) (n : UInt8) :
    (c.write address n).Shows (v.write address n) := by
  have hlt := address.toNat_lt
  unfold View.write
  split
  next hzero =>
    have haddress : (UInt8.ofNat address.toNat).toUInt16 = address := by
      rw [← UInt16.toNat_inj, UInt8.toNat_toUInt16, UInt8.toNat_ofNat']
      omega
    have hstore := h.store (UInt8.ofNat address.toNat) n
    rwa [haddress] at hstore
  next hzero =>
    split
    next hstack =>
      have haddress : stackSlot (UInt8.ofNat (address.toNat - 0x100)) = address := by
        rw [mainBase] at hstack
        rw [← UInt16.toNat_inj, toNat_stackSlot, UInt8.toNat_ofNat']
        omega
      exact { h with
        zp := fun i => (Memory.read_write_of_ne _ _ (haddress ▸ (zp_ne_stackSlot i _).symm)).trans
          (h.zp i)
        stack := fun i => by
          have hold := h.stack i
          simp only [read] at hold
          simp only [Cpu.write, read, read_write, Function.update_apply]
          rw [hold]
          refine if_congr ?_ rfl rfl
          rw [← stackSlot_inj, haddress]
        main := fun other hother =>
          (Memory.read_write_of_ne _ _ (haddress ▸ stackSlot_ne_main _ hother)).trans
            (h.main other hother) }
    next hstack => exact h.poke (by omega) n

namespace LinkedCode

variable {code : LinkedCode} {a b : Nat} {v : View}

theorem Intact.write (h : code.Intact v) {address : UInt16}
    (hfree : ¬code.Covers address.toNat) (n : UInt8) :
    code.Intact (v.write address n) := by
  unfold View.write
  split
  · exact h.of_main rfl rfl rfl
  · split
    · exact h.of_main rfl rfl rfl
    · exact h.poke hfree n

/-- An instruction that stores and does not hit the code. -/
theorem Installed.write {mn : Mnemonic} {arg : Arg}
    (h : code.Installed a [.instr mn arg] b) {n : UInt8}
    (hn : v.giveOut? mn = some n) {address : UInt16} (haddress : code.address? v arg = some address)
    (hfree : ¬code.Covers address.toNat) : code.Reaches 1 a v b (v.write address n) := by
  have hbranch : arg.branch? = none := by
    cases arg <;> first | rfl | cases haddress
  obtain ⟨op, known, hcontains, rfl, hfits⟩ := h.instr hbranch
  refine reaches_of_step hcontains (by simp) fun c hc => ?_
  obtain ⟨cycles, d, hstep, hd, hpc, hread⟩ := hc.execute known hcontains
  have hmemory := effectiveAddress hd hread hfits haddress
  have hexecute : d.execute ⟨op, mn, arg.mode, cycles⟩ c.pc = (d.write address n, none) := by
    cases mn <;> cases hn <;> simp only [Cpu.execute, hmemory, hd.a, hd.x, hd.y]
  exact ⟨_, hstep.trans hexecute, hd.write address n, hpc, hc.intact.write hfree n⟩

/-- The address of a reference without a label. -/
theorem address?_fixed (code : LinkedCode) (v : View) (address : UInt16) :
    code.address? v (.absolute (.fixed address)) = some address := by
  show some (UInt16.ofNat address.toNat) = _
  rw [UInt16.ofNat_toNat]

end LinkedCode

end Breadbin.Machine

/-! ## The memory behind the stack page -/

namespace Breadbin.Machine

open Assembly

/-- The address is one of those of a value. -/
def Within (address : UInt16) (wide : Bool) (other : UInt16) : Prop :=
  other = address ∨ wide = true ∧ other = address + 1

theorem next_ne (address : UInt16) : address + 1 ≠ address := by
  rw [Ne, ← UInt16.toNat_inj, UInt16.toNat_add, UInt16.toNat_one]
  have := address.toNat_lt
  omega

/-! ## Values -/

/-- The contents of the memory behind the stack page. -/
abbrev Contents := UInt16 → UInt8

/-- How many bytes a value has. -/
def width (wide : Bool) : Nat := if wide then 2 else 1

namespace Contents

/-- The value at an address. -/
def get (m : Contents) (address : UInt16) (wide : Bool) : UInt16 :=
  if wide then Cpu.wordOf (m address) (m (address + 1)) else (m address).toUInt16

/-- A value is put at an address. -/
def set (m : Contents) (address : UInt16) (wide : Bool) (n : UInt16) : Contents :=
  if wide then Function.update (Function.update m address n.toUInt8) (address + 1) (n >>> 8).toUInt8
  else Function.update m address n.toUInt8

variable (m : Contents) (address : UInt16) (wide : Bool) (n : UInt16)

/-- What was put is there. -/
theorem get_set (hn : wide = false → n.toNat < 256) :
    (m.set address wide n).get address wide = n := by
  cases wide with
  | true =>
    have hlow : Function.update (Function.update m address n.toUInt8) (address + 1)
        (n >>> 8).toUInt8 address =
        n.toUInt8 := by
      rw [Function.update_of_ne (next_ne address).symm, Function.update_self]
    simp only [get, set, if_true, hlow, Function.update_self]
    apply UInt16.toNat_inj.1
    have hhigh : (n >>> 8).toUInt8.toNat = n.toNat / 256 % 256 := by
      rw [UInt16.toNat_toUInt8, UInt16.toNat_shiftRight, Nat.shiftRight_eq_div_pow]
      rfl
    have := n.toNat_lt
    rw [LinkedCode.toNat_wordOf, hhigh, UInt16.toNat_toUInt8]
    omega
  | false =>
    have := hn rfl
    simp only [get, set, Bool.false_eq_true, if_false, Function.update_self]
    apply UInt16.toNat_inj.1
    rw [UInt8.toNat_toUInt16, UInt16.toNat_toUInt8]
    omega

/-- The rest of the memory is as it was. -/
theorem set_of_not_within {other : UInt16} (h : ¬Within address wide other) :
    m.set address wide n other = m other := by
  obtain ⟨hne, hnext⟩ := not_or.1 h
  cases wide with
  | true =>
    have hne' : other ≠ address + 1 := fun heq => hnext ⟨rfl, heq⟩
    simp only [set, if_true]
    rw [Function.update_of_ne hne', Function.update_of_ne hne]
  | false => exact Function.update_of_ne hne _ _

/-- A value is known by its bytes. -/
theorem get_congr {m m' : Contents} {address : UInt16} {wide : Bool}
    (h : ∀ byte, Within address wide byte → m byte = m' byte) :
    m.get address wide = m'.get address wide := by
  have hfirst := h address (.inl rfl)
  cases wide with
  | true =>
    have hnext := h (address + 1) (.inr ⟨rfl, rfl⟩)
    simp only [get, if_true, hfirst, hnext]
  | false => simp only [get, Bool.false_eq_true, if_false, hfirst]

/-- A value that lies elsewhere is as it was. -/
theorem get_set_of_apart {other : UInt16}
    (h : ∀ byte, Within other wide byte → ¬Within address wide byte) :
    (m.set address wide n).get other wide = m.get other wide :=
  get_congr fun byte hbyte => m.set_of_not_within address wide n (h byte hbyte)

end Contents

/-! ## What waits on the stack -/

/-- The stack pointer is back, and only the next `depth` bytes below it may have changed on the
stack. -/
structure View.Keeps (depth : Nat) (v w : View) : Prop where
  sp : w.sp = v.sp
  stack : ∀ i : UInt8, depth ≤ (v.sp - i).toNat → w.stack i = v.stack i

namespace View

variable {u v w : View} {d e : Nat} {slots : List UInt8}

theorem Frame.keeps (h : v.Frame d slots w) : v.Keeps d w := ⟨h.sp, h.stack⟩

theorem Keeps.refl (v : View) : v.Keeps 0 v := ⟨rfl, fun _ _ => rfl⟩

theorem Keeps.mono (h : v.Keeps d w) (hd : d ≤ e) : v.Keeps e w :=
  ⟨h.sp, fun i hi => h.stack i (Nat.le_trans hd hi)⟩

theorem Keeps.trans (h : u.Keeps d v) (h' : v.Keeps d w) : u.Keeps d w :=
  ⟨h'.sp.trans h.sp, fun i hi => (h'.stack i (by rwa [h.sp])).trans (h.stack i hi)⟩

/-- A byte that waits on the stack is kept, and may be pulled again. -/
theorem Keeps.push {n : UInt8} (h : (v.push n).Keeps d w) (hd : d ≤ 255) :
    w.top = n ∧ v.Keeps (d + 1) w.drop := by
  -- the memory and the slots play no part in the argument for frames
  have hframe : (v.push n).Frame d [] { w with main := v.main, zp := v.zp } :=
    ⟨h.sp, rfl, fun _ _ => rfl, h.stack⟩
  obtain ⟨htop, hdrop⟩ := hframe.push hd
  exact ⟨htop, hdrop.sp, hdrop.stack⟩

/-- The value waits on the stack, the low byte above the high one. -/
def pushed (v : View) (wide : Bool) : View :=
  if wide then ((v.push v.a).setA v.x).push v.x else v.push v.a

theorem pushed_main (v : View) (wide : Bool) :
    (v.pushed wide).main = v.main := by cases wide <;> rfl

end View

end Breadbin.Machine
