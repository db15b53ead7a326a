import Breadbin.Machine.Execute
import Mathlib.Data.Nat.Bitwise

/-!
# Bytes and flags

The processor is written with bit operations.  Here they are told in numbers: the negative flag is
the upper half of the bytes, a shift doubles or halves, and an addition overflows when its signed
sum is no signed byte.
-/

namespace Breadbin.Machine

/-- What holds of every byte is checked on 256 numbers. -/
theorem forall_byte {P : UInt8 → Prop} (h : ∀ n < 256, P (UInt8.ofNat n)) (x : UInt8) : P x := by
  have := h x.toNat x.toNat_lt
  rwa [UInt8.ofNat_toNat] at this

/-- Whether a byte is negative when it is read with a sign. -/
def isNegative (x : UInt8) : Bool := 128 ≤ x.toNat

/-- A byte read with a sign. -/
def signed (x : UInt8) : Int := if isNegative x then x.toNat - 256 else x.toNat

/-- A carry as a number. -/
abbrev bit (b : Bool) : Nat := b.toNat

/-- One bit of a byte. -/
theorem and_bit (x : UInt8) (k : Nat) (hk : k < 8) :
    (x &&& UInt8.ofNat (2 ^ k)).toNat = if x.toNat / 2 ^ k % 2 = 0 then 0 else 2 ^ k := by
  have hlt := Nat.pow_lt_pow_right (a := 2) (by decide) hk
  rw [UInt8.toNat_and, UInt8.toNat_ofNat', Nat.mod_eq_of_lt hlt, Nat.and_two_pow,
    Nat.testBit_eq_decide_div_mod_eq]
  by_cases hbit : x.toNat / 2 ^ k % 2 = 0
  · rw [if_pos hbit, hbit]
    simp
  · rw [if_neg hbit, decide_eq_true (by omega)]
    simp

theorem and_bit_beq (x : UInt8) (k : Nat) (hk : k < 8) :
    (x &&& UInt8.ofNat (2 ^ k) == 0) = decide (x.toNat / 2 ^ k % 2 = 0) := by
  have hpos : 0 < 2 ^ k := Nat.pos_of_ne_zero (by simp)
  rw [Bool.eq_iff_iff, beq_iff_eq, decide_eq_true_eq, ← UInt8.toNat_inj,
    and_bit x k hk, UInt8.toNat_zero]
  split <;> omega

theorem and_0x80_eq (x : UInt8) : x &&& 0x80 = if 128 ≤ x.toNat then 0x80 else 0 := by
  have hbit := and_bit x 7 (by decide)
  have := x.toNat_lt
  apply UInt8.toNat_inj.1
  rw [show (0x80 : UInt8) = UInt8.ofNat (2 ^ 7) from rfl, hbit, apply_ite UInt8.toNat]
  by_cases hhigh : 128 ≤ x.toNat
  · rw [if_pos hhigh, if_neg (by omega)]
    rfl
  · rw [if_neg hhigh, if_pos (by omega)]
    rfl

theorem and_0x80 (x : UInt8) : (x &&& 0x80 != 0) = isNegative x := by
  rw [and_0x80_eq, isNegative]
  by_cases hhigh : 128 ≤ x.toNat <;> simp [hhigh]

theorem and_one (x : UInt8) : (x &&& 1 != 0) = decide (x.toNat % 2 = 1) := by
  have h : (x &&& 1).toNat = x.toNat % 2 := by simp [Nat.and_one_is_mod]
  rw [Bool.eq_iff_iff, bne_iff_ne, ne_eq, ← UInt8.toNat_inj, h, decide_eq_true_eq, UInt8.toNat_zero]
  omega

theorem shiftLeft_one (x : UInt8) : x <<< 1 = UInt8.ofNat (2 * x.toNat) := by
  apply UInt8.toNat_inj.1
  simp [UInt8.toNat_shiftLeft, Nat.shiftLeft_eq, Nat.mul_comm]

theorem shiftRight_one (x : UInt8) : x >>> 1 = UInt8.ofNat (x.toNat / 2) := by
  apply UInt8.toNat_inj.1
  have := x.toNat_lt
  simp [UInt8.toNat_shiftRight, Nat.shiftRight_eq_div_pow]
  omega

theorem rotateLeft (x : UInt8) (carry : Bool) :
    (x <<< 1) ||| UInt8.ofNat (bit carry) = UInt8.ofNat (2 * x.toNat + bit carry) := by
  apply UInt8.toNat_inj.1
  have h := Nat.shiftLeft_add_eq_or_of_lt (b := bit carry) (i := 1) (by cases carry <;> decide)
    (x.toNat % 128)
  rw [shiftLeft_one]
  rw [Nat.shiftLeft_eq] at h
  have e : 2 * x.toNat % 256 = x.toNat % 128 * 2 ^ 1 := by omega
  have c : bit carry < 2 := by cases carry <;> decide
  simp only [UInt8.toNat_or, UInt8.toNat_ofNat', e]
  rw [Nat.mod_eq_of_lt (a := bit carry) (by omega), ← h]
  omega

theorem rotateRight (x : UInt8) (carry : Bool) :
    (x >>> 1) ||| (UInt8.ofNat (bit carry) <<< 7) =
      UInt8.ofNat (x.toNat / 2 + 128 * bit carry) := by
  apply UInt8.toNat_inj.1
  have := x.toNat_lt
  have h := Nat.shiftLeft_add_eq_or_of_lt (b := x.toNat / 2) (i := 7) (by omega) (bit carry)
  have hcarry : (UInt8.ofNat (bit carry) <<< 7).toNat = bit carry <<< 7 := by cases carry <;> rfl
  have hbit : bit carry < 2 := by cases carry <;> decide
  rw [shiftRight_one, UInt8.toNat_or, hcarry, Nat.or_comm]
  simp only [UInt8.toNat_ofNat']
  rw [Nat.mod_eq_of_lt (a := x.toNat / 2) (by omega), ← h, Nat.shiftLeft_eq]
  omega

@[simp] theorem xor_0xFF (x : UInt8) : x ^^^ 0xFF = ~~~x := UInt8.xor_neg_one

theorem toNat_complement (x : UInt8) : (~~~x).toNat = 255 - x.toNat := by
  rw [UInt8.toNat_not]
  rfl

/-- Counting down. -/
theorem toNat_sub_one {n : UInt8} {k : Nat} (h : n.toNat = k + 1) : (n - 1).toNat = k := by
  have := n.toNat_lt
  simp only [UInt8.toNat_sub, UInt8.toNat_one]
  omega

theorem eq_zero_iff {n : UInt8} : n = 0 ↔ n.toNat = 0 := UInt8.toNat_inj.symm

/-! ## Masks -/

theorem and_low (x : UInt8) (k : Nat) (hk : k < 8) :
    (x &&& UInt8.ofNat (2 ^ k - 1)).toNat = x.toNat % 2 ^ k := by
  have hlt : 2 ^ k - 1 < 256 := by
    have := Nat.pow_lt_pow_right (a := 2) (by decide) hk
    omega
  rw [UInt8.toNat_and, UInt8.toNat_ofNat', Nat.mod_eq_of_lt hlt, Nat.and_two_pow_sub_one_eq_mod]

theorem and_0x03 (x : UInt8) : (x &&& 0x03).toNat = x.toNat % 4 := and_low x 2 (by decide)

theorem and_0x07 (x : UInt8) : (x &&& 0x07).toNat = x.toNat % 8 := and_low x 3 (by decide)

theorem and_0x1F (x : UInt8) : (x &&& 0x1F).toNat = x.toNat % 32 := and_low x 5 (by decide)

theorem and_0x7F (x : UInt8) : (x &&& 0x7F).toNat = x.toNat % 128 := and_low x 7 (by decide)

/-- A bit that is set above all others. -/
theorem or_high (x : UInt8) (k : Nat) (hk : k < 8) (hx : x.toNat < 2 ^ k) :
    (x ||| UInt8.ofNat (2 ^ k)).toNat = x.toNat + 2 ^ k := by
  have hlt := Nat.pow_lt_pow_right (a := 2) (by decide) hk
  rw [UInt8.toNat_or, UInt8.toNat_ofNat', Nat.mod_eq_of_lt hlt, Nat.or_comm]
  have hsum := Nat.two_pow_add_eq_or_of_lt hx 1
  rw [Nat.mul_one] at hsum
  rw [← hsum, Nat.add_comm]

/-- Two bits below the others. -/
theorem or_low {x y : UInt8} (hx : x.toNat < 4) (hy : y.toNat % 4 = 0) :
    (x ||| y).toNat = x.toNat + y.toNat := by
  have hsum := Nat.two_pow_add_eq_or_of_lt (i := 2) hx (y.toNat / 4)
  have hquarter : 2 ^ 2 * (y.toNat / 4) = y.toNat := by omega
  rw [hquarter] at hsum
  rw [UInt8.toNat_or, Nat.or_comm, ← hsum, Nat.add_comm]

theorem and_0x20 (x : UInt8) : (x &&& 0x20 == 0) = decide (x.toNat / 32 % 2 = 0) :=
  and_bit_beq x 5 (by decide)

theorem and_0x04 (x : UInt8) : (x &&& 0x04 == 0) = decide (x.toNat / 4 % 2 = 0) :=
  and_bit_beq x 2 (by decide)

theorem and_0x08 (x : UInt8) : (x &&& 0x08 == 0) = decide (x.toNat / 8 % 2 = 0) :=
  and_bit_beq x 3 (by decide)

theorem and_0x40 (x : UInt8) : (x &&& 0x40 == 0) = decide (x.toNat / 64 % 2 = 0) :=
  and_bit_beq x 6 (by decide)

/-- The exponent bits of a half-precision number are compared with all ones. -/
theorem and_0x7C_sub (x : UInt8) : ((x &&& 0x7C) - 0x7C == 0) = decide (x.toNat / 4 % 32 = 31) := by
  revert x
  refine forall_byte ?_
  decide +kernel

theorem or_eq_zero_iff {x y : UInt8} : x ||| y = 0 ↔ x = 0 ∧ y = 0 := by
  rw [← UInt8.toNat_inj, ← UInt8.toNat_inj, ← UInt8.toNat_inj, UInt8.toNat_or]
  exact Nat.or_eq_zero_iff

theorem and_0xC0 (x : UInt8) : (x &&& 0xC0 == 0) = decide (x.toNat < 64) := by
  have h40 := and_bit_beq x 6 (by decide)
  have h80 := and_bit_beq x 7 (by decide)
  have := x.toNat_lt
  have hparts : x &&& 0xC0 = (x &&& UInt8.ofNat (2 ^ 7)) ||| (x &&& UInt8.ofNat (2 ^ 6)) := by
    rw [← UInt8.toNat_inj]
    exact Nat.and_or_distrib_left x.toNat 128 64
  rw [Bool.eq_iff_iff, beq_iff_eq, decide_eq_true_eq] at h40 h80 ⊢
  rw [hparts, or_eq_zero_iff, h40, h80]
  omega

/-- A byte with its lowest bit set. -/
theorem toNat_or_one (x : UInt8) :
    (x ||| 1).toNat = x.toNat + if x.toNat % 2 = 0 then 1 else 0 := by
  revert x
  refine forall_byte ?_
  decide +kernel

/-- The upper bit of a byte is changed. -/
theorem xor_0x80 (x : UInt8) : (x ^^^ 0x80).toNat = (x.toNat + 128) % 256 := by
  revert x
  refine forall_byte ?_
  decide +kernel

theorem sub_beq_zero (x y : UInt8) : (x - y == 0) = decide (x = y) := by
  have := x.toNat_lt
  have := y.toNat_lt
  rw [Bool.eq_iff_iff, beq_iff_eq, decide_eq_true_eq, eq_zero_iff,
    UInt8.toNat_sub, ← UInt8.toNat_inj]
  omega

/-! ## Flags -/

/-- The position of a flag in the status register. -/
def Flag.position : Flag → Nat
  | .carry => 0
  | .zero => 1
  | .interrupt => 2
  | .decimal => 3
  | .break => 4
  | .unused => 5
  | .overflow => 6
  | .negative => 7

theorem hasFlag_eq (p : UInt8) (f : Flag) : hasFlag p f = p.toBitVec.getLsbD f.position := by
  have hposition : f.position < 8 := by cases f <;> decide
  have hmask : f.mask = UInt8.ofNat (2 ^ f.position) := by cases f <;> rfl
  have hbit := and_bit_beq p f.position hposition
  rw [hasFlag, hmask, bne, hbit, BitVec.getLsbD, Nat.testBit_eq_decide_div_mod_eq, ← decide_not,
    decide_eq_decide]
  exact Nat.mod_two_ne_zero

theorem and_one_eq (p : UInt8) : p &&& 1 = UInt8.ofNat (bit (hasFlag p .carry)) := by
  have hbit := and_bit p 0 (by decide)
  rw [hasFlag_eq, BitVec.getLsbD, Nat.testBit_eq_decide_div_mod_eq]
  apply UInt8.toNat_inj.1
  refine hbit.trans ?_
  change _ = (UInt8.ofNat (bit (decide (p.toNat / 2 ^ 0 % 2 = 1)))).toNat
  split
  next heven => rw [heven]; rfl
  next hodd => rw [decide_eq_true (Nat.mod_two_ne_zero.1 hodd)]; rfl

theorem hasFlag_withFlag (p : UInt8) (f g : Flag) (on : Bool) :
    hasFlag (withFlag p f on) g = if f = g then on else hasFlag p g := by
  have hmask : f.mask.toBitVec.getLsbD g.position = decide (f = g) := by
    cases f <;> cases g <;> rfl
  have hposition : g.position < 8 := by cases g <;> decide
  rw [hasFlag_eq, hasFlag_eq, withFlag]
  cases on with
  | true =>
    simp only [if_true, UInt8.toBitVec_or, BitVec.getLsbD_or, hmask]
    by_cases h : f = g <;> simp [h]
  | false =>
    simp only [Bool.false_eq_true, if_false, UInt8.toBitVec_and, UInt8.toBitVec_not,
      BitVec.getLsbD_and, BitVec.getLsbD_not, hmask, hposition, decide_true, Bool.true_and]
    by_cases h : f = g <;> simp [h]

theorem withFlag_hasFlag (p : UInt8) : withFlag p .carry (hasFlag p .carry) = p := by
  revert p
  refine forall_byte ?_
  decide +kernel

theorem hasFlag_withValue (p x : UInt8) (f : Flag) :
    hasFlag (withValue p x) f =
      if f = .negative then isNegative x else if f = .zero then x == 0 else hasFlag p f := by
  simp only [withValue, hasFlag_withFlag, and_0x80]
  cases f <;> simp

/-! ## Addition -/

theorem isNegative_eq_msb (x : UInt8) : isNegative x = x.toBitVec.msb := by
  simp [isNegative, BitVec.msb_eq_decide]

theorem isNegative_xor (x y : UInt8) : isNegative (x ^^^ y) = (isNegative x != isNegative y) := by
  simp [isNegative_eq_msb, BitVec.msb_xor]

theorem isNegative_and (x y : UInt8) : isNegative (x &&& y) = (isNegative x && isNegative y) := by
  simp [isNegative_eq_msb, BitVec.msb_and]

/-- The sum of two bytes and a carry. -/
theorem toUInt8_sum (a x : UInt8) (c : Bool) :
    (a.toUInt16 + x.toUInt16 + (UInt8.ofNat (bit c)).toUInt16).toUInt8 =
      UInt8.ofNat (a.toNat + x.toNat + bit c) := by
  apply UInt8.toNat_inj.1
  have := a.toNat_lt
  have := x.toNat_lt
  cases c <;> simp

theorem carry_sum (a x : UInt8) (c : Bool) :
    (0xFF < a.toUInt16 + x.toUInt16 + (UInt8.ofNat (bit c)).toUInt16) ↔
      256 ≤ a.toNat + x.toNat + bit c := by
  have := a.toNat_lt
  have := x.toNat_lt
  rw [UInt16.lt_iff_toNat_lt]
  cases c <;> simp <;> omega

/-- An addition overflows when the signed sum is no signed byte. -/
def overflows (a x : UInt8) (c : Bool) : Bool :=
  let sum := signed a + signed x + bit c
  sum < -128 || 127 < sum

theorem overflow_sum (a x : UInt8) (c : Bool) :
    ((a ^^^ UInt8.ofNat (a.toNat + x.toNat + bit c)) &&&
      (x ^^^ UInt8.ofNat (a.toNat + x.toNat + bit c)) &&& 0x80 != 0) = overflows a x c := by
  rw [and_0x80, isNegative_and, isNegative_xor, isNegative_xor]
  have := a.toNat_lt
  have := x.toNat_lt
  simp only [overflows, signed, isNegative, UInt8.toNat_ofNat']
  rw [Bool.eq_iff_iff]
  by_cases ha : 128 ≤ a.toNat <;> by_cases hx : 128 ≤ x.toNat <;> cases c <;>
    simp [ha, hx] <;> omega

end Breadbin.Machine
