import Mathlib.Algebra.Group.Nat.Defs
import Mathlib.Data.Nat.Log
import Breadbin.Numeric.Fixed

/-!
# Integers among the doubles

A double has room for fifty-three binary digits, so that an integer of that many comes back as it
was, and a fixed-point number is the same whether it is made of the integer or of the double.
-/

namespace Breadbin.Numeric

/-- The digits of a number that has some. -/
theorem bitLength_spec {m : Nat} (hm : m ≠ 0) :
    0 < bitLength m ∧ 2 ^ (bitLength m - 1) ≤ m ∧ m < 2 ^ bitLength m := by
  rw [bitLength, if_neg hm, Nat.add_sub_cancel]
  exact ⟨Nat.succ_pos _, Nat.log2_self_le hm, Nat.lt_log2_self⟩

theorem bitLength_le {m n : Nat} (hm : m < 2 ^ n) : bitLength m ≤ n := by
  unfold bitLength
  split
  next => exact Nat.zero_le n
  next hne => exact (Nat.log2_lt hne).2 hm

namespace Double

/-- The fields of a pattern are found again. -/
theorem value_ofFields (negative : Bool) {exponent fraction : Nat} (hexponent : exponent < 2046)
    (hfraction : fraction < 0x10000000000000) :
    (ofFields negative 0 ((exponent + 1) * 0x10000000000000 + fraction)).value =
      .finite negative (0x10000000000000 + fraction) ((exponent : Int) - 1074) := by
  have hbits : (ofFields negative 0 ((exponent + 1) * 0x10000000000000 + fraction)).bits.toNat =
      (if negative then 0x8000000000000000 else 0) +
          ((exponent + 1) * 0x10000000000000 + fraction) := by
    show (UInt64.ofNat _).toNat = _
    rw [UInt64.toNat_ofNat']
    cases negative <;> simp <;> omega
  unfold value exponentField fractionField Double.negative
  rw [hbits]
  have hfield : ((if negative then 0x8000000000000000 else 0) +
      ((exponent + 1) * 0x10000000000000 + fraction)) / 0x10000000000000 % 0x800 =
          exponent + 1 := by
    cases negative <;> simp <;> omega
  have hfraction' : ((if negative then 0x8000000000000000 else 0) +
      ((exponent + 1) * 0x10000000000000 + fraction)) % 0x10000000000000 = fraction := by
    cases negative <;> simp <;> omega
  have hsign : decide (((if negative then 0x8000000000000000 else 0) +
      ((exponent + 1) * 0x10000000000000 + fraction)) / 0x8000000000000000 = 1) = negative := by
    cases negative <;> simp <;> omega
  rw [hfield, hfraction', hsign]
  split
  next h => omega
  next h => omega
  next =>
    have hexponent' : ((exponent + 1 : Nat) : Int) - 1075 = (exponent : Int) - 1074 := by omega
    rw [hexponent']

/-- An integer of at most fifty-three digits is kept. -/
theorem value_ofScaled {m : Nat} (hm : m ≠ 0) (hfits : m < 2 ^ 53) (negative : Bool) :
    (ofScaled negative m 0).value =
      .finite negative (m * 2 ^ (53 - bitLength m)) ((bitLength m : Int) - 53) := by
  obtain ⟨hpos, hlow, hhigh⟩ := bitLength_spec hm
  have hle := bitLength_le hfits
  obtain ⟨fraction, hfraction⟩ : ∃ fraction,
      m * 2 ^ (53 - bitLength m) = 0x10000000000000 + fraction := by
    refine Nat.exists_eq_add_of_le ?_
    calc 0x10000000000000 = 2 ^ (bitLength m - 1) * 2 ^ (53 - bitLength m) := by
          rw [← Nat.pow_add, show bitLength m - 1 + (53 - bitLength m) = 52 by omega]
      _ ≤ m * 2 ^ (53 - bitLength m) := Nat.mul_le_mul_right _ hlow
  have hbelow : fraction < 0x10000000000000 := by
    have : m * 2 ^ (53 - bitLength m) < 2 ^ bitLength m * 2 ^ (53 - bitLength m) :=
      Nat.mul_lt_mul_of_pos_right hhigh (Nat.two_pow_pos _)
    rw [← Nat.pow_add, show bitLength m + (53 - bitLength m) = 53 by omega] at this
    omega
  have hscale : max ((bitLength m : Int) + 0 - 53) (-1074) = bitLength m - 53 := by omega
  have hround : roundScaled .even m (0 - ((bitLength m : Int) - 53)) =
      0x10000000000000 + fraction := by
    rw [roundScaled, if_pos (by omega), show (0 - ((bitLength m : Int) - 53)).toNat =
      53 - bitLength m by omega]
    exact hfraction
  have hexponent : ((bitLength m : Int) - 53 + 1074).toNat = bitLength m + 1021 := by omega
  have hraw : (bitLength m + 1021) * 0x10000000000000 + (0x10000000000000 + fraction) =
      (bitLength m + 1021 + 1) * 0x10000000000000 + fraction := by omega
  unfold ofScaled
  simp only [if_neg hm, hscale, hround, hexponent, hraw]
  have hfinite : ¬2047 * 0x10000000000000 ≤ (bitLength m + 1021 + 1) * 0x10000000000000 +
    fraction := by omega
  have hexponent' : ((bitLength m + 1021 : Nat) : Int) - 1074 = bitLength m - 53 := by omega
  rw [if_neg hfinite, value_ofFields negative (by omega) hbelow, hfraction, hexponent']

end Double

namespace Fixed

/-- Rounding what was scaled up scales it back. -/
theorem roundScaled_scaled {m n : Nat} {e : Int} (he : -(n : Int) ≤ e) :
    roundScaled .away (m * 2 ^ n) e = m * 2 ^ (n + e).toNat := by
  unfold roundScaled
  split
  next hnonneg =>
    have hsum : ((n : Int) + e).toNat = n + e.toNat := by omega
    rw [hsum, Nat.pow_add, Nat.mul_assoc]
    rfl
  next hneg =>
    have hsum : n = ((n : Int) + e).toNat + (-e).toNat := by omega
    have hmul : m * 2 ^ n = m * 2 ^ ((n : Int) + e).toNat * 2 ^ (-e).toNat := by
      rw [Nat.mul_assoc, ← Nat.pow_add, ← hsum]
    have hpos : 0 < 2 ^ (-e).toNat := Nat.two_pow_pos _
    unfold roundDiv
    show (if 2 * (m * 2 ^ n % 2 ^ (-e).toNat) < 2 ^ (-e).toNat then _ else _) = _
    rw [hmul, Nat.mul_mod_left, if_pos (by omega)]
    exact Nat.mul_div_cancel _ hpos

/-- A fixed-point number is the same whether it is made of an integer or of its double. -/
theorem ofDouble_ofInt {i : Int} (hi : i.natAbs < 2 ^ 53) :
    (ofDouble (.ofInt i)).1 = (ofInt i).1 := by
  have hunits : (ofDouble (.ofInt i)).1 = saturate (16 * i) := by
    by_cases hzero : i = 0
    · subst hzero
      decide +kernel
    · have hm : i.natAbs ≠ 0 := Int.natAbs_ne_zero.2 hzero
      have hround : roundScaled .away (i.natAbs * 2 ^ (53 - bitLength i.natAbs))
          ((bitLength i.natAbs : Int) - 53 + 4) = i.natAbs * 2 ^ 4 := by
        have hle := bitLength_le hi
        have hshift : (((53 - bitLength i.natAbs : Nat) : Int) +
            ((bitLength i.natAbs : Int) - 53 + 4)).toNat = 4 := by
          omega
        rw [roundScaled_scaled (by omega), hshift]
      have hsigned : signed (decide (i < 0)) (i.natAbs * 2 ^ 4) = 16 * i := by
        unfold signed
        by_cases hneg : i < 0
        · rw [decide_eq_true hneg, if_pos rfl]
          omega
        · rw [decide_eq_false hneg, if_neg Bool.false_ne_true]
          omega
      unfold ofDouble Double.ofInt
      rw [Double.value_ofScaled hm hi]
      simp only [hround, hsigned]
  rw [hunits]
  unfold ofInt
  split
  next hlow => simp [saturate, show 16 * i < -32768 by omega]
  next hlow =>
    split
    next hhigh => simp [saturate, show ¬16 * i < -32768 by omega, show 32767 < 16 * i by omega]
    next hhigh => rfl

end Fixed

end Breadbin.Numeric

/-!
## Fixed-point arithmetic

What is multiplied and divided are sixteenths: the exact result in sixteenths is truncated towards
zero and brought into the range of the format.
-/

namespace Breadbin.Numeric.Fixed

variable {f g : Fixed} {n m : Nat}

theorem toNat_ofWord (hn : n < 65536) : (UInt16.ofNat n).toNat = n := by
  rw [UInt16.toNat_ofNat', Nat.mod_eq_of_lt hn]

/-- Sixteen times the value is the stored word with its sign. -/
theorem units_ofWord (hn : n < 65536) :
    (⟨UInt16.ofNat n⟩ : Fixed).units = if n < 32768 then (n : Int) else n - 65536 := by
  have hless : UInt16.ofNat n < 0x8000 ↔ n < 32768 := by
    rw [UInt16.lt_iff_toNat_lt, toNat_ofWord hn]
    rfl
  show (if UInt16.ofNat n < 0x8000 then ((UInt16.ofNat n).toNat : Int)
    else ((UInt16.ofNat n).toNat : Int) - 65536) = _
  simp only [hless, toNat_ofWord hn]

theorem units_bounds (f : Fixed) : -32768 ≤ f.units ∧ f.units ≤ 32767 := by
  have hword : f = ⟨UInt16.ofNat f.raw.toNat⟩ := by rw [UInt16.ofNat_toNat]
  have := f.raw.toNat_lt
  rw [hword, units_ofWord this]
  split <;> omega

/-- Saturating brings a number of sixteenths into the range. -/
theorem units_saturate (k : Int) : (saturate k).units = max (-32768) (min 32767 k) := by
  rw [saturate]
  split
  · have : (⟨0x8000⟩ : Fixed).units = -32768 := by decide
    omega
  split
  · have : (⟨0x7FFF⟩ : Fixed).units = 32767 := by decide
    omega
  · rw [units_ofWord (by omega)]
    split <;> omega

/-- Numbers are told by their sixteenths. -/
theorem units_inj (h : f.units = g.units) : f = g := by
  have hword (f : Fixed) : f = ⟨UInt16.ofNat f.raw.toNat⟩ := by rw [UInt16.ofNat_toNat]
  have hf := f.raw.toNat_lt
  have hg := g.raw.toNat_lt
  rw [hword f, hword g, units_ofWord hf, units_ofWord hg] at h
  rw [hword f, hword g]
  have hraw : f.raw.toNat = g.raw.toNat := by split at h <;> split at h <;> omega
  rw [hraw]

/-! ## Magnitudes -/

/-- A magnitude that fits is stored with its sign. -/
theorem toNat_ofMagnitude (negative : Bool) (hm : m < 32768) :
    (ofMagnitude negative m).raw.toNat = if negative then (65536 - m) % 65536 else m := by
  have hlow : ¬signed negative m < -32768 := by
    simp only [signed]
    split <;> omega
  have hhigh : ¬32767 < signed negative m := by
    simp only [signed]
    split <;> omega
  rw [ofMagnitude, saturate, if_neg hlow, if_neg hhigh, toNat_ofWord (by omega)]
  cases negative <;> simp [signed] <;> omega

/-- A magnitude that does not fit saturates. -/
theorem ofMagnitude_large (negative : Bool) (hm : 32768 ≤ m) :
    ofMagnitude negative m = ⟨if negative then 0x8000 else 0x7FFF⟩ := by
  refine units_inj ?_
  rw [ofMagnitude, units_saturate]
  cases negative with
  | false =>
    have : (⟨0x7FFF⟩ : Fixed).units = 32767 := by decide
    simp [signed, this]
    omega
  | true =>
    have : (⟨0x8000⟩ : Fixed).units = -32768 := by decide
    simp [signed, this]
    omega

/-- A product or a quotient of magnitudes, with its sign, is that of the numbers. -/
theorem signed_magnitudes {a b : Int} (op : Nat → Nat → Nat) (t : Int → Int → Int)
    (hpos : ∀ m n : Nat, t m n = op m n) (hleft : ∀ a b, t (-a) b = -t a b)
    (hright : ∀ a b, t a (-b) = -t a b) :
    signed (decide (a < 0) != decide (b < 0)) (op a.natAbs b.natAbs) = t a b := by
  have habs (k : Int) : k = if k < 0 then -(k.natAbs : Int) else k.natAbs := by split <;> omega
  conv => rhs; rw [habs a, habs b]
  generalize a.natAbs = m, b.natAbs = n
  by_cases ha : a < 0 <;> by_cases hb : b < 0 <;> simp [ha, hb, signed, hpos, hleft, hright]

/-- **Multiplication.**  The product in sixteenths is truncated and saturates. -/
theorem mul_eq (f g : Fixed) : f.mul g = saturate ((f.units * g.units).tdiv 16) := by
  rw [mul, ofMagnitude]
  refine congrArg saturate
    (signed_magnitudes (fun m n => m * n / 16) (fun a b => (a * b).tdiv 16) (fun m n => ?_)
    (fun a b => ?_) (fun a b => ?_))
  · rfl
  · rw [Int.neg_mul, Int.neg_tdiv]
  · rw [Int.mul_neg, Int.neg_tdiv]

/-- **Division.**  The quotient in sixteenths is truncated and saturates. -/
theorem div_eq (h : g.units ≠ 0) : f.div g = saturate ((16 * f.units).tdiv g.units) := by
  rw [div, if_neg h, ofMagnitude]
  refine congrArg saturate
    (signed_magnitudes (fun m n => m * 16 / n) (fun a b => (16 * a).tdiv b) (fun m n => ?_)
    (fun a b => ?_) (fun a b => ?_))
  · show (16 * (m : Int)).tdiv n = ((m * 16 / n : Nat) : Int)
    rw [Nat.mul_comm]
    rfl
  · rw [Int.mul_neg, Int.neg_tdiv]
  · rw [Int.tdiv_neg]

/-- **Division by zero** saturates towards the sign of the dividend. -/
theorem div_zero (h : g.units = 0) : (f.div g).units = if f.units < 0 then -32768 else 32767 := by
  rw [div, if_pos h, ofMagnitude, units_saturate]
  by_cases hf : f.units < 0 <;>
    simp only [hf, signed, decide_true, decide_false, if_true, if_false, Bool.false_eq_true] <;> rfl

end Breadbin.Numeric.Fixed
