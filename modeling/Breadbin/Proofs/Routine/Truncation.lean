import Mathlib.Algebra.Order.Floor.Semifield
import Breadbin.Proofs.Routine.Conversions

/-!
# Truncating floating-point numbers

The routines that turn floating-point numbers into integers and fixed-point numbers.  The mantissa
is shifted by its exponent less a bias, in either direction; then a sign is given to the magnitude,
or it is cut off at the end of the range.
-/

namespace Breadbin.Routine

open Assembly Machine Numeric ZeroPage Writer LinkedCode

/-! ## Magnitudes -/

/-- The magnitude of the number that is truncated, in the units that are asked for. -/
def unitsOf (u : View) : ℚ := scale (u.word floatA % 32768) * 2 ^ (28 - biasOf u : ℤ)

/-- The magnitude without its fraction, cut off. -/
def wholeOf (u : View) : ℕ := (datumOf (u.word floatA)).whole 65535 (2 ^ (28 - biasOf u : ℤ))

/-- The sign of the number that is truncated. -/
def negativeOf (u : View) : Bool := (datumOf (u.word floatA)).negative

section Magnitudes

variable {u v : View}

theorem wholeOf_finite (h : ¬Special (u.word floatA)) : wholeOf u = min 65535 ⌊unitsOf u⌋₊ := by
  rw [wholeOf, datumOf_finite (u.word_lt _) h]
  rfl

theorem negativeOf_finite (h : ¬Special (u.word floatA)) :
    negativeOf u = signOf (u.word floatA) := by
  rw [negativeOf, datumOf_finite (u.word_lt _) h]
  rfl

/-- A magnitude that is a word is not cut off. -/
theorem wholeOf_word (h : ¬Special (u.word floatA)) (hword : ⌊unitsOf u⌋₊ = v.word floatR) :
    wholeOf u = v.word floatR := by
  have := v.word_lt floatR
  rw [wholeOf_finite h, hword]
  omega

end Magnitudes

namespace Assertion

/-- The sign of a finite number is kept. -/
abbrev finite : Assertion :=
  (byte work fun u b => b = signByte (negativeOf u)).also (given fun u => ¬Special (u.word floatA))

/-- The magnitude is known, if the bias is not too large. -/
def comes (n : ℕ) : Assertion :=
  fun _ u v => biasOf u ≤ 100 → wholeOf u = n ∧ v.zp work = signByte (negativeOf u)

/-- The magnitude is in its slot. -/
def truncated : Assertion := fun _ u v => truncates u v

/-- A mantissa that has to be shifted by so many places as A tells. -/
def shiftable : Since := fun u v => ∃ d : ℤ, v.a = .ofInt d ∧ (biasOf u ≤ 100 → -128 ≤ d ∧ d ≤ 30) ∧
    v.word floatR < 16384 ∧
  (v.word floatR : ℚ) * 2 ^ d = unitsOf u

/-- A magnitude that has to be doubled `i` times more. -/
def doubling (i : ℕ) : Since := fun u v => biasOf u ≤ 100 → (v.word floatR : ℚ) * 2 ^ i = unitsOf u

/-- A magnitude that has to be halved `i` times more. -/
def halving (i : ℕ) : Since := fun u v => biasOf u ≤ 100 → v.word floatR / 2 ^ i = ⌊unitsOf u⌋₊

end Assertion

theorem truncates_of_floor {n : ℕ} {u v : View} (h : Assertion.finite n u v)
    (hword : biasOf u ≤ 100 → ⌊unitsOf u⌋₊ = v.word floatR) : truncates u v :=
  fun hbias => ⟨(wholeOf_word h.2 (hword hbias)).symm, h.1⟩

/-- The places by which the mantissa has to be shifted. -/
theorem shift_places (v : View) :
    ∃ w, execAll v [.instr .lda (.zeroPage floatA), .instr .sta (.zeroPage floatR),
      .instr .lda (.zeroPage (floatA + 1)), .instr .sta (.zeroPage (floatR + 1)),
        .instr .lda (.zeroPage (work + 1)), .instr .sec .implied,
        .instr .sbc (.zeroPage (work + 5))] = some w ∧
      w.zp work = v.zp work ∧ w.word floatR = v.word floatA ∧
        w.a = v.zp (work + 1) - v.zp (work + 5) ∧ w.zero = (w.a == 0) ∧
      w.negative = isNegative w.a := by
  refine ⟨_, rfl, rfl, rfl, UInt8.toNat_inj.1 ?_, rfl, rfl⟩
  have := (v.zp (work + 1)).toNat_lt
  have := (v.zp (work + 5)).toNat_lt
  rw [UInt8.toNat_sub]
  simp +decide
  omega

/-- The places are counted the other way. -/
theorem negate_places (v : View) :
    ∃ w, execAll v [.instr .eor (.immediate 0xFF), .instr .clc .implied, .instr .adc (.immediate 1),
        .instr .cmp (.immediate 16)] = some w ∧ w.zp = v.zp ∧ w.a = 0 - v.a ∧
          w.carry = decide (16 ≤ w.a.toNat) := by
  refine ⟨_, rfl, rfl, UInt8.toNat_inj.1 ?_, rfl⟩
  have := v.a.toNat_lt
  rw [UInt8.toNat_sub]
  simp
  omega

/-! ## Shifting -/

/-- Where the carry is set the number is too large. -/
theorem comes_of_carry {i n m : ℕ} {u v : View} (h : Assertion.finite n u v)
    (hvalue : biasOf u ≤ 100 → ((m + 65536 : ℕ) : ℚ) * 2 ^ i = unitsOf u) :
    Assertion.comes 65535 n u v := by
  intro hbias
  refine ⟨?_, h.1⟩
  have hlarge : 65536 ≤ ⌊unitsOf u⌋₊ := by
    refine Nat.le_floor ?_
    rw [← hvalue hbias]
    have hpow : (1 : ℚ) ≤ 2 ^ i := one_le_pow₀ (by norm_num)
    have hm : (65536 : ℚ) ≤ ((m + 65536 : ℕ) : ℚ) := by exact_mod_cast Nat.le_add_left 65536 m
    calc ((65536 : ℕ) : ℚ) = 65536 * 1 := by norm_num
      _ ≤ ((m + 65536 : ℕ) : ℚ) * 2 ^ i := mul_le_mul hm hpow (by norm_num) (by positivity)
  rw [wholeOf_finite h.2]
  omega

/-- A mantissa that is shifted out of a word leaves nothing. -/
theorem comes_of_far {d : ℤ} {n m : ℕ} {u v : View} (h : Assertion.finite n u v)
    (hm : m < 16384) (hd : d ≤ -16)
    (hvalue : (m : ℚ) * 2 ^ d = unitsOf u) : Assertion.comes 0 n u v := by
  intro _
  refine ⟨?_, h.1⟩
  have hpow : (2 : ℚ) ^ d ≤ 2 ^ (-16 : ℤ) := zpow_le_zpow_right₀ (by norm_num) hd
  have hless : unitsOf u < 1 := by
    rw [← hvalue]
    have hm : (m : ℚ) ≤ 16384 := by exact_mod_cast hm.le
    calc (m : ℚ) * 2 ^ d ≤ 16384 * 2 ^ (-16 : ℤ) := mul_le_mul hm hpow (by positivity) (by norm_num)
      _ < 1 := by norm_num
  rw [wholeOf_finite h.2, Nat.floor_eq_zero.2 hless]
  rfl

theorem word_ones : (0xFF : UInt8).toNat + 256 * (0xFF : UInt8).toNat = 65535 := rfl

/-- X counts the places by which the mantissa is shifted. -/
theorem floatTruncate_conducted {t : Target} : Conducted t .floatTruncate := by
  refine .last (.weaken
    (Q := (Assertion.byte (work + 5) fun u b => b = u.zp (work + 5)).also
      (.word floatA fun u w => w = u.word floatA)) ?_ fun _ _ _ huv => huv ▸ ⟨rfl, rfl⟩)
  simp only [body, floatTruncate, bind_assoc]
  refine .label (fun _ u v => v.word floatA = u.word floatA ∧ Special (u.word floatA) ∧
    v.zp work = signByte (signOf (u.word floatA))) fun special => ?_
  refine .label (.comes 0) fun zero => .label (.comes 65535) fun saturated => ?_
  refine .label (Assertion.finite.also fun _ u v => Assertion.shiftable u v ∧ v.a ≠ 0 ∧
    isNegative v.a = true) fun right => ?_
  refine .label .truncated fun done => ?_
  let operand : Assertion :=
    (Assertion.byte (work + 5) fun u b => b = u.zp (work + 5)).also
      (.word floatA fun u w => w = u.word floatA)
  let kept : Assertion := operand.also (.byte work fun u b => b = signByte (signOf (u.word floatA)))
  refine .run (Q := operand.also fun _ u v => v.a = v.zp (floatA + 1))
    rfl (fun n u v hv => ⟨_, rfl, hv, rfl⟩) ?_
  refine .run (Q := operand.also fun _ u v => v.a = signByte (signOf (u.word floatA)))
    rfl (fun n u v hv => ⟨_, rfl, hv.1, ?_⟩)
    (.run (Q := kept) rfl (fun n u v hv => ⟨_, rfl, hv.1, hv.2⟩) ?_)
  · obtain ⟨⟨-, hA⟩, ha⟩ := hv
    have hA : v.word floatA = u.word floatA := hA
    show v.a &&& 0x80 = _
    rw [ha, sign_byte, hA]
  refine .branchSpecial (fun n u v hv hspecial => ?_) (.branchZero (fun n u v hv hzero => ?_) ?_)
  · obtain ⟨⟨-, hA⟩, hsign⟩ := hv
    have hA : v.word floatA = u.word floatA := hA
    exact ⟨hA, hA ▸ hspecial, hsign⟩
  · obtain ⟨⟨⟨-, hA⟩, hsign⟩, hordinary⟩ := hv
    have hA : v.word floatA = u.word floatA := hA
    have hordinary : ¬Special (u.word floatA) := hA ▸ hordinary
    refine fun _ => ⟨?_, by rw [negativeOf_finite hordinary]; exact hsign⟩
    rw [wholeOf_finite hordinary, unitsOf, scale_eq_zero_iff.2 (hA ▸ hzero),
      zero_mul, Nat.floor_zero]
    rfl
  refine .weaken (Q :=
    ((Assertion.byte (work + 5) fun u b => b = u.zp (work + 5)).also
      (.given fun u => ¬Special (u.word floatA))).also
    (.word floatA fun u w => w = u.word floatA ∧ ¬Special w ∧ ¬IsZero w)) ?_ fun n u v hv => ?_
  swap
  · obtain ⟨⟨⟨⟨hbias, hA⟩, -⟩, hordinary⟩, hne⟩ := hv
    have hA : v.word floatA = u.word floatA := hA
    have hordinary' : ¬Special (u.word floatA) := hA ▸ hordinary
    exact ⟨⟨hbias, hordinary'⟩, hA, hordinary, hne⟩
  refine .unpack (by decide) rfl rfl rfl rfl ?_
  refine .weaken (Q :=
    Assertion.finite.also ((Assertion.byte (work + 5) fun u b => b = u.zp (work + 5)).also
    (.unpacked floatA (work + 1) fun u => scale (u.word floatA % 32768)))) ?_ fun n u v hv => ?_
  swap
  · obtain ⟨⟨⟨hbias, hordinary⟩, hsign⟩, hunpacked⟩ := hv
    refine ⟨⟨?_, hordinary⟩, hbias, hunpacked⟩
    show v.zp work = _
    rw [negativeOf_finite hordinary]
    exact hsign
  refine .exec (Q := Assertion.finite.also fun _ u v => Assertion.shiftable u v ∧
    v.zero = (v.a == 0) ∧ v.negative = isNegative v.a) rfl (fun n u v hv => ?_) ?_
  · obtain ⟨hfinite, hbias, ⟨k, hk, hunpacked⟩, -, hless⟩ := hv
    obtain ⟨w, hexec, hsign, hword, ha, hflags⟩ := shift_places v
    have hbias : v.zp (work + 5) = .ofInt (biasOf u) := by
      rw [show v.zp (work + 5) = u.zp (work + 5) from hbias, biasOf]
      exact UInt8.toNat_inj.1 (by rw [toNat_ofInt]; have := (u.zp (work + 5)).toNat_lt; omega)
    have hsmall := hunpacked.small
    have hlarge := hunpacked.large
    refine ⟨w, hexec, ⟨hsign.trans hfinite.1, hfinite.2⟩,
      ⟨k - biasOf u, ?_, fun _ => by omega, hword ▸ hless, ?_⟩, hflags⟩
    · rw [ha, hk, hbias, ofInt_sub]
    · have hvalue : (v.word floatA : ℚ) * 2 ^ (k - 28) = scale (u.word floatA % 32768) :=
        hunpacked.value
      rw [hword, unitsOf, ← hvalue, mul_assoc, ← zpow_add₀ (by norm_num)]
      congr 2
      ring
  refine .branch (Q := Assertion.finite.also fun _ u v => Assertion.shiftable u v ∧ v.a ≠ 0 ∧
    v.negative = isNegative v.a)
    (fun n u v hv htaken => ?_) (fun n u v hv hskipped => ?_) ?_
  · obtain ⟨hfinite, ⟨d, ha, hbounds, -, hvalue⟩, hzero, -⟩ := hv
    have hnone : (v.a == 0) = true := by simpa [View.takes?, hzero] using htaken
    refine truncates_of_floor hfinite fun hbias => ?_
    obtain ⟨hlow, hhigh⟩ := hbounds hbias
    rw [ha, ofInt_beq_zero hlow (by omega), decide_eq_true_eq] at hnone
    rw [← hvalue, hnone, zpow_zero, mul_one, Nat.floor_natCast]
  · obtain ⟨hfinite, hshiftable, hzero, hnegative⟩ := hv
    exact ⟨hfinite, hshiftable, by simpa [View.takes?, hzero] using hskipped, hnegative⟩
  refine .branch (Q := Assertion.finite.also fun _ u v => Assertion.shiftable u v ∧ v.a ≠ 0 ∧
    isNegative v.a = false)
    (fun n u v hv htaken => ?_) (fun n u v hv hskipped => ?_) ?_
  · obtain ⟨hfinite, hshiftable, hne, hnegative⟩ := hv
    exact ⟨hfinite, hshiftable, hne, by simpa [View.takes?, hnegative] using htaken⟩
  · obtain ⟨hfinite, hshiftable, hne, hnegative⟩ := hv
    exact ⟨hfinite, hshiftable, hne, by simpa [View.takes?, hnegative] using hskipped⟩
  refine .turn (R := fun _ u v => Assertion.doubling v.x.toNat u v ∧ 1 ≤ v.x.toNat)
    rfl (fun n u v _ hv => ?_)
    (.rounds fun left => ?_)
  · obtain ⟨⟨d, ha, hbounds, -, hvalue⟩, hne, hpositive⟩ := hv
    refine ⟨_, rfl, fun hbias => ?_, Nat.pos_of_ne_zero fun heq => hne (eq_zero_iff.2 heq)⟩
    obtain ⟨hlow, hhigh⟩ := hbounds hbias
    rw [ha, isNegative_ofInt hlow (by omega), decide_eq_false_iff_not] at hpositive
    show (v.word floatR : ℚ) * 2 ^ v.a.toNat = _
    rw [ha, toNat_ofInt, ← hvalue, ← zpow_natCast]
    congr 2
    omega
  refine .piece (R := fun b u v =>
    (biasOf u ≤ 100 →
      ((v.word floatR + 65536 * bit v.carry : ℕ) : ℚ) * 2 ^ (v.x.toNat - 1) = unitsOf u) ∧
    1 ≤ v.x.toNat ∧ v.x.toNat ≤ b) rfl (fun b u v _ hv => ?_) ?_
  · obtain ⟨hdoubling, hpos, hb⟩ := hv
    obtain ⟨w, hexec, hword, hcarry, -⟩ := shiftLeft_word v floatR
    have hx : w.x = v.x := execAll_x hexec rfl
    have hdouble : w.word floatR + 65536 * bit w.carry = 2 * v.word floatR := by
      have := v.word_lt floatR
      rw [hword, hcarry]
      by_cases hover : 65536 ≤ 2 * v.word floatR <;> simp [hover, bit] <;> omega
    refine ⟨w, hexec, fun hbias => ?_, hx ▸ hpos, hx ▸ hb⟩
    rw [hdouble, hx, ← hdoubling hbias, ← pow_sub_one_mul (Nat.ne_of_gt hpos) (2 : ℚ)]
    push_cast
    ring
  refine .branch (Q := Assertion.finite.also (.turned Assertion.doubling)) (fun b u v hv htaken =>
    ?_) (fun b u v hv hskipped => ?_) ?_
  · obtain ⟨hfinite, hvalue, -, -⟩ := hv
    have hset : v.carry = true := by simpa [View.takes?] using htaken
    rw [hset] at hvalue
    exact comes_of_carry hfinite hvalue
  · obtain ⟨hfinite, hvalue, hpos, hb⟩ := hv
    have hclear : v.carry = false := by simpa [View.takes?] using hskipped
    rw [hclear] at hvalue
    exact ⟨hfinite, hvalue, hpos, hb⟩
  refine .nextRound rfl (fun i u v w hzp h hbias => ?_) (.rts (fun n u v hv => ?_) (.bind ?_))
  · rw [View.word, hzp]
    exact h hbias
  · refine truncates_of_floor hv.1 fun hbias => ?_
    rw [← hv.2 hbias, pow_zero, mul_one, Nat.floor_natCast]
  refine .turn (R := fun _ u v => ∃ d : ℤ, (biasOf u ≤ 100 → d ≤ 0 ∧ v.a.toNat = (-d).toNat) ∧
    v.word floatR < 16384 ∧
    (v.word floatR : ℚ) * 2 ^ d = unitsOf u ∧ v.a ≠ 0 ∧
    v.carry = decide (16 ≤ v.a.toNat)) rfl (fun n u v _ hv => ?_) ?_
  · obtain ⟨⟨d, ha, hbounds, hless, hvalue⟩, hne, hnegative⟩ := hv
    obtain ⟨w, hexec, hzp, hacc, hcarry⟩ := negate_places v
    have hword : w.word floatR = v.word floatR := View.word_congr (congrFun hzp _) (congrFun hzp _)
    refine ⟨w, hexec, d, fun hbias => ?_, hword ▸ hless, hword ▸ hvalue,
      fun hzero => hne ?_, hcarry⟩
    · obtain ⟨hlow, hhigh⟩ := hbounds hbias
      rw [ha, isNegative_ofInt hlow (by omega), decide_eq_true_eq] at hnegative
      rw [hacc, ha, show (0 : UInt8) = .ofInt 0 from rfl, ← ofInt_sub, toNat_ofInt]
      omega
    · have := v.a.toNat_lt
      rw [hacc, eq_zero_iff, UInt8.toNat_sub, UInt8.toNat_zero] at hzero
      exact eq_zero_iff.2 (by omega)
  refine .branch (Q := Assertion.finite.also fun _ u v =>
    ∃ d : ℤ, (biasOf u ≤ 100 → d ≤ 0 ∧ v.a.toNat = (-d).toNat) ∧
    (v.word floatR : ℚ) * 2 ^ d = unitsOf u ∧ v.a ≠ 0) (fun n u v hv htaken =>
      ?_) (fun n u v hv hskipped => ?_) ?_
  · obtain ⟨hfinite, d, hplaces, hless, hvalue, hne, hcarry⟩ := hv
    have hfar : 16 ≤ v.a.toNat := by simpa [View.takes?, hcarry] using htaken
    intro hbias
    obtain ⟨-, ha⟩ := hplaces hbias
    exact comes_of_far hfinite hless (by omega) hvalue hbias
  · obtain ⟨hfinite, d, hplaces, -, hvalue, hne, -⟩ := hv
    exact ⟨hfinite, d, hplaces, hvalue, hne⟩
  refine .turn (R := fun _ u v => Assertion.halving v.x.toNat u v ∧ 1 ≤ v.x.toNat)
    rfl (fun n u v _ hv => ?_)
    (.rounds fun shift => ?_)
  · obtain ⟨d, hplaces, hvalue, hne⟩ := hv
    refine ⟨_, rfl, fun hbias => ?_, Nat.pos_of_ne_zero fun heq => hne (eq_zero_iff.2 heq)⟩
    obtain ⟨hd, ha⟩ := hplaces hbias
    show v.word floatR / 2 ^ v.a.toNat = ⌊unitsOf u⌋₊
    obtain ⟨i, rfl⟩ : ∃ i : ℕ, d = -i := ⟨(-d).toNat, by omega⟩
    rw [← hvalue, ha, Int.neg_neg, Int.toNat_natCast, zpow_neg,
      zpow_natCast, ← div_eq_mul_inv, ← Nat.floor_div_eq_div (K := ℚ)]
    push_cast
    rfl
  refine .piece (R := .turned Assertion.halving) rfl (fun b u v _ hv => ?_) ?_
  · obtain ⟨hhalving, hpos, hb⟩ := hv
    obtain ⟨w, hexec, hword, -⟩ := shiftRight_word v floatR
    have hx : w.x = v.x := execAll_x hexec rfl
    refine ⟨w, hexec, fun hbias => ?_, hx ▸ hpos, hx ▸ hb⟩
    rw [hword, hx, ← hhalving hbias, Nat.div_div_eq_div_mul, ← pow_succ', Nat.sub_add_cancel hpos]
  refine .nextRound rfl (fun i u v w hzp h hbias => ?_) ?_
  · rw [View.word, hzp]
    exact h hbias
  refine .weaken (Q := .truncated) (.bind ?_) fun n u v hv => ?_
  swap
  · refine truncates_of_floor hv.1 fun hbias => ?_
    rw [← hv.2 hbias, pow_zero, Nat.div_one]
  refine .rts (fun _ _ _ h => h) (.bind ?_)
  refine .exec (Q := fun _ u v => Special (u.word floatA) ∧
    v.zp work = signByte (signOf (u.word floatA)) ∧
    v.zero = decide (u.word floatA % 1024 = 0)) rfl (fun n u v hv => ?_) ?_
  · obtain ⟨hA, hspecial, hsign⟩ := hv
    refine ⟨_, rfl, hspecial, hsign, ?_⟩
    have := low_eq v floatA
    have := high_eq v floatA
    show (v.zp (floatA + 1) &&& 0x03 ||| v.zp floatA == 0) = decide (u.word floatA % 1024 = 0)
    rw [Bool.eq_iff_iff, beq_iff_eq, decide_eq_true_eq, or_eq_zero_iff, eq_zero_iff,
      eq_zero_iff, and_0x03, ← hA]
    omega
  refine .branch (Q := .given fun u => datumOf (u.word floatA) = .nan) (fun n u v hv htaken =>
    ?_) (fun n u v hv hskipped => ?_) ?_
  · obtain ⟨hspecial, hsign, hzero⟩ := hv
    have hnone : u.word floatA % 1024 = 0 := by simpa [View.takes?, hzero] using htaken
    have hinfinite := datumOf_infinite (u.word_lt _) hspecial fun hnan => hnan.2 hnone
    intro _
    rw [wholeOf, negativeOf, hinfinite]
    exact ⟨rfl, hsign⟩
  · obtain ⟨hspecial, hsign, hzero⟩ := hv
    have hne : u.word floatA % 1024 ≠ 0 := by simpa [View.takes?, hzero] using hskipped
    exact datumOf_nan (u.word_lt _) ⟨hspecial, hne⟩
  refine .exec (Q := .comes 0) rfl (fun n u v hv => ⟨_, rfl, fun _ => ?_⟩) (.bind ?_)
  · have hnan : datumOf (u.word floatA) = .nan := hv
    rw [wholeOf, negativeOf, hnan]
    exact ⟨rfl, rfl⟩
  refine .exec (Q := .truncated) rfl (fun n u v hv => ⟨_, rfl, fun hbias => ?_⟩)
    (.rts (fun _ _ _ h => h) (.bind ?_))
  · exact ⟨(hv hbias).1.symm, (hv hbias).2⟩
  refine .exec (Q := .truncated) rfl (fun n u v hv => ⟨_, rfl, fun hbias => ?_⟩)
    (.rts (fun _ _ _ h => h) (.done (by decide) _))
  exact ⟨word_ones.trans (hv hbias).1.symm, (hv hbias).2⟩

/-! ## Signs -/

/-- A magnitude is cut off at the end of the range. -/
theorem floatSaturate_conducted {t : Target} : Conducted t .floatSaturate := by
  refine .last ?_
  simp only [body, floatSaturate, bind_assoc]
  let signed (negative : Bool) : View → Prop := fun u => isNegative (u.zp work) = negative
  let cut (limit : ℕ) : Assertion := .word floatR fun u w => w = min limit (u.word floatR)
  refine .label (fun _ u v => v.word floatR = u.word floatR ∧ signed true u) fun negative => ?_
  refine .label ((cut 32767).also (.given (signed false))) fun fitsPositive => ?_
  refine .label (.given fun u => signed true u ∧ 32768 ≤ u.word floatR) fun clamp => ?_
  refine .label ((cut 32768).also (.given (signed true))) fun fitsNegative => ?_
  refine .exec (Q := fun _ u v => v.word floatR = u.word floatR ∧
    v.negative = isNegative (u.zp work)) rfl
    (fun n u v huv => huv ▸ ⟨_, rfl, rfl, rfl⟩) ?_
  refine .branch (Q := fun _ u v => v.word floatR = u.word floatR ∧
    signed false u) (fun n u v hv htaken => ?_)
    (fun n u v hv hskipped => ?_) ?_
  · exact ⟨hv.1, by simpa [View.takes?, hv.2] using htaken⟩
  · exact ⟨hv.1, by simpa [View.takes?, hv.2] using hskipped⟩
  refine .exec (Q := fun _ u v => (v.word floatR = u.word floatR ∧ signed false u) ∧
    v.negative = decide (32768 ≤ u.word floatR)) rfl
    (fun n u v hv => ⟨_, rfl, hv, ?_⟩) ?_
  · show isNegative (v.zp (floatR + 1)) = _
    rw [isNegative, high_eq, hv.1, decide_eq_decide]
    omega
  refine .branch (Q := fun _ u v => signed false u ∧ 32768 ≤ u.word floatR) (fun n u v hv htaken =>
    ?_) (fun n u v hv hskipped => ?_) ?_
  · have hless : u.word floatR < 32768 := by simpa [View.takes?, hv.2] using htaken
    refine ⟨?_, hv.1.2⟩
    show v.word floatR = min 32767 (u.word floatR)
    rw [hv.1.1]
    omega
  · exact ⟨hv.1.2, by simpa [View.takes?, hv.2] using hskipped⟩
  refine .exec (Q := (cut 32767).also (.given (signed false)))
    rfl (fun n u v hv => ⟨_, rfl, ?_, hv.1⟩) (.bind ?_)
  · have hlimit : (0xFF : UInt8).toNat + 256 * (0x7F : UInt8).toNat =
        min 32767 (u.word floatR) := by
      have := hv.2
      rw [Nat.min_eq_left (by omega)]
      rfl
    exact hlimit
  refine .exec (Q := fun _ u v => saturates u v) rfl (fun n u v hv => ?_)
    (.rts (fun _ _ _ h => h) (.bind ?_))
  · obtain ⟨w, hexec, hword⟩ := move_word v floatR (y := intR) (by decide)
    have hreturn : execAll w [.instr .lda (.zeroPage intR), .instr .ldx (.zeroPage (intR + 1))] =
        some ((w.setA (w.zp intR)).setX (w.zp (intR + 1))) := rfl
    refine ⟨_, execAll_trans hexec hreturn, ⟨rfl, rfl⟩, fun s hs => ?_⟩
    have hword : w.word intR = min 32767 (u.word floatR) := hword.trans hv.1
    have hpositive : isNegative (u.zp work) = false := hv.2
    cases s with
    | true =>
      rw [hs] at hpositive
      cases hpositive
    | false =>
      show (w.word intR : ℤ) = _
      rw [hword, if_neg Bool.false_ne_true]
      omega
  refine .exec (Q := fun _ u v => v.word floatR = u.word floatR ∧ signed true u ∧
    v.a = v.zp (floatR + 1) ∧
    v.negative = decide (32768 ≤ u.word floatR)) rfl (fun n u v hv =>
      ⟨_, rfl, hv.1, hv.2, rfl, ?_⟩) ?_
  · show isNegative (v.zp (floatR + 1)) = _
    rw [isNegative, high_eq, hv.1, decide_eq_decide]
    omega
  have hfits {n : ℕ} {u v : View} (hword : v.word floatR = u.word floatR) (hsigned : signed true u)
      (hle : u.word floatR ≤ 32768) :
      ((cut 32768).also (.given (signed true))) n u v := by
    refine ⟨?_, hsigned⟩
    show v.word floatR = min 32768 (u.word floatR)
    rw [hword, Nat.min_eq_right hle]
  refine .branch (Q := fun _ u v => v.word floatR = u.word floatR ∧ signed true u ∧
    v.a = v.zp (floatR + 1) ∧ 32768 ≤ u.word floatR)
    (fun n u v hv htaken => ?_) (fun n u v hv hskipped => ?_) ?_
  · obtain ⟨hword, hsigned, -, hnegative⟩ := hv
    have hless : u.word floatR < 32768 := by simpa [View.takes?, hnegative] using htaken
    exact hfits hword hsigned hless.le
  · obtain ⟨hword, hsigned, ha, hnegative⟩ := hv
    exact ⟨hword, hsigned, ha, by simpa [View.takes?, hnegative] using hskipped⟩
  refine .exec (Q := fun _ u v =>
    (v.word floatR = u.word floatR ∧ signed true u ∧ 32768 ≤ u.word floatR) ∧
    v.zero = decide (v.zp (floatR + 1) = 0x80)) rfl (fun n u v hv => ?_) ?_
  · obtain ⟨hword, hsigned, ha, hmore⟩ := hv
    refine ⟨_, rfl, ⟨hword, hsigned, hmore⟩, ?_⟩
    show (v.a - 0x80 == 0) = _
    rw [ha, sub_beq_zero]
    rfl
  refine .branch (Q := fun _ u v =>
    (v.word floatR = u.word floatR ∧ signed true u ∧ 32768 ≤ u.word floatR) ∧
    v.zp (floatR + 1) = 0x80) (fun n u v hv _ => ⟨hv.1.2.1, hv.1.2.2⟩)
    (fun n u v hv hskipped => ⟨hv.1, by simpa [View.takes?, hv.2] using hskipped⟩) ?_
  refine .exec (Q := fun _ u v =>
    (v.word floatR = u.word floatR ∧ signed true u ∧ 32768 ≤ u.word floatR) ∧
    v.zp (floatR + 1) = 0x80 ∧ v.zero = (v.zp floatR == 0)) rfl (fun n u v hv =>
      ⟨_, rfl, hv.1, hv.2, rfl⟩) ?_
  refine .branch (Q := .given fun u => signed true u ∧
    32768 ≤ u.word floatR) (fun n u v hv htaken => ?_)
    (fun n u v hv _ => ⟨hv.1.2.1, hv.1.2.2⟩) (.bind ?_)
  · obtain ⟨⟨hword, hsigned, -⟩, hhigh, hzero⟩ := hv
    have hlow : v.zp floatR = 0 := by simpa [View.takes?, hzero] using htaken
    refine hfits hword hsigned ?_
    rw [← hword, View.word, hlow, hhigh]
    decide
  refine .exec (Q := (cut 32768).also (.given (signed true)))
    rfl (fun n u v hv => ⟨_, rfl, ?_, hv.1⟩) (.bind ?_)
  · have hlimit : (0x00 : UInt8).toNat + 256 * (0x80 : UInt8).toNat =
        min 32768 (u.word floatR) := by
      rw [Nat.min_eq_left hv.2]
      rfl
    exact hlimit
  refine .exec (Q := fun _ u v => saturates u v) rfl (fun n u v hv => ?_)
    (.rts (fun _ _ _ h => h) (.done (by decide) _))
  obtain ⟨w, hexec, hword⟩ := move_word v floatR (y := intR) (by decide)
  obtain ⟨x, hexec', hnegated⟩ := negate_word w intR
  have hreturn : execAll x [.instr .lda (.zeroPage intR), .instr .ldx (.zeroPage (intR + 1))] =
      some ((x.setA (x.zp intR)).setX (x.zp (intR + 1))) := rfl
  refine ⟨_, execAll_trans hexec (execAll_trans hexec' hreturn), ⟨rfl, rfl⟩, fun s hs => ?_⟩
  have hword : w.word intR = min 32768 (u.word floatR) := hword.trans hv.1
  have hnegative : isNegative (u.zp work) = true := hv.2
  cases s with
  | false =>
    rw [hs] at hnegative
    cases hnegative
  | true =>
    show (x.word intR : ℤ) = _
    rw [hnegated, hword, if_pos rfl]
    omega

/-! ## The ranges -/

theorem size_nonneg {n : ℕ} (s : Bool) (x : ℚ) (h : datumOf n = .finite s x)
    (hn : n < 65536) : 0 ≤ x := by
  rw [datumOf_eq hn] at h
  split at h
  · split at h <;> cases h
  · cases h
    rw [← scale_zero]
    exact scale_le (Nat.zero_le _) (Nat.mod_lt _ (by decide))

/-- A number has been truncated in units of `1 / k`. -/
def Truncated (k : ℚ) : Since := fun u v =>
  v.word floatR = (datumOf (u.word floatA)).whole 65535 k ∧ v.zp work = signByte (negativeOf u)

/-- The bias tells the units. -/
theorem truncated_of_truncates {u v w : View} {bias : ℕ} {k : ℚ}
    (hA : v.word floatA = u.word floatA) (hbias : biasOf v = bias)
    (hle : bias ≤ 100) (hk : (2 : ℚ) ^ (28 - bias : ℤ) = k) (h : truncates v w) :
    Truncated k u w := by
  obtain ⟨hword, hsign⟩ := h (hbias ▸ hle)
  rw [hbias, hA, hk] at hword
  rw [hA] at hsign
  exact ⟨hword, hsign⟩

/-- What is cut off at the end of the range of words with a sign is the number, truncated. -/
theorem truncate_of_saturates {u v w : View} {k : ℚ} (hk : 0 ≤ k) (hv : Truncated k u v)
    (h : saturates v w) :
    (w.word intR : ℤ) = (datumOf (u.word floatA)).truncate (-32768) 32767 k % 65536 := by
  obtain ⟨hword, hsign⟩ := hv
  rw [h.2 _ hsign, hword, negativeOf,
    Datum.truncate_eq _ 65535 (by decide) (by decide) (by decide) (by decide) hk
    fun s x hx => size_nonneg s x hx (u.word_lt _)]

/-- The bias is set, and the number truncated. -/
theorem Flows.truncate {t : Target} {id : RoutineId} {α : Type} {size : Nat} {back : Back}
    {ahead : Ahead} {rest : Writer α} {bias : UInt8} {k : ℚ}
    (hopens : (conduct t id).opens {} (work + 5) = true) (hmay : MayCall id 0 .floatTruncate)
    (hle : bias.toNat ≤ 100)
    (hk : (2 : ℚ) ^ (28 - bias.toNat : ℤ) = k)
    (h : Flows (conduct t) t id (size - 15) back ahead 0 (fun _ => Truncated k) rest) :
    Flows (conduct t) t id size back ahead 0 (fun _ => Eq)
      (imm .lda bias >>= fun _ => zp .sta (work + 5) >>= fun _ => Writer.call .floatTruncate >>=
        fun _ => rest) := by
  refine .run (Q := fun _ u v => v.word floatA = u.word floatA ∧ v.a = bias)
    rfl (fun n u v huv => huv ▸ ⟨_, rfl, rfl, rfl⟩) ?_
  refine .run (Q := fun _ u v => v.word floatA = u.word floatA ∧ v.zp (work + 5) = bias)
    ?_ (fun n u v hv => ?_) ?_
  · show ((conduct t id).opens {} (work + 5) && true) = true
    rw [hopens]
    rfl
  · exact ⟨_, rfl, hv.1, hv.2⟩
  refine .call hmay (fun _ _ _ _ _ => ?_) (fun n u v b w hv _ hw => ?_) (.fit h ?_)
  · exact trivial
  · have hbias : biasOf (v.call b) = bias.toNat := congrArg UInt8.toNat hv.2
    exact truncated_of_truncates hv.1 hbias hle hk hw
  · simp only [Nat.sub_sub]
    exact Nat.le_refl _

theorem floatToU16_conducted {t : Target} : Conducted t .floatToU16 := by
  refine .last ?_
  simp only [body, floatToU16, bind_assoc]
  have htruncate (u : View) : (datumOf (u.word floatA)).truncate 0 65535 1 =
      if negativeOf u then 0 else ((datumOf (u.word floatA)).whole 65535 1 : ℤ) := by
    rw [Datum.truncate_eq _ 65535 (by decide) (by decide) (by decide) (by decide) (by norm_num)
      fun s x hx => size_nonneg s x hx (u.word_lt _), negativeOf]
    have hle := (datumOf (u.word floatA)).whole_le 65535 1
    split <;> omega
  refine .label (fun _ u v => Truncated 1 u v ∧ negativeOf u = false) fun positive => ?_
  refine .truncate rfl (by decide) (by decide) (show (2 : ℚ) ^ (28 - 28 : ℤ) = 1 by norm_num) ?_
  refine .exec (Q := fun _ u v => Truncated 1 u v ∧ v.negative = negativeOf u)
    rfl (fun n u v hv => ⟨_, rfl, hv, ?_⟩) ?_
  · show isNegative (v.zp work) = _
    rw [hv.2]
    cases negativeOf u <;> rfl
  refine .branch (Q := .given fun u => negativeOf u = true) (fun n u v hv htaken =>
    ?_) (fun n u v hv hskipped => ?_) ?_
  · exact ⟨hv.1, by simpa [View.takes?, hv.2] using htaken⟩
  · show negativeOf u = true
    simpa [View.takes?, hv.2] using hskipped
  refine .exec (Q := fun _ u v => truncatesTo intR 0 65535 1 u v)
    rfl (fun n u v hv => ⟨_, rfl, ⟨rfl, rfl⟩, ?_⟩)
    (.rts (fun _ _ _ h => h) (.bind ?_))
  · have hnegative : negativeOf u = true := hv
    rw [htruncate, if_pos hnegative]
    rfl
  refine .exec (Q := fun _ u v => truncatesTo intR 0 65535 1 u v) rfl (fun n u v hv => ?_)
    (.rts (fun _ _ _ h => h) (.done (by decide) _))
  obtain ⟨⟨hword, -⟩, hpositive⟩ := hv
  obtain ⟨w, hexec, hmoved⟩ := move_word v floatR (y := intR) (by decide)
  have hreturn : execAll w [.instr .lda (.zeroPage intR), .instr .ldx (.zeroPage (intR + 1))] =
      some ((w.setA (w.zp intR)).setX (w.zp (intR + 1))) := rfl
  refine ⟨_, execAll_trans hexec hreturn, ⟨rfl, rfl⟩, ?_⟩
  have := w.word_lt intR
  show (w.word intR : ℤ) = _
  rw [htruncate, if_neg (by simp [hpositive]), ← hword, hmoved]
  omega

theorem floatToI16_conducted {t : Target} : Conducted t .floatToI16 := by
  refine .last ?_
  simp only [body, floatToI16, bind_assoc]
  refine .truncate rfl (by decide) (by decide) (show (2 : ℚ) ^ (28 - 28 : ℤ) = 1 by norm_num) ?_
  exact .tailCall (by decide)
    trivially (fun n u v w hv hw => ⟨hw.1, truncate_of_saturates (by norm_num) hv hw⟩)
      (.done (by decide) _)

theorem floatToFixed_conducted {t : Target} : Conducted t .floatToFixed := by
  refine .last ?_
  simp only [body, floatToFixed, bind_assoc]
  refine .truncate rfl (by decide) (by decide) (show (2 : ℚ) ^ (28 - 24 : ℤ) = 16 by norm_num) ?_
  refine .call (Q := fun _ u v => returnsWord intR v ∧ (v.word intR : ℤ) =
    (datumOf (u.word floatA)).truncate (-32768) 32767 16 % 65536) (by decide) (fun _ _ _ _ _ =>
      trivial) (fun n u v b w hv _ hw => ?_) ?_
  · exact ⟨hw.1, truncate_of_saturates (by norm_num) hv hw⟩
  refine .exec (Q := fun _ u v => truncatesTo fixR (-32768) 32767 16 u v)
    rfl (fun n u v hv => ⟨_, rfl, ⟨?_, ?_⟩, ?_⟩)
    (.rts (fun _ _ _ h => h) (.done (by decide) _))
  · simp +decide
  · simp +decide
  · obtain ⟨⟨ha, hx⟩, hword⟩ := hv
    rw [← hword]
    simp +decide [View.word, ha, hx]

end Breadbin.Routine
