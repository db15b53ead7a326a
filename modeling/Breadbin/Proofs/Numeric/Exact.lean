import Breadbin.Proofs.Numeric.Nearest

/-!
# Exact arithmetic on half-precision numbers

The results that sums, differences, products and quotients should have before they are rounded, with
signed zeros, infinities and what is no number.
-/

namespace Breadbin.Numeric

/-- A magnitude with its sign. -/
def withSign (negative : Bool) (x : ℚ) : ℚ := if negative then -x else x

namespace Datum

/-- The same with the other sign. -/
def negate : Datum → Datum
  | nan => nan
  | infinite s => infinite !s
  | finite s x => finite (!s) x

/-- The sum.  One that is zero is negative if both numbers are. -/
def add : Datum → Datum → Datum
  | nan, _ => nan
  | _, nan => nan
  | infinite s, infinite t => if s = t then infinite s else nan
  | infinite s, finite .. => infinite s
  | finite .., infinite t => infinite t
  | finite s x, finite t y =>
    let sum := withSign s x + withSign t y
    finite (if sum = 0 then s && t else decide (sum < 0)) |sum|

def sub (a b : Datum) : Datum := a.add b.negate

/-- The product; that of a zero and an infinity is no number. -/
def mul : Datum → Datum → Datum
  | nan, _ => nan
  | _, nan => nan
  | infinite s, infinite t => infinite (s ^^ t)
  | infinite s, finite t y => if y = 0 then nan else infinite (s ^^ t)
  | finite s x, infinite t => if x = 0 then nan else infinite (s ^^ t)
  | finite s x, finite t y => finite (s ^^ t) (x * y)

/-- The quotient.  A number that is not zero gives an infinity when it is divided by zero. -/
def div : Datum → Datum → Datum
  | nan, _ => nan
  | _, nan => nan
  | infinite _, infinite _ => nan
  | infinite s, finite t _ => infinite (s ^^ t)
  | finite s _, infinite t => finite (s ^^ t) 0
  | finite s x, finite t y => if y ≠ 0 then finite (s ^^ t) (x / y) else if x = 0 then nan
      else infinite (s ^^ t)

end Datum

/-! ## Patterns as words -/

/-- The half-precision number of a word. -/
def Half.ofWord (n : ℕ) : Half := ⟨UInt16.ofNat n⟩

/-- The exponent of a word is that of infinities and what is no number. -/
def Special (n : ℕ) : Prop := n / 1024 % 32 = 31

/-- A word stands for a zero. -/
def IsZero (n : ℕ) : Prop := n % 32768 = 0

instance (n : ℕ) : Decidable (Special n) := inferInstanceAs (Decidable (_ = _))

instance (n : ℕ) : Decidable (IsZero n) := inferInstanceAs (Decidable (_ = _))

/-- A word has the sign bit set. -/
def signOf (n : ℕ) : Bool := decide (32768 ≤ n)

/-- The number that a word stands for. -/
def valueOf (n : ℕ) : ℚ := withSign (signOf n) (scale (n % 32768))

/-- What a word stands for. -/
def datumOf (n : ℕ) : Datum := (Half.ofWord n).datum

/-- A word stands for no number. -/
def IsNan (n : ℕ) : Prop := Special n ∧ n % 1024 ≠ 0

instance (n : ℕ) : Decidable (IsNan n) := inferInstanceAs (Decidable (_ ∧ _))

/-- The sign bit of a word. -/
def signBit (negative : Bool) : ℕ := if negative then 32768 else 0

section Words

variable {n a b : ℕ}

theorem toNat_raw_ofWord (hn : n < 65536) : (Half.ofWord n).raw.toNat = n := by
  rw [Half.ofWord, UInt16.toNat_ofNat', Nat.mod_eq_of_lt (by omega)]

theorem exponentField_ofWord (hn : n < 65536) : (Half.ofWord n).exponentField = n / 1024 % 32 := by
  rw [Half.exponentField, toNat_raw_ofWord hn]

theorem fractionField_ofWord (hn : n < 65536) : (Half.ofWord n).fractionField = n % 1024 := by
  rw [Half.fractionField, toNat_raw_ofWord hn]

theorem negative_ofWord (hn : n < 65536) : (Half.ofWord n).negative = signOf n := by
  rw [Half.negative, signOf, Bool.eq_iff_iff, decide_eq_true_eq, decide_eq_true_eq,
    UInt16.le_iff_toNat_le, toNat_raw_ofWord hn]
  rfl

theorem size_ofWord (hn : n < 65536) : (Half.ofWord n).size = scale (n % 32768) := by
  change _ = (Half.ofWord (n % 32768)).size
  have hfield : n % 32768 / 1024 % 32 = n / 1024 % 32 := by omega
  have hfraction : n % 32768 % 1024 = n % 1024 := by omega
  rw [Half.size, Half.size, Half.magnitude, Half.magnitude, exponentField_ofWord hn,
    fractionField_ofWord hn, exponentField_ofWord (by omega), fractionField_ofWord (by omega),
    hfield, hfraction]

theorem isNan_ofWord (hn : n < 65536) : (Half.ofWord n).isNan = decide (IsNan n) := by
  rw [Half.isNan, exponentField_ofWord hn, fractionField_ofWord hn, Bool.eq_iff_iff,
    decide_eq_true_eq]
  simp [IsNan, Special]

theorem isInfinite_ofWord (hn : n < 65536) :
    (Half.ofWord n).isInfinite = decide (Special n ∧ n % 1024 = 0) := by
  rw [Half.isInfinite, exponentField_ofWord hn, fractionField_ofWord hn, Bool.eq_iff_iff,
    decide_eq_true_eq]
  simp [Special]

theorem datumOf_eq (hn : n < 65536) :
    datumOf n = if Special n then if n % 1024 = 0 then .infinite (signOf n) else .nan
      else .finite (signOf n) (scale (n % 32768)) := by
  unfold datumOf Half.datum
  rw [isNan_ofWord hn, isInfinite_ofWord hn, negative_ofWord hn, size_ofWord hn]
  unfold IsNan
  by_cases hspecial : Special n <;> by_cases hzero : n % 1024 = 0 <;> simp [hspecial, hzero]

theorem datumOf_finite (hn : n < 65536) (h : ¬Special n) :
    datumOf n = .finite (signOf n) (scale (n % 32768)) := by
  rw [datumOf_eq hn, if_neg h]

theorem datumOf_nan (hn : n < 65536) (h : IsNan n) : datumOf n = .nan := by
  rw [datumOf_eq hn, if_pos h.1, if_neg h.2]

theorem datumOf_infinite (hn : n < 65536) (h : Special n) (h' : ¬IsNan n) :
    datumOf n = .infinite (signOf n) := by
  rw [datumOf_eq hn, if_pos h, if_pos (not_not.1 fun hne => h' ⟨h, hne⟩)]

theorem not_special_of_isZero (h : IsZero n) : ¬Special n := by
  unfold IsZero at h
  unfold Special
  omega

theorem lower_le_of_not_special (h : ¬Special n) : n % 32768 ≤ infinityBits := by
  unfold Special at h
  unfold infinityBits
  omega

theorem scale_zero : scale 0 = 0 := by
  rw [scale_eq (by decide)]
  simp

theorem scale_pos (h : ¬IsZero n) : 0 < scale (n % 32768) := by
  rw [← scale_zero]
  exact scale_lt (Nat.pos_of_ne_zero h) (Nat.mod_lt _ (by decide))

theorem scale_eq_zero_iff : scale (n % 32768) = 0 ↔ IsZero n := by
  refine ⟨fun h => ?_, fun h => ?_⟩
  · by_contra hne
    exact absurd h (scale_pos hne).ne'
  · rw [h, scale_zero]

/-! ## Rounded results -/

/-- Patterns are rounded to themselves. -/
theorem datumOf_rounds (hn : n < 65536) : (datumOf n).Rounds (Half.ofWord n) := by
  rw [datumOf_eq hn]
  split
  next hspecial =>
    split
    next hzero => exact ⟨by rw [isInfinite_ofWord hn]; simp [hspecial, hzero], negative_ofWord hn⟩
    next hne => exact (isNan_ofWord hn).trans (decide_eq_true ⟨hspecial, hne⟩)
  next hspecial =>
    refine ⟨negative_ofWord hn, ?_⟩
    rw [toNat_raw_ofWord hn]
    exact nearest_scale (lower_le_of_not_special hspecial)

theorem signOf_add (s : Bool) (hn : n < 32768) :
    signBit s + n < 65536 ∧ signOf (signBit s + n) = s ∧ (signBit s + n) % 32768 = n := by
  cases s <;> simp [signBit, signOf] <;> omega

theorem rounds_finite (s : Bool) {x : ℚ} (h : Nearest x n) :
    (Datum.finite s x).Rounds (Half.ofWord (signBit s + n)) := by
  have hn : n < 32768 := Nat.lt_of_le_of_lt h.le (by decide)
  obtain ⟨hlt, hsign, hlower⟩ := signOf_add s hn
  exact ⟨(negative_ofWord hlt).trans hsign, by rwa [toNat_raw_ofWord hlt, hlower]⟩

theorem rounds_zero (s : Bool) : (Datum.finite s 0).Rounds (Half.ofWord (signBit s)) := by
  have := rounds_finite s (nearest_scale (Nat.zero_le infinityBits))
  rwa [scale_zero, Nat.add_zero] at this

theorem rounds_infinite (s : Bool) :
    (Datum.infinite s).Rounds (Half.ofWord (signBit s + infinityBits)) := by
  cases s <;> exact ⟨by decide, by decide⟩

theorem rounds_nan : Datum.nan.Rounds Half.nan := by
  show Half.nan.isNan = true
  decide

theorem rounds_packed (s : Bool) {m : ℕ} {t : ℚ} (h : Near 4 m t) (hm : 8192 ≤ m)
    (hm' : m < 16384) (e : ℤ) :
    (Datum.finite s (t * 2 ^ (e - 28))).Rounds (Half.ofWord (signBit s + packed e m)) :=
  rounds_finite s (h.packed hm hm' e)

/-! ## Results of special operands -/

theorem add_special (ha : a < 65536) (hb : b < 65536) (hsa : Special a) (hsb : ¬Special b) :
    (datumOf a).add (datumOf b) = datumOf a := by
  rw [datumOf_finite hb hsb, datumOf_eq ha, if_pos hsa]
  split <;> rfl

theorem special_add (ha : a < 65536) (hb : b < 65536) (hsa : ¬Special a) (hsb : Special b) :
    (datumOf a).add (datumOf b) = datumOf b := by
  rw [datumOf_finite ha hsa, datumOf_eq hb, if_pos hsb]
  split <;> rfl

theorem special_add_self (ha : a < 65536) (hsa : Special a) :
    (datumOf a).add (datumOf a) = datumOf a := by
  rw [datumOf_eq ha, if_pos hsa]
  split
  · exact if_pos rfl
  · rfl

/-- Of two special words that differ one is no number, or they are infinities with different
signs. -/
theorem special_add_special (ha : a < 65536) (hb : b < 65536) (hsa : Special a)
    (hsb : Special b) (hne : a ≠ b) :
    (datumOf a).add (datumOf b) = .nan := by
  rw [datumOf_eq ha, datumOf_eq hb, if_pos hsa, if_pos hsb]
  by_cases hza : a % 1024 = 0 <;> by_cases hzb : b % 1024 = 0 <;>
    simp only [hza, hzb, if_true, if_false]
  · refine if_neg fun heq => hne ?_
    rw [signOf, signOf, decide_eq_decide] at heq
    unfold Special at hsa hsb
    omega
  all_goals rfl

theorem add_isZero (ha : a < 65536) (hb : b < 65536) (hsa : ¬Special a) (hza : ¬IsZero a)
    (hzb : IsZero b) :
    (datumOf a).add (datumOf b) = datumOf a := by
  have hpos := scale_pos hza
  rw [datumOf_finite ha hsa, datumOf_finite hb (not_special_of_isZero hzb), scale_eq_zero_iff.2 hzb]
  cases hsign : signOf a <;> simp [Datum.add, withSign, hpos.ne', abs_of_pos hpos, hpos, hpos.le]

theorem isZero_add (ha : a < 65536) (hb : b < 65536) (hsb : ¬Special b) (hza : IsZero a)
    (hzb : ¬IsZero b) :
    (datumOf a).add (datumOf b) = datumOf b := by
  have hpos := scale_pos hzb
  rw [datumOf_finite hb hsb, datumOf_finite ha (not_special_of_isZero hza), scale_eq_zero_iff.2 hza]
  cases hsign : signOf b <;> simp [Datum.add, withSign, hpos.ne', abs_of_pos hpos, hpos, hpos.le]

theorem isZero_add_isZero (ha : a < 65536) (hb : b < 65536) (hza : IsZero a) (hzb : IsZero b) :
    (datumOf a).add (datumOf b) = .finite (signOf a && signOf b) 0 := by
  rw [datumOf_finite ha (not_special_of_isZero hza), datumOf_finite hb (not_special_of_isZero hzb),
    scale_eq_zero_iff.2 hza, scale_eq_zero_iff.2 hzb]
  simp [Datum.add, withSign]

/-- The sum of two numbers that are not zero. -/
theorem add_finite (ha : a < 65536) (hb : b < 65536) (hsa : ¬Special a) (hsb : ¬Special b)
    (hza : ¬IsZero a) :
    (datumOf a).add (datumOf b) =
      .finite (decide (valueOf a + valueOf b < 0)) |valueOf a + valueOf b| := by
  rw [datumOf_finite ha hsa, datumOf_finite hb hsb]
  change Datum.finite (if valueOf a + valueOf b = 0 then _ else _) _ = _
  split
  next hzero =>
    -- numbers with the same sign do not cancel
    have hpos := scale_pos hza
    have hle : 0 ≤ scale (b % 32768) := by
      rw [← scale_zero]
      exact scale_le (Nat.zero_le _) (Nat.mod_lt _ (by decide))
    rw [hzero]
    unfold valueOf at hzero
    cases hs : signOf a <;> cases ht : signOf b <;> simp [withSign, hs, ht] at hzero ⊢ <;> linarith
  next => rfl

theorem mul_special (ha : a < 65536) (hb : b < 65536) (hsa : Special a) (hna : ¬IsNan a)
    (hnb : ¬IsNan b) :
    (datumOf a).mul (datumOf b) = if IsZero b then .nan else .infinite (signOf a ^^ signOf b) := by
  rw [datumOf_infinite ha hsa hna]
  by_cases hsb : Special b
  · rw [datumOf_infinite hb hsb hnb, if_neg fun hzb => not_special_of_isZero hzb hsb]
    rfl
  · rw [datumOf_finite hb hsb]
    simp [Datum.mul, scale_eq_zero_iff]

theorem special_mul (ha : a < 65536) (hb : b < 65536) (hsa : ¬Special a) (hsb : Special b)
    (hnb : ¬IsNan b) :
    (datumOf a).mul (datumOf b) = if IsZero a then .nan else .infinite (signOf a ^^ signOf b) := by
  rw [datumOf_infinite hb hsb hnb, datumOf_finite ha hsa]
  simp [Datum.mul, scale_eq_zero_iff]

theorem mul_finite (ha : a < 65536) (hb : b < 65536) (hsa : ¬Special a) (hsb : ¬Special b) :
    (datumOf a).mul (datumOf b) =
      .finite (signOf a ^^ signOf b) (scale (a % 32768) * scale (b % 32768)) := by
  rw [datumOf_finite ha hsa, datumOf_finite hb hsb]
  rfl

theorem div_special (ha : a < 65536) (hb : b < 65536) (hsa : Special a) (hna : ¬IsNan a)
    (hnb : ¬IsNan b) :
    (datumOf a).div (datumOf b) = if Special b then .nan else .infinite (signOf a ^^ signOf b) := by
  rw [datumOf_infinite ha hsa hna]
  by_cases hsb : Special b
  · rw [datumOf_infinite hb hsb hnb, if_pos hsb]
    rfl
  · rw [datumOf_finite hb hsb, if_neg hsb]
    rfl

theorem special_div (ha : a < 65536) (hb : b < 65536) (hsa : ¬Special a) (hsb : Special b)
    (hnb : ¬IsNan b) :
    (datumOf a).div (datumOf b) = .finite (signOf a ^^ signOf b) 0 := by
  rw [datumOf_infinite hb hsb hnb, datumOf_finite ha hsa]
  rfl

theorem div_isZero (ha : a < 65536) (hb : b < 65536) (hsa : ¬Special a) (hzb : IsZero b) :
    (datumOf a).div (datumOf b) = if IsZero a then .nan else .infinite (signOf a ^^ signOf b) := by
  rw [datumOf_finite ha hsa, datumOf_finite hb (not_special_of_isZero hzb)]
  simp [Datum.div, scale_eq_zero_iff, hzb]

theorem div_finite (ha : a < 65536) (hb : b < 65536) (hsa : ¬Special a) (hsb : ¬Special b)
    (hzb : ¬IsZero b) :
    (datumOf a).div (datumOf b) =
      .finite (signOf a ^^ signOf b) (scale (a % 32768) / scale (b % 32768)) := by
  rw [datumOf_finite ha hsa, datumOf_finite hb hsb]
  exact if_pos (mt scale_eq_zero_iff.1 hzb)

theorem mul_nan (ha : a < 65536) (hb : b < 65536) (h : IsNan a ∨ IsNan b) :
    (datumOf a).mul (datumOf b) = .nan ∧ (datumOf a).div (datumOf b) = .nan := by
  rcases h with h | h
  · rw [datumOf_nan ha h]
    exact ⟨rfl, rfl⟩
  · rw [datumOf_nan hb h]
    cases datumOf a <;> exact ⟨rfl, rfl⟩

/-- Flipping the sign bit changes the sign of what a word stands for. -/
theorem datumOf_flip (hn : n < 65536) :
    datumOf ((n + 32768) % 65536) = (datumOf n).negate := by
  have hlower : (n + 32768) % 65536 % 32768 = n % 32768 := by omega
  have hspecial : Special ((n + 32768) % 65536) ↔ Special n := by
    unfold Special
    omega
  have hfraction : (n + 32768) % 65536 % 1024 = n % 1024 := by omega
  have hsign : signOf ((n + 32768) % 65536) = !signOf n := by
    rw [signOf, signOf, Bool.eq_iff_iff]
    simp
    omega
  rw [datumOf_eq (Nat.mod_lt _ (by decide)), datumOf_eq hn, hsign, hlower, hfraction]
  by_cases h : Special n <;> by_cases hzero : n % 1024 = 0 <;>
    simp [h, hzero, hspecial, Datum.negate]

end Words

end Breadbin.Numeric
