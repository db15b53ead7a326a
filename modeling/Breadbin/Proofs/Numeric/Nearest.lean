import Mathlib.Algebra.Order.Field.Power
import Mathlib.Data.Rat.Floor
import Mathlib.Tactic.Linarith
import Mathlib.Tactic.Ring
import Mathlib.Tactic.FieldSimp
import Mathlib.Tactic.NormNum
import Breadbin.Numeric.Half

/-!
# The nearest half-precision number

What patterns stand for, exactly, and which of them is the nearest to a rational number.  An
infinity takes the place of the power of two behind the largest number, so that a number is rounded
to it from half of the last step on.
-/

namespace Breadbin.Numeric

/-- What a half-precision pattern stands for. -/
inductive Datum where
  | nan
  | infinite (negative : Bool)
  | finite (negative : Bool) (size : ℚ)

namespace Half

/-- The magnitude of a finite number; the power of two behind the largest one if it is infinite. -/
def size (h : Half) : ℚ := h.magnitude.1 * 2 ^ h.magnitude.2

/-- What a pattern stands for. -/
def datum (h : Half) : Datum :=
  if h.isNan then .nan else if h.isInfinite then .infinite h.negative else .finite h.negative h.size

end Half

/-- The magnitude of the pattern with the given lower bits and no sign. -/
def scale (n : ℕ) : ℚ := (Half.mk (UInt16.ofNat n)).size

/-- The lower bits of an infinity. -/
def infinityBits : ℕ := 0x7C00

/-- Of all magnitudes the one with the lower bits `n` is the nearest to a number, or one of two
nearest ones, and even. -/
structure Nearest (x : ℚ) (n : ℕ) : Prop where
  le : n ≤ infinityBits
  nearest : ∀ k ≤ infinityBits, k ≠ n → |x - scale n| < |x - scale k| ∨
    |x - scale n| = |x - scale k| ∧ n % 2 = 0

/-- A pattern is the nearest one to what it should stand for. -/
def Datum.Rounds : Datum → Half → Prop
  | nan, h => h.isNan = true
  | infinite s, h => h.isInfinite = true ∧ h.negative = s
  | finite s x, h => h.negative = s ∧ Nearest x (h.raw.toNat % 32768)

/-! ## Steps between magnitudes -/

/-- The distance from a magnitude to the next one. -/
def gap (n : ℕ) : ℚ := 2 ^ ((max (n / 1024) 1 : ℕ) - 25 : ℤ)

theorem gap_pos (n : ℕ) : 0 < gap n := by
  unfold gap
  positivity

theorem gap_mono {m n : ℕ} (h : m ≤ n) : gap m ≤ gap n := by
  unfold gap
  refine zpow_le_zpow_right₀ (by norm_num) ?_
  have := Nat.div_le_div_right (c := 1024) h
  omega

theorem scale_eq {n : ℕ} (hn : n < 32768) :
    scale n = (if n / 1024 = 0 then n else 1024 + n % 1024 : ℕ) * gap n := by
  have hfield : (Half.mk (UInt16.ofNat n)).exponentField = n / 1024 := by
    simp [Half.exponentField]
    omega
  have hfraction : (Half.mk (UInt16.ofNat n)).fractionField = n % 1024 := by
    simp [Half.fractionField]
  unfold scale Half.size Half.magnitude gap
  rw [hfield, hfraction]
  cases hx : n / 1024 with
  | zero =>
    have : n % 1024 = n := by omega
    simp [this]
  | succ x =>
    rw [if_neg (by omega), max_eq_left (by omega)]
    norm_num

theorem scale_succ {n : ℕ} (hn : n + 1 < 32768) : scale (n + 1) = scale n + gap n := by
  rw [scale_eq hn, scale_eq (by omega)]
  by_cases hlast : n % 1024 = 1023
  · -- the next magnitude is the first one with its exponent
    have hnext : (n + 1) / 1024 = n / 1024 + 1 := by omega
    have hzero : (n + 1) % 1024 = 0 := by omega
    unfold gap
    rw [if_neg (by omega), hnext, hzero]
    by_cases hsub : n / 1024 = 0
    · have : n = 1023 := by omega
      subst this
      norm_num
    · rw [if_neg hsub, hlast, max_eq_left (by omega), max_eq_left (by omega)]
      have : ((n / 1024 + 1 : ℕ) : ℤ) - 25 = ((n / 1024 : ℕ) : ℤ) - 25 + 1 := by
        push_cast
        ring
      rw [this, zpow_add_one₀ (by norm_num)]
      push_cast
      ring
  · have hsame : (n + 1) / 1024 = n / 1024 := by omega
    have hmod : (n + 1) % 1024 = n % 1024 + 1 := by omega
    unfold gap
    rw [hsame, hmod]
    split <;> push_cast <;> ring

theorem scale_lt {m n : ℕ} (h : m < n) (hn : n < 32768) : scale m < scale n := by
  induction n, h using Nat.le_induction with
  | base =>
    rw [scale_succ hn]
    exact lt_add_of_pos_right _ (gap_pos m)
  | succ k hk ih =>
    rw [scale_succ hn]
    exact (ih (by omega)).trans (lt_add_of_pos_right _ (gap_pos k))

theorem scale_le {m n : ℕ} (h : m ≤ n) (hn : n < 32768) : scale m ≤ scale n := by
  rcases Nat.eq_or_lt_of_le h with rfl | hlt
  · exact le_refl _
  · exact (scale_lt hlt hn).le

/-- A number that is not beyond half of the steps to the neighbours of a magnitude is rounded to
it. -/
theorem nearest_of_steps {x : ℚ} {n : ℕ} (hn : n ≤ infinityBits)
    (hlo : ∀ k, k + 1 = n → scale k + gap k / 2 < x ∨ scale k + gap k / 2 = x ∧ n % 2 = 0)
    (hhi : n < infinityBits → x < scale n + gap n / 2 ∨ x = scale n + gap n / 2 ∧ n % 2 = 0) :
    Nearest x n := by
  have hbits : infinityBits < 32768 := by decide
  refine ⟨hn, fun k hk hne => ?_⟩
  rcases Nat.lt_or_gt_of_ne hne with hlt | hgt
  · -- a smaller magnitude is not above the one before
    obtain ⟨m, rfl⟩ := Nat.exists_eq_succ_of_ne_zero (Nat.ne_of_gt (Nat.zero_lt_of_lt hlt))
    have hstep : scale (m + 1) = scale m + gap m := scale_succ (by omega)
    have hle : scale k ≤ scale m := scale_le (by omega) (by omega)
    have hgap := gap_pos m
    have hx : scale m + gap m / 2 ≤ x := (hlo m rfl).elim le_of_lt fun h => h.1.le
    have hright : |x - scale k| = x - scale k := abs_of_nonneg (by linarith)
    rw [Nat.succ_eq_add_one, hright]
    rcases le_or_gt (scale (m + 1)) x with hin | hout
    · left
      rw [abs_of_nonneg (by linarith)]
      linarith
    · rw [abs_of_neg (by linarith)]
      rcases hlo m rfl with hbeyond | ⟨hhalf, heven⟩
      · left
        linarith
      · rcases hle.lt_or_eq with hless | heq
        · left
          linarith
        · exact .inr ⟨by linarith, heven⟩
  · -- a larger magnitude is not below the next one
    have hstep : scale (n + 1) = scale n + gap n := scale_succ (by omega)
    have hle : scale (n + 1) ≤ scale k := scale_le hgt (by omega)
    have hgap := gap_pos n
    have hx := hhi (by omega)
    have hx' : x ≤ scale n + gap n / 2 := hx.elim le_of_lt fun h => h.1.le
    have hright : |x - scale k| = scale k - x := by
      rw [abs_of_nonpos (by linarith)]
      ring
    rw [hright]
    rcases le_or_gt x (scale n) with hin | hout
    · left
      rw [abs_of_nonpos (by linarith)]
      linarith
    · rw [abs_of_pos (by linarith)]
      rcases hx with hbelow | ⟨hhalf, heven⟩
      · left
        linarith
      · rcases hle.lt_or_eq with hless | heq
        · left
          linarith
        · exact .inr ⟨by linarith, heven⟩

/-- Magnitudes are their own nearest ones. -/
theorem nearest_scale {n : ℕ} (hn : n ≤ infinityBits) : Nearest (scale n) n := by
  have hbits : infinityBits < 32768 := by decide
  refine nearest_of_steps hn (fun k hk => .inl ?_) fun _ => .inl ?_
  · subst hk
    rw [scale_succ (by omega)]
    have := gap_pos k
    linarith
  · have := gap_pos n
    linarith

end Breadbin.Numeric

/-!
## Mantissas with a sticky bit

A mantissa that lost bits on the right stands for a number that is no longer known exactly.  It is
enough that both lie between the same multiples of a small power of two: as long as the lowest bits
that are kept stand below those that decide on a tie, the number is rounded as the mantissa says.
-/

namespace Breadbin.Numeric

/-- A mantissa is a number, or both lie strictly between the same multiples of `w`. -/
def Near (w m : ℕ) (t : ℚ) : Prop :=
  t = m ∨ ∃ k : ℕ, w * k < m ∧ m < w * k + w ∧ (w * k : ℚ) < t ∧ t < w * k + w

/-- Half of a mantissa; the lowest bit stays set if a bit is lost. -/
def halved (m : ℕ) : ℕ := if m % 2 = 1 ∧ m / 2 % 2 = 0 then m / 2 + 1 else m / 2

/-- A mantissa that is shifted by some places. -/
def jammed (m : ℕ) : ℕ → ℕ
  | 0 => m
  | k + 1 => jammed (halved m) k

/-- An eighth of a mantissa, rounded to the nearest, a tie going to the even one. -/
def eighth (m : ℕ) : ℕ := m / 8 + if 4 < m % 8 ∨ m % 8 = 4 ∧ m / 8 % 2 = 1 then 1 else 0

/-- The lower bits of the pattern for the mantissa `m`, its leading one at bit thirteen, and the
exponent `e`: the mantissa is shifted until the exponent is positive, and rounded. -/
def packed (e : ℤ) (m : ℕ) : ℕ :=
  min infinityBits ((max e 1 - 1).toNat * 1024 + eighth (jammed m (1 - e).toNat))

/-! ## Shifts -/

namespace Near

variable {m n : ℕ} {t s : ℚ}

theorem exact (w m : ℕ) : Near w m m := .inl rfl

theorem four (h : Near 2 m t) : Near 4 m t := by
  rcases h with rfl | ⟨k, hm, hm', ht, ht'⟩
  · exact .exact 4 m
  · refine .inr ⟨k / 2, by omega, by omega, ?_, ?_⟩
    · have : (4 * (k / 2) : ℕ) ≤ (2 * k : ℕ) := by omega
      have : (4 * (k / 2 : ℕ) : ℚ) ≤ 2 * k := by exact_mod_cast this
      push_cast at ht ⊢
      linarith
    · have : (2 * k + 2 : ℕ) ≤ (4 * (k / 2) + 4 : ℕ) := by omega
      have : (2 * k + 2 : ℚ) ≤ 4 * (k / 2 : ℕ) + 4 := by exact_mod_cast this
      push_cast at ht' ⊢
      linarith

theorem halve (h : Near 4 m t) : Near 2 (halved m) (t / 2) := by
  unfold halved
  rcases h with rfl | ⟨k, hm, hm', ht, ht'⟩
  · by_cases heven : m % 2 = 0
    · left
      rw [if_neg (by omega)]
      have : (m : ℚ) = 2 * (m / 2 : ℕ) := by exact_mod_cast (by omega : m = 2 * (m / 2))
      linarith
    · right
      have hhalf : (m : ℚ) = 4 * (m / 4 : ℕ) + (m % 4 : ℕ) := by
        exact_mod_cast (by omega : m = 4 * (m / 4) + m % 4)
      have hlow : (0 : ℚ) < (m % 4 : ℕ) := by exact_mod_cast (by omega : 0 < m % 4)
      have hhigh : ((m % 4 : ℕ) : ℚ) < 4 := by exact_mod_cast (by omega : m % 4 < 4)
      refine ⟨m / 4, ?_, ?_, ?_, ?_⟩
      · split <;> omega
      · split <;> omega
      · push_cast
        linarith
      · push_cast
        linarith
  · refine .inr ⟨k, ?_, ?_, ?_, ?_⟩
    · split <;> omega
    · split <;> omega
    · push_cast at ht ⊢
      linarith
    · push_cast at ht' ⊢
      linarith

theorem double (h : Near 2 m t) : Near 4 (2 * m) (2 * t) := by
  rcases h with rfl | ⟨k, hm, hm', ht, ht'⟩
  · left
    push_cast
    ring
  · refine .inr ⟨k, by omega, by omega, ?_, ?_⟩
    · push_cast at ht ⊢
      linarith
    · push_cast at ht' ⊢
      linarith

/-- A mantissa that is known exactly, and even, is added. -/
theorem add (h : Near 2 n s) (heven : m % 2 = 0) : Near 2 (m + n) (m + s) := by
  rcases h with rfl | ⟨k, hn, hn', hs, hs'⟩
  · left
    push_cast
    ring
  · have hhalf : (m : ℚ) = 2 * (m / 2 : ℕ) := by exact_mod_cast (by omega : m = 2 * (m / 2))
    refine .inr ⟨m / 2 + k, by omega, by omega, ?_, ?_⟩
    · push_cast at hs ⊢
      linarith
    · push_cast at hs' ⊢
      linarith

/-- A mantissa is subtracted from one that is known exactly, and even. -/
theorem sub (h : Near 2 n s) (heven : m % 2 = 0) (hle : n ≤ m) : Near 2 (m - n) (m - s) := by
  rcases h with rfl | ⟨k, hn, hn', hs, hs'⟩
  · left
    push_cast [hle]
    ring
  · have hhalf : (m : ℚ) = 2 * (m / 2 : ℕ) := by exact_mod_cast (by omega : m = 2 * (m / 2))
    have hrest : ((m / 2 - k - 1 : ℕ) : ℚ) = (m / 2 : ℕ) - k - 1 := by
      rw [Nat.cast_sub (by omega), Nat.cast_sub (by omega), Nat.cast_one]
    refine .inr ⟨m / 2 - k - 1, by omega, by omega, ?_, ?_⟩
    · push_cast at hs' ⊢
      rw [hrest]
      linarith
    · push_cast at hs ⊢
      rw [hrest]
      linarith

theorem jam (h : Near 2 m t) (k : ℕ) : Near 2 (jammed m k) (t / 2 ^ k) := by
  induction k generalizing m t with
  | zero => simpa [jammed] using h
  | succ k ih =>
    have := ih h.four.halve
    rwa [div_div, ← pow_succ'] at this

theorem jam_four (h : Near 4 m t) (k : ℕ) : Near 4 (jammed m k) (t / 2 ^ k) := by
  cases k with
  | zero => simpa [jammed] using h
  | succ k =>
    have := (h.halve.jam k).four
    rwa [div_div, ← pow_succ'] at this

/-- A mantissa tells on which side of a multiple of four the number lies. -/
theorem lower (h : Near 4 m t) {j : ℕ} (hj : 4 * j ≤ m) : (4 * j : ℚ) ≤ t := by
  rcases h with rfl | ⟨k, hm, hm', ht, ht'⟩
  · exact_mod_cast hj
  · have : (j : ℚ) ≤ k := by exact_mod_cast (by omega : j ≤ k)
    push_cast at ht
    linarith

theorem upper (h : Near 4 m t) {j : ℕ} (hj : m ≤ 4 * j) : t ≤ 4 * j := by
  rcases h with rfl | ⟨k, hm, hm', ht, ht'⟩
  · exact_mod_cast hj
  · have : (k + 1 : ℚ) ≤ j := by exact_mod_cast (by omega : k + 1 ≤ j)
    push_cast at ht'
    linarith

theorem strict_lower (h : Near 4 m t) {j : ℕ} (hj : 4 * j < m) : (4 * j : ℚ) < t := by
  rcases h with rfl | ⟨k, hm, hm', ht, ht'⟩
  · exact_mod_cast hj
  · have : (j : ℚ) ≤ k := by exact_mod_cast (by omega : j ≤ k)
    push_cast at ht
    linarith

theorem strict_upper (h : Near 4 m t) {j : ℕ} (hj : m < 4 * j) : t < 4 * j := by
  rcases h with rfl | ⟨k, hm, hm', ht, ht'⟩
  · exact_mod_cast hj
  · have : (k + 1 : ℚ) ≤ j := by exact_mod_cast (by omega : k + 1 ≤ j)
    push_cast at ht'
    linarith

/-- A multiple of four is exact. -/
theorem eq_of_dvd (h : Near 4 m t) (hm : m % 4 = 0) : t = m := by
  rcases h with rfl | ⟨k, hk, hk', -⟩
  · rfl
  · omega

end Near

/-! ## Rounding -/

section Eighth

variable {m : ℕ} {t : ℚ}

/-- A number is at most half above the eighth of its mantissa that is rounded. -/
theorem Near.le_eighth (h : Near 4 m t) :
    t < 8 * eighth m + 4 ∨ t = 8 * eighth m + 4 ∧ eighth m % 2 = 0 := by
  by_cases hup : 4 < m % 8 ∨ m % 8 = 4 ∧ m / 8 % 2 = 1
  · have heighth : eighth m = m / 8 + 1 := by rw [eighth, if_pos hup]
    have := h.strict_upper (j := 2 * (m / 8) + 2) (by omega)
    rw [heighth]
    push_cast at this ⊢
    left
    linarith
  · have heighth : eighth m = m / 8 := by rw [eighth, if_neg hup, Nat.add_zero]
    rw [heighth]
    by_cases hhalf : m % 8 = 4
    · right
      rw [h.eq_of_dvd (by omega)]
      exact ⟨by exact_mod_cast (by omega : m = 8 * (m / 8) + 4), by omega⟩
    · left
      have := h.strict_upper (j := 2 * (m / 8) + 1) (by omega)
      push_cast at this
      linarith

/-- A number is at most half below the eighth of its mantissa that is rounded. -/
theorem Near.eighth_le (h : Near 4 m t) :
    (8 * eighth m - 4 : ℚ) < t ∨ (8 * eighth m - 4 : ℚ) = t ∧ eighth m % 2 = 0 := by
  by_cases hup : 4 < m % 8 ∨ m % 8 = 4 ∧ m / 8 % 2 = 1
  · have heighth : eighth m = m / 8 + 1 := by rw [eighth, if_pos hup]
    rw [heighth]
    by_cases hhalf : m % 8 = 4
    · right
      rw [h.eq_of_dvd (by omega)]
      refine ⟨?_, by omega⟩
      have : (m : ℚ) = 8 * (m / 8 : ℕ) + 4 := by exact_mod_cast (by omega : m = 8 * (m / 8) + 4)
      push_cast
      linarith
    · left
      have := h.strict_lower (j := 2 * (m / 8) + 1) (by omega)
      push_cast at this ⊢
      linarith
  · have heighth : eighth m = m / 8 := by rw [eighth, if_neg hup, Nat.add_zero]
    have := h.lower (j := 2 * (m / 8)) (by omega)
    rw [heighth]
    push_cast at this
    left
    linarith

theorem eighth_bounds (hm : m < 16384) : eighth m ≤ 2048 ∧ (8192 ≤ m → 1024 ≤ eighth m) := by
  unfold eighth
  split <;> omega

end Eighth

theorem halved_lt {m n : ℕ} (h : m < 2 * n) : halved m ≤ n := by
  unfold halved
  split <;> omega

theorem jammed_lt {m : ℕ} (h : m < 16384) (k : ℕ) : jammed m k < 16384 := by
  induction k generalizing m with
  | zero => exact h
  | succ k ih => exact ih (Nat.lt_of_le_of_lt (halved_lt (n := 8192) h) (by decide))

/-- The magnitude of a pattern, by its exponent and its rounded mantissa, which may be a power of
two too large. -/
theorem scale_parts {e r : ℕ} (he : 1 ≤ e) (hr : r ≤ 2048) (hnormal : 1024 ≤ r ∨ e = 1)
    (hn : (e - 1) * 1024 + r < 32768) : scale ((e - 1) * 1024 + r) = r * 2 ^ ((e : ℤ) - 25) := by
  rw [scale_eq hn]
  unfold gap
  by_cases hsmall : r < 1024
  · obtain rfl : e = 1 := by omega
    have : r / 1024 = 0 := by omega
    simp [this]
  by_cases hcarry : r = 2048
  · subst hcarry
    have hfield : ((e - 1) * 1024 + 2048) / 1024 = e + 1 := by omega
    have hfraction : ((e - 1) * 1024 + 2048) % 1024 = 0 := by omega
    rw [hfield, hfraction, if_neg (by omega), max_eq_left (by omega)]
    have : ((e + 1 : ℕ) : ℤ) - 25 = (e : ℤ) - 25 + 1 := by
      push_cast
      ring
    rw [this, zpow_add_one₀ (by norm_num)]
    push_cast
    ring
  · have hfield : ((e - 1) * 1024 + r) / 1024 = e := by omega
    have hfraction : 1024 + ((e - 1) * 1024 + r) % 1024 = r := by omega
    rw [hfield, hfraction, if_neg (by omega), max_eq_left he]

/-- The step behind a pattern is not smaller than the last place of its mantissa. -/
theorem le_gap {e n : ℕ} (h : e * 1024 ≤ n ∨ e = 1) : (2 : ℚ) ^ ((e : ℤ) - 25) ≤ gap n := by
  unfold gap
  refine zpow_le_zpow_right₀ (by norm_num) ?_
  have : e * 1024 ≤ n → e ≤ n / 1024 := fun h => (Nat.le_div_iff_mul_le (by decide)).2 h
  omega

/-- A number whose mantissa needs no more shifts is rounded to the nearest pattern. -/
theorem Near.nearest {e m : ℕ} {t : ℚ} (h : Near 4 m t) (he : 1 ≤ e) (hm : m < 16384)
    (hnormal : 8192 ≤ m ∨ e = 1) :
    Nearest (t * 2 ^ ((e : ℤ) - 28)) (min infinityBits ((e - 1) * 1024 + eighth m)) := by
  have hbits : infinityBits = 31744 := rfl
  obtain ⟨hr, hr'⟩ := eighth_bounds hm
  have hr'' : 1024 ≤ eighth m ∨ e = 1 := hnormal.imp_left hr'
  have hupper := h.le_eighth
  have hlower := h.eighth_le
  have hlarge : 8192 ≤ m → (8192 : ℚ) ≤ t := fun hm => by
    have := h.lower (j := 2048) (by omega)
    push_cast at this
    linarith
  have hunit : (2 : ℚ) ^ ((e : ℤ) - 28) = 2 ^ ((e : ℤ) - 25) / 8 := by
    rw [show (e : ℤ) - 28 = e - 25 - 3 by ring, zpow_sub₀ (by norm_num)]
    norm_num
  have hpos : (0 : ℚ) < 2 ^ ((e : ℤ) - 25) := by positivity
  rw [hunit]
  generalize hu : (2 : ℚ) ^ ((e : ℤ) - 25) = u at hpos
  generalize eighth m = r at *
  rcases Nat.lt_or_ge infinityBits ((e - 1) * 1024 + r) with hinfinite | hfinite
  · -- the number is not below the power of two behind the largest one
    rw [min_eq_left hinfinite.le]
    have hhuge : (64 : ℚ) ≤ u := by
      rw [← hu, show (64 : ℚ) = 2 ^ (6 : ℤ) by norm_num]
      exact zpow_le_zpow_right₀ (by norm_num) (by omega)
    have ht := hlarge (by omega)
    refine nearest_of_steps (Nat.le_refl _) (fun k hk => .inl ?_) fun hlt =>
      absurd hlt (Nat.lt_irrefl _)
    have hscale := scale_succ (n := k) (by omega)
    have htop : scale (k + 1) = 65536 := by
      rw [hk, scale_eq (by decide)]
      norm_num [gap, infinityBits]
    have := gap_pos k
    nlinarith
  · rw [min_eq_right hfinite]
    have hscale := scale_parts he hr hr'' (by omega)
    rw [hu] at hscale
    refine nearest_of_steps hfinite (fun k hk => ?_) fun _ => ?_
    · have hstep := scale_succ (n := k) (by omega)
      rw [hk, hscale] at hstep
      rcases Nat.lt_or_ge k (e * 1024) with hfirst | hgap
      · by_cases hone : e = 1
        · -- below the normal numbers all steps are the same
          have hgap : u ≤ gap k := hu ▸ le_gap (.inr hone)
          rcases hlower with hlt | ⟨heq, heven⟩
          · left
            nlinarith
          · rcases hgap.lt_or_eq with hless | hsame
            · left
              nlinarith
            · refine .inr ⟨?_, by omega⟩
              rw [← heq]
              linarith
        · -- the step before the first mantissa is smaller, but the number is not below it
          have hm' : 8192 ≤ m := by omega
          have ht := hlarge hm'
          have hfirst : r = 1024 := by omega
          have := gap_pos k
          left
          rw [hfirst] at hstep
          push_cast at hstep
          nlinarith
      · have hgap : u ≤ gap k := hu ▸ le_gap (.inl hgap)
        rcases hlower with hlt | ⟨heq, heven⟩
        · left
          nlinarith
        · rcases hgap.lt_or_eq with hless | hsame
          · left
            nlinarith
          · refine .inr ⟨?_, by omega⟩
            rw [← heq]
            linarith
    · have hgap : u ≤ gap ((e - 1) * 1024 + r) := hu ▸ le_gap (by omega)
      rw [hscale]
      rcases hupper with hlt | ⟨heq, heven⟩
      · left
        nlinarith
      · rcases hgap.lt_or_eq with hless | hsame
        · left
          nlinarith
        · refine .inr ⟨?_, by omega⟩
          rw [heq, ← hsame]
          ring

/-- **An unpacked number is rounded once.**  The pattern that is packed is the nearest one to the
number that the mantissa stands for. -/
theorem Near.packed {m : ℕ} {t : ℚ} (h : Near 4 m t) (hm : 8192 ≤ m) (hm' : m < 16384) (e : ℤ) :
    Nearest (t * 2 ^ (e - 28)) (packed e m) := by
  unfold Numeric.packed
  rcases le_or_gt 1 e with he | he
  · have hshifts : (1 - e).toNat = 0 := by omega
    have hplace : (max e 1 - 1).toNat = e.toNat - 1 := by omega
    have hcast : ((e.toNat : ℕ) : ℤ) = e := by omega
    rw [hshifts, hplace, jammed]
    have := h.nearest (e := e.toNat) (by omega) hm' (.inl hm)
    rwa [hcast] at this
  · have hplace : (max e 1 - 1).toNat = 1 - 1 := by omega
    have hvalue : t * 2 ^ (e - 28) = t / 2 ^ (1 - e).toNat * 2 ^ (((1 : ℕ) : ℤ) - 28) := by
      rw [div_mul_eq_mul_div, eq_div_iff (by positivity), mul_assoc, ← zpow_natCast,
        ← zpow_add₀ (by norm_num)]
      congr 2
      omega
    rw [hplace, hvalue]
    exact (h.jam_four _).nearest (Nat.le_refl 1) (jammed_lt hm' _) (.inr rfl)

end Breadbin.Numeric
