import Mathlib.Order.Compare
import Mathlib.Order.WithBot
import Breadbin.Proofs.Numeric.Exact

/-!
# The order of half-precision numbers, and integers

How what two patterns stand for compares, read off a sort key; which datum a rational number is, and
which integer is left of a datum when its fraction is cut off and what is too large saturates.
-/

namespace Breadbin.Numeric

namespace Datum

/-- The rank among all numbers and infinities.  What is no number has none. -/
def rank? : Datum → Option (WithBot (WithTop ℚ))
  | nan => none
  | infinite s => some (if s then ⊥ else ⊤)
  | finite s x => some ((withSign s x : ℚ) : WithTop ℚ)

/-- How two numbers compare. -/
def compare? (a b : Datum) : Option Ordering :=
  a.rank?.bind fun x => b.rank?.map fun y => cmp x y

/-- A rational number. -/
def ofRat (x : ℚ) : Datum := finite (decide (x < 0)) |x|

/-- Whether a number or an infinity is negative. -/
def negative : Datum → Bool
  | nan => false
  | infinite s => s
  | finite s _ => s

/-- The magnitude in units of `1 / k`, without the fraction, if it is at most `limit`. -/
def whole (limit : ℕ) (k : ℚ) : Datum → ℕ
  | nan => 0
  | infinite _ => limit
  | finite _ x => min limit ⌊x * k⌋₊

/-- The integer that a number in units of `1 / k` becomes: it is truncated towards zero and brought
into a range.  What is no number becomes zero. -/
def truncate (lo hi : ℤ) (k : ℚ) : Datum → ℤ
  | nan => 0
  | infinite s => if s then lo else hi
  | finite s x => max lo (min hi (if s then -⌊x * k⌋ else ⌊x * k⌋))

end Datum

/-! ## The order -/

/-- A word whose order among words is that of what it is the key of among numbers. -/
def sortKey (n : ℕ) : ℕ := if n < 32768 then n + 32768 else 65535 - n

/-- The magnitude of a word with its sign, as an integer. -/
def signedBits (n : ℕ) : ℤ := if n < 32768 then n else 32768 - n

section Order

variable {n a b : ℕ}

/-- The rank of a word among all numbers and infinities. -/
def rankOf (n : ℕ) : WithBot (WithTop ℚ) :=
  if n = infinityBits then ⊤ else if n = 32768 + infinityBits then ⊥
    else ((valueOf n : ℚ) : WithTop ℚ)

theorem rank?_ofWord (hn : n < 65536) (h : ¬IsNan n) : (datumOf n).rank? = some (rankOf n) := by
  have hbits : infinityBits = 31744 := rfl
  by_cases hspecial : Special n
  · rw [datumOf_infinite hn hspecial h]
    have hzero : n % 1024 = 0 := not_not.1 fun hne => h ⟨hspecial, hne⟩
    unfold Special at hspecial
    rcases Nat.lt_or_ge n 32768 with hlow | hhigh
    · obtain rfl : n = infinityBits := by omega
      rfl
    · obtain rfl : n = 32768 + infinityBits := by omega
      rfl
  · rw [datumOf_finite hn hspecial, rankOf, if_neg, if_neg]
    · rfl
    all_goals
      rintro rfl
      exact hspecial (by decide)

theorem abs_signedBits_le (hn : n < 65536) (h : ¬IsNan n) :
    signedBits n ≤ infinityBits ∧ -(infinityBits : ℤ) ≤ signedBits n := by
  have hbits : infinityBits = 31744 := rfl
  have hle : n % 32768 ≤ infinityBits := by
    by_contra hmore
    refine h ⟨?_, ?_⟩
    · unfold Special
      omega
    · omega
  unfold signedBits
  split <;> omega

theorem valueOf_lt (ha : a < 65536) (hb : b < 65536) (h : signedBits a < signedBits b) :
    valueOf a < valueOf b := by
  have hnonneg (n : ℕ) : 0 ≤ scale (n % 32768) := by
    rw [← scale_zero]
    exact scale_le (Nat.zero_le _) (Nat.mod_lt _ (by decide))
  have hpos {n : ℕ} (hn : n % 32768 ≠ 0) : 0 < scale (n % 32768) := scale_pos hn
  unfold signedBits at h
  unfold valueOf signOf
  by_cases hla : a < 32768 <;> by_cases hlb : b < 32768 <;>
    simp only [hla, hlb, if_true, if_false] at h
  · rw [decide_eq_false (by omega), decide_eq_false (by omega)]
    exact scale_lt (by omega) (Nat.mod_lt _ (by decide))
  · omega
  · rw [decide_eq_true (by omega), decide_eq_false (by omega)]
    have := hnonneg a
    have := hnonneg b
    -- one of the two is not zero
    show -scale (a % 32768) < scale (b % 32768)
    rcases Nat.eq_zero_or_pos (a % 32768) with hzero | hmore
    · have := hpos (n := b) (by omega)
      linarith
    · have := hpos (n := a) (by omega)
      linarith
  · rw [decide_eq_true (by omega), decide_eq_true (by omega)]
    exact neg_lt_neg (scale_lt (by omega) (Nat.mod_lt _ (by decide)))

theorem rankOf_lt (ha : a < 65536) (hb : b < 65536) (hna : ¬IsNan a) (hnb : ¬IsNan b)
    (h : signedBits a < signedBits b) : rankOf a < rankOf b := by
  have hbits : infinityBits = 31744 := rfl
  obtain ⟨ha', ha''⟩ := abs_signedBits_le ha hna
  obtain ⟨hb', hb''⟩ := abs_signedBits_le hb hnb
  have hmost {n : ℕ} (hn : n = infinityBits) : signedBits n = infinityBits := by
    subst hn
    rfl
  have hleast {n : ℕ} (hn : n = 32768 + infinityBits) : signedBits n = -infinityBits := by
    subst hn
    rfl
  have htop : a ≠ infinityBits := fun heq => by
    have := hmost heq
    omega
  have hbot : b ≠ 32768 + infinityBits := fun heq => by
    have := hleast heq
    omega
  rw [rankOf, rankOf, if_neg htop, if_neg hbot]
  split <;> split
  · exact bot_lt_top
  · exact WithBot.bot_lt_coe _
  · exact WithBot.coe_lt_coe.2 (WithTop.coe_lt_top _)
  · exact WithBot.coe_lt_coe.2 (WithTop.coe_lt_coe.2 (valueOf_lt ha hb h))

/-- The order of words by their keys is that of their magnitudes with signs. -/
theorem sortKey_lt (ha : a < 65536) (hb : b < 65536) (hne : ¬(IsZero a ∧ IsZero b)) :
    sortKey a < sortKey b ↔ signedBits a < signedBits b := by
  unfold IsZero at hne
  unfold sortKey signedBits
  split <;> split <;> omega

/-- **The keys sort numbers.**  Words that are not both zero compare as their keys do. -/
theorem compare_sortKey (ha : a < 65536) (hb : b < 65536) (hna : ¬IsNan a) (hnb : ¬IsNan b)
    (hne : ¬(IsZero a ∧ IsZero b)) :
    (datumOf a).compare? (datumOf b) = some (cmp (sortKey a) (sortKey b)) := by
  rw [Datum.compare?, rank?_ofWord ha hna, rank?_ofWord hb hnb]
  refine congrArg some ?_
  show cmp (rankOf a) (rankOf b) = _
  rcases lt_trichotomy (sortKey a) (sortKey b) with hlt | heq | hgt
  · rw [hlt.cmp_eq_lt, (rankOf_lt ha hb hna hnb ((sortKey_lt ha hb hne).1 hlt)).cmp_eq_lt]
  · obtain rfl : a = b := by
      unfold sortKey at heq
      split at heq <;> split at heq <;> omega
    rw [cmp_self_eq_eq, cmp_self_eq_eq]
  · have hne' : ¬(IsZero b ∧ IsZero a) := fun h => hne h.symm
    rw [hgt.cmp_eq_gt, (rankOf_lt hb ha hnb hna ((sortKey_lt hb ha hne').1 hgt)).cmp_eq_gt]

theorem compare_isZero (ha : a < 65536) (hb : b < 65536) (hza : IsZero a) (hzb : IsZero b) :
    (datumOf a).compare? (datumOf b) = some .eq := by
  rw [datumOf_finite ha (not_special_of_isZero hza), datumOf_finite hb (not_special_of_isZero hzb),
    scale_eq_zero_iff.2 hza, scale_eq_zero_iff.2 hzb]
  have hrank (s : Bool) : (Datum.finite s 0).rank? = some ((0 : ℚ) : WithTop ℚ) := by
    cases s <;> rfl
  rw [Datum.compare?, hrank, hrank]
  exact congrArg some (cmp_self_eq_eq _)

theorem compare_nan (ha : a < 65536) (hb : b < 65536) (h : IsNan a ∨ IsNan b) :
    (datumOf a).compare? (datumOf b) = none := by
  rcases h with h | h
  · rw [datumOf_nan ha h]
    rfl
  · rw [datumOf_nan hb h, Datum.compare?]
    cases (datumOf a).rank? <;> rfl

end Order

/-! ## Shifted integers -/

/-- A magnitude in which the leading one is brought in its place: it has been halved as often as it
has to be, or it is doubled.  `k` is the exponent. -/
def Scaling (n m : ℕ) (k : ℤ) : Prop :=
  (8192 ≤ m ∧ 28 < k ∧ k ≤ 30 ∧ ∃ t, Near 4 m t ∧ t * 2 ^ (k - 28) = n) ∨ ∃ j : ℕ, j ≤ 13 ∧
    k = 28 - j ∧ m = n * 2 ^ j

/-- A magnitude that has been halved so many times. -/
def Halving (n m : ℕ) : ℕ → Prop
  | 0 => m = n
  | j + 1 => 8192 ≤ m ∧ j + 1 ≤ 2 ∧ m * 2 ^ (j + 1) < 65536 ∧ ∃ t, Near 4 m t ∧ t * 2 ^ (j + 1) = n

section Shifted

variable {n m j : ℕ} {k : ℤ}

theorem Halving.near (h : Halving n m j) : ∃ t, Near 4 m t ∧ t * 2 ^ j = n := by
  cases j with
  | zero =>
    obtain rfl : m = n := h
    exact ⟨m, .exact 4 m, by simp⟩
  | succ j => exact h.2.2.2

/-- A magnitude that is too large is halved once more. -/
theorem Halving.next (h : Halving n m j) (hm : 16384 ≤ m) (hn : n < 65536) :
    Halving n (halved m) (j + 1) := by
  obtain ⟨t, hnear, hvalue⟩ := h.near
  have hlow : 8192 ≤ halved m := by
    unfold halved
    split <;> omega
  have hj : j ≤ 1 ∧ m * 2 ^ j < 65536 := by
    cases j with
    | zero =>
      obtain rfl : m = n := h
      omega
    | succ j =>
      obtain ⟨-, hj, hless, -⟩ := h
      obtain rfl | rfl : j = 0 ∨ j = 1 := by omega
      · exact ⟨Nat.le_refl 1, hless⟩
      · omega
  refine ⟨hlow, by omega, ?_, t / 2, hnear.halve.four, ?_⟩
  · obtain rfl | rfl : j = 0 ∨ j = 1 := by omega
    · unfold halved
      split <;> omega
    · unfold halved
      split <;> omega
  · rw [← hvalue, pow_succ]
    ring

theorem Halving.scaling (h : Halving n m j) : Scaling n m (28 + j) := by
  cases j with
  | zero => exact .inr ⟨0,
      Nat.zero_le 13, by simp, by rw [show m = n from h, pow_zero, Nat.mul_one]⟩
  | succ j =>
    obtain ⟨hlow, hj, -, t, hnear, hvalue⟩ := h
    refine .inl ⟨hlow, by omega, by omega, t, hnear, ?_⟩
    rw [add_sub_cancel_left, zpow_natCast]
    exact hvalue

theorem Scaling.double (h : Scaling n m k) (hm : m < 8192) (hn : n ≠ 0) :
    Scaling n (2 * m) (k - 1) := by
  rcases h with ⟨hlow, -⟩ | ⟨j, hj, rfl, rfl⟩
  · omega
  · have hpow : 2 ^ j < 2 ^ 13 :=
      lt_of_le_of_lt (Nat.le_mul_of_pos_left _ (Nat.pos_of_ne_zero hn)) hm
    have hless : j < 13 := (Nat.pow_lt_pow_iff_right (by decide)).1 hpow
    exact .inr ⟨j + 1, hless, by push_cast; ring, by rw [pow_succ]; ring⟩

/-- A magnitude with its leading one in its place is ready to be packed. -/
theorem Scaling.near (h : Scaling n m k) :
    15 ≤ k ∧ k ≤ 30 ∧ ∃ t, Near 4 m t ∧ t * 2 ^ (k - 28) = n := by
  rcases h with ⟨-, hk, hk', hnear⟩ | ⟨j, hj, rfl, rfl⟩
  · exact ⟨by omega, hk', hnear⟩
  · refine ⟨by omega, by omega, _, .exact 4 _, ?_⟩
    rw [show (28 - j - 28 : ℤ) = -j by ring, zpow_neg, zpow_natCast]
    push_cast
    field_simp

theorem Halving.ne_zero (h : Halving n m j) (hm : m ≠ 0) : n ≠ 0 := by
  obtain ⟨t, hnear, hvalue⟩ := h.near
  rintro rfl
  cases j with
  | zero => exact hm h
  | succ j =>
    have hzero : t = 0 := by simpa using hvalue
    have := hnear.lower (j := 2048) h.1
    norm_num [hzero] at this

end Shifted

/-! ## Packed integers -/

/-- A word is what is packed for an integer magnitude with a sign. -/
def IsPacked (s : Bool) (n w : ℕ) : Prop :=
  n = 0 ∧ w = 0 ∨ ∃ (k : ℤ) (m : ℕ) (t : ℚ), 15 ≤ k ∧ k ≤ 30 ∧ Near 4 m t ∧ 8192 ≤ m ∧ m < 16384 ∧
    t * 2 ^ (k - 28) = n ∧ w = signBit s + packed k m

namespace IsPacked

variable {s : Bool} {n w : ℕ}

/-- What is packed is the nearest number. -/
theorem rounds (h : IsPacked s n w) (hs : n = 0 → s = false) :
    (Datum.finite s n).Rounds (Half.ofWord w) := by
  rcases h with ⟨rfl, rfl⟩ | ⟨k, m, t, -, -, hnear, hm, hm', hvalue, rfl⟩
  · rw [hs rfl, Nat.cast_zero]
    exact rounds_zero false
  · rw [← hvalue]
    exact rounds_packed s hnear hm hm' k

/-- With an exponent that is smaller by four it is the nearest number to a sixteenth. -/
theorem sixteenth (h : IsPacked s n w) (hne : n ≠ 0) (hn : n ≤ 32768) :
    4096 ≤ w ∧ (Datum.finite s (n / 16)).Rounds (Half.ofWord (w - 4096)) := by
  have hbits : infinityBits = 31744 := rfl
  rcases h with ⟨rfl, rfl⟩ | ⟨k, m, t, hk, hk', hnear, hm, hm', hvalue, rfl⟩
  · exact absurd rfl hne
  obtain ⟨hle, hge⟩ := eighth_bounds hm'
  have hfree {e : ℤ} (he : 1 ≤ e) : (max e 1 - 1).toNat = (e - 1).toNat ∧
      jammed m (1 - e).toNat = m := by
    rw [max_eq_left he, show (1 - e).toNat = 0 by omega]
    exact ⟨rfl, rfl⟩
  -- the exponent is so small that the number is not too large
  have hsmall : (k - 1).toNat * 1024 + eighth m ≤ infinityBits - 1024 := by
    rcases Int.lt_or_le k 30 with hlt | hge'
    · omega
    · obtain rfl : k = 30 := by omega
      have ht : t ≤ 8192 := by
        have : (n : ℚ) ≤ 32768 := by exact_mod_cast hn
        norm_num at hvalue
        linarith
      have : m ≤ 8192 := by
        by_contra hmore
        have := hnear.strict_lower (j := 2048) (by omega)
        push_cast at this
        linarith
      have hround : eighth m = 1024 := by
        obtain rfl : m = 8192 := by omega
        decide
      omega
  have hpacked : packed k m = packed (k - 4) m + 4096 := by
    rw [packed, packed, (hfree (e := k) (by omega)).1, (hfree (e := k) (by omega)).2,
      (hfree (e := k - 4) (by omega)).1, (hfree (e := k - 4) (by omega)).2]
    omega
  refine ⟨by omega, ?_⟩
  rw [hpacked, ← Nat.add_assoc, Nat.add_sub_cancel]
  have := rounds_packed s hnear hm hm' (k - 4)
  rwa [show k - 4 - 28 =
    k - 28 - 4 by ring, zpow_sub₀ (by norm_num) (k - 28) 4, ← mul_div_assoc, hvalue,
    show (2 : ℚ) ^ (4 : ℤ) = 16 by norm_num] at this

/-- A packed word is zero for zero only. -/
theorem eq_zero_iff (h : IsPacked s n w) : w = 0 ↔ n = 0 := by
  have hbits : infinityBits = 31744 := rfl
  rcases h with ⟨hn, hw⟩ | ⟨k, m, t, hk, -, hnear, hm, hm', hvalue, rfl⟩
  · exact iff_of_true hw hn
  · have hplaces : 14 ≤ (max k 1 - 1).toNat := by omega
    refine iff_of_false ?_ ?_
    · rw [packed]
      omega
    · rintro rfl
      have := hnear.lower (j := 2048) hm
      have hpos : (0 : ℚ) < 2 ^ (k - 28) := by positivity
      rw [Nat.cast_zero, mul_eq_zero] at hvalue
      rcases hvalue with hzero | hzero
      · norm_num [hzero] at this
      · exact hpos.ne' hzero

end IsPacked

/-! ## Truncation -/

theorem Datum.whole_le (d : Datum) (limit : ℕ) (k : ℚ) : d.whole limit k ≤ limit := by
  cases d with
  | nan => exact Nat.zero_le _
  | infinite => exact Nat.le_refl _
  | finite => exact Nat.min_le_left _ _

/-- A magnitude without its fraction has its sign set and is brought into a range that reaches no
further than the magnitude was kept. -/
theorem Datum.truncate_eq (d : Datum) (limit : ℕ) {lo hi : ℤ} {k : ℚ} (hlo : lo ≤ 0) (hhi : 0 ≤ hi)
    (hlow : -lo ≤ limit)
    (hhigh : hi ≤ limit) (hpos : 0 ≤ k) (hsize : ∀ s x, d = .finite s x → 0 ≤ x) :
    d.truncate lo hi k = if d.negative then max lo (-(d.whole limit k))
      else min hi (d.whole limit k) := by
  cases d with
  | nan => simp [truncate, negative, whole, hhi]
  | infinite s => cases s <;> simp [truncate, negative, whole] <;> omega
  | finite s x =>
    have hfloor : ((⌊x * k⌋₊ : ℕ) : ℤ) = ⌊x * k⌋ :=
      Int.natCast_floor_eq_floor (mul_nonneg (hsize s x rfl) hpos)
    cases s <;> simp [truncate, negative, whole, ← hfloor] <;> omega

end Breadbin.Numeric
