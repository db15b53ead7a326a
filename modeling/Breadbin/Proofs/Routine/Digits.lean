import Mathlib.Tactic.IntervalCases
import Breadbin.Proofs.Routine.FixedPoint
import Breadbin.Proofs.Routine.Strings

/-!
# Numbers as texts

The digits of a word come out from the front, as powers of ten are subtracted from it, and zeros in
front are left out.  With a sign in front and digits for the fraction behind, the texts of the other
numbers are made of them.
-/

namespace Breadbin.Routine

open Assembly Machine Numeric ZeroPage Writer LinkedCode

/-! ## Decimal digits -/

/-- The digits of a number that stands in front of another one: zero has none. -/
def leading (q : ℕ) : List UInt8 := if q = 0 then [] else spelled (toString q)

theorem spelled_toString (n : ℕ) : spelled (toString n) = (Nat.toDigits 10 n).map Char.toUInt8 := by
  rw [spelled, Nat.toString_eq_ofList_toDigits, String.toList_ofList]

theorem toUInt8_digitChar {d : ℕ} (h : d < 10) :
    (Nat.digitChar d).toUInt8 = UInt8.ofNat (48 + d) := by
  interval_cases d <;> rfl

/-- One more digit behind a number. -/
theorem leading_append (q : ℕ) {d : ℕ} (hd : d < 10) (h : q ≠ 0 ∨ d ≠ 0) :
    leading (10 * q + d) = leading q ++ [UInt8.ofNat (48 + d)] := by
  rw [leading, if_neg (by omega), leading, spelled_toString]
  split
  next hzero =>
    subst hzero
    rw [Nat.mul_zero, Nat.zero_add, Nat.toDigits_of_lt_base hd, List.map_singleton,
      toUInt8_digitChar hd]
    rfl
  next hpos =>
    rw [spelled_toString, ← Nat.toDigits_append_toDigits (by decide) (Nat.pos_of_ne_zero hpos) hd,
      List.map_append, Nat.toDigits_of_lt_base hd, List.map_singleton, toUInt8_digitChar hd]

/-- The last digit of a number is always written. -/
theorem spelled_eq_leading (n : ℕ) :
    spelled (toString n) = leading (n / 10) ++ [UInt8.ofNat (48 + n % 10)] := by
  by_cases hn : n = 0
  · subst hn
    rfl
  · rw [← leading_append _ (Nat.mod_lt _ (by decide)) (by omega), leading,
      if_neg (by omega), Nat.div_add_mod]

theorem length_leading_le {q k : ℕ} (h : q < 10 ^ k) : (leading q).length ≤ k := by
  rw [leading]
  split
  · exact Nat.zero_le k
  next hpos =>
    rcases Nat.eq_zero_or_pos k with rfl | hk
    · omega
    · rwa [spelled_toString, List.length_map, Nat.length_toDigits_le_iff (by decide) hk]

theorem lt_pow_length_leading (q : ℕ) : q < 10 ^ (leading q).length := by
  rw [leading]
  split
  next hzero => exact hzero ▸ Nat.one_pos
  next hpos =>
    rw [spelled_toString, List.length_map]
    exact (Nat.length_toDigits_le_iff (by decide) Nat.length_toDigits_pos).1 (Nat.le_refl _)

theorem length_leading_mono {p q : ℕ} (h : p ≤ q) : (leading p).length ≤ (leading q).length :=
  length_leading_le (Nat.lt_of_le_of_lt h (lt_pow_length_leading q))

/-- A digit gets its character. -/
theorem or_0x30 {d : UInt8} (h : d.toNat < 10) : d ||| 0x30 = UInt8.ofNat (48 + d.toNat) := by
  have hall : ∀ n < 10, UInt8.ofNat n ||| 0x30 = UInt8.ofNat (48 + n) := by decide
  have := hall d.toNat h
  rwa [UInt8.ofNat_toNat] at this

/-- A word has five digits at most. -/
theorem length_spelled_word {n : ℕ} (h : n < 65536) : (spelled (toString n)).length ≤ 5 := by
  have := length_leading_le (q := n / 10) (k := 4) (by omega)
  rw [spelled_eq_leading, List.length_append, List.length_singleton]
  omega

/-! ## Texts in the buffer -/

/-- A byte of the conversion buffer may be stored into. -/
theorem owns_conversion {t : Target} {id : RoutineId} (h : (bounds id).buffers = [.conversion])
    {address : UInt16} (hlow : t.conversionBase.toNat ≤ address.toNat)
    (hhigh : address.toNat < t.conversionBase.toNat + t.conversionSize.toNat) :
    (conduct t id).Owns address := by
  refine ⟨(t.conversionBase.toNat, t.conversionSize.toNat), ?_, hlow, hhigh⟩
  simp [conduct, h, Buffer.areas]

/-- A text has been put behind an offset into the conversion buffer, and Y stands so many characters
in front of its end. -/
structure Buffered (t : Target) (m : Contents) (offset : ℕ) (s : List UInt8) (back : ℕ)
    (v : View) : Prop where
  index : v.y.toNat + back = offset + s.length
  main : v.main = m.place (t.conversionBase.toNat + offset) s

namespace Buffered

variable {t : Target} {m : Contents} {offset back : ℕ} {s : List UInt8} {v w : View}

theorem congr (h : Buffered t m offset s back v) (hy : w.y = v.y) (hmain : w.main = v.main) :
    Buffered t m offset s back w :=
  ⟨hy ▸ h.index, hmain ▸ h.main⟩

theorem nothing (hy : v.y.toNat = offset) : Buffered t v.main offset [] 0 v :=
  ⟨hy, (Contents.place_nil _).symm⟩

/-- The address that Y stands for. -/
theorem toNat_address (ht : Roomy t) (hy : v.y.toNat < t.conversionSize.toNat) :
    (t.conversionBase + v.y.toUInt16).toNat = t.conversionBase.toNat + v.y.toNat := by
  have := ht.conversion
  rw [UInt16.toNat_add, UInt8.toNat_toUInt16]
  omega

/-- One more character. -/
theorem store (h : Buffered t m offset s 0 v) (ht : Roomy t)
    (hy : v.y.toNat < t.conversionSize.toNat) (c : UInt8) :
    Buffered t m offset (s ++ [c]) 1 (v.poke (t.conversionBase + v.y.toUInt16) c) := by
  have hindex := h.index
  refine ⟨?_, ?_⟩
  · rw [List.length_append, List.length_singleton]
    show v.y.toNat + 1 = _
    omega
  · show Function.update v.main _ c = _
    rw [h.main]
    refine Contents.update_place_behind _ ?_ c
    rw [toNat_address ht hy]
    omega

/-- Another character in the place of the last one. -/
theorem replace {c : UInt8} (h : Buffered t m offset (s ++ [c]) 1 v) (ht : Roomy t)
    (hy : v.y.toNat < t.conversionSize.toNat)
    (d : UInt8) : Buffered t m offset (s ++ [d]) 1
      (v.poke (t.conversionBase + v.y.toUInt16) d) := by
  have hindex := h.index
  rw [List.length_append, List.length_singleton] at hindex
  have haddress : (t.conversionBase + v.y.toUInt16).toNat = t.conversionBase.toNat +
      offset + s.length := by
    rw [toNat_address ht hy]
    omega
  refine ⟨?_, ?_⟩
  · rw [List.length_append, List.length_singleton]
    exact hindex
  · show Function.update v.main _ d = _
    rw [h.main, ← Contents.update_place_behind m haddress c, Function.update_idem]
    exact Contents.update_place_behind m haddress d

/-- Y moves to the next character. -/
theorem next (h : Buffered t m offset s (back + 1) v) (hroom : offset + s.length ≤ 255)
    (hy : w.y = v.y + 1) (hmain : w.main = v.main) : Buffered t m offset s back w := by
  have hindex := h.index
  have hnext : w.y.toNat = v.y.toNat + 1 := by
    rw [hy, UInt8.toNat_add, UInt8.toNat_one]
    omega
  exact ⟨by omega, hmain ▸ h.main⟩

end Buffered

/-- A character is stored into the conversion buffer. -/
theorem Flows.letter {t : Target} {id : RoutineId} {α : Type} {size : ℕ} {back : Back}
    {ahead : Ahead} {P Q : Assertion}
    {f : Unit → Writer α} (ht : Roomy t) (hid : (bounds id).buffers = [.conversion])
    (hstores : ∀ n u v, P n u v → v.y.toNat < t.conversionSize.toNat ∧
      Q n u (v.poke (t.conversionBase + v.y.toUInt16) v.a))
    (h : Flows (conduct t) t id (size - 5) back ahead 0 Q (f ())) :
    Flows (conduct t) t id size back ahead 0 P (absY .sta t.conversionBase >>= f) := by
  refine .store rfl (fun n u v hv => ?_) h
  obtain ⟨hy, hq⟩ := hstores n u v hv
  have haddress := Buffered.toNat_address ht hy
  have howns : (conduct t id).Owns (t.conversionBase + v.y.toUInt16) :=
    owns_conversion hid (by omega) (by omega)
  exact ⟨_, _, rfl, rfl, howns, hq⟩

/-! ## Unsigned words -/

/-- The powers of ten that are subtracted, byte by byte. -/
theorem powers {k : ℕ} (h : k ≤ 3) : ∃ lo hi : UInt8, [0x10, 0xE8, 100, 10][k]? = some lo ∧
    [0x27, 0x03, 0, 0][k]? = some hi ∧ lo.toNat + 256 * hi.toNat = 10 ^ (4 - k) := by
  interval_cases k
  exacts [⟨0x10, 0x27, rfl, rfl, rfl⟩, ⟨0xE8, 0x03, rfl, rfl, rfl⟩, ⟨100, 0, rfl, rfl, rfl⟩,
    ⟨10, 0, rfl, rfl, rfl⟩]

/-- A power of ten has been subtracted until less is left. -/
theorem digit_of_remainder {n r d k : ℕ} (h : r + d * 10 ^ k = n % 10 ^ (k + 1)) (hr : r < 10 ^ k) :
    r = n % 10 ^ k ∧ d = n / 10 ^ k % 10 := by
  have hpos : 0 < 10 ^ k := by positivity
  constructor
  · rw [← Nat.mod_mod_of_dvd n (Nat.pow_dvd_pow 10 (Nat.le_succ k)), ← h,
      Nat.add_mul_mod_self_right, Nat.mod_eq_of_lt hr]
  · rw [← Nat.mod_mul_right_div_self, ← Nat.pow_succ, ← h, Nat.add_mul_div_right _ _ hpos,
      Nat.div_eq_of_lt hr, Nat.zero_add]

/-- It is subtracted nine times at most. -/
theorem digit_lt {n r d k : ℕ} (h : r + d * 10 ^ k = n % 10 ^ (k + 1)) : d < 10 := by
  have hlt : n % 10 ^ (k + 1) < 10 * 10 ^ k := by
    rw [Nat.mul_comm, ← Nat.pow_succ]
    exact Nat.mod_lt _ (by positivity)
  exact Nat.lt_of_mul_lt_mul_right (a := 10 ^ k) (by omega)

/-- The first `k` of five digits have been written, without zeros in front; a slot tells if there
were others. -/
structure Written (t : Target) (k : ℕ) (u v : View) : Prop where
  buffered : Buffered t u.main u.y.toNat (leading (u.word intA / 10 ^ (5 - k))) 0 v
  flag : v.zp work = 0 ↔ u.word intA / 10 ^ (5 - k) = 0

/-- A power of ten is being subtracted; X tells which one, and a slot how often. -/
structure Counting (t : Target) (u v : View) : Prop where
  index : v.x.toNat ≤ 3
  written : Written t v.x.toNat u v
  rest : v.word intA + (v.zp (work + 1)).toNat * 10 ^ (4 - v.x.toNat) =
    u.word intA % 10 ^ (4 - v.x.toNat + 1)

/-- The next digit is known. -/
structure Counted (t : Target) (u v : View) : Prop where
  index : v.x.toNat ≤ 3
  written : Written t v.x.toNat u v
  rest : v.word intA = u.word intA % 10 ^ (4 - v.x.toNat)
  digit : (v.zp (work + 1)).toNat = u.word intA / 10 ^ (4 - v.x.toNat) % 10

variable {t : Target} {u v w : View} {k : ℕ}

/-- The digits of a number with one digit more. -/
theorem next_quotient (hk : k ≤ 3) (n : ℕ) :
    n / 10 ^ (4 - k) = 10 * (n / 10 ^ (5 - k)) + n / 10 ^ (4 - k) % 10 := by
  rw [show 5 - k = 4 - k + 1 by omega, Nat.pow_succ, ← Nat.div_div_eq_div_mul]
  exact (Nat.div_add_mod _ _).symm

theorem Written.congr (h : Written t k u v) (hy : w.y = v.y) (hmain : w.main = v.main)
    (hflag : w.zp work = v.zp work) :
    Written t k u w :=
  ⟨h.buffered.congr hy hmain, hflag ▸ h.flag⟩

/-- In front of the last digit of a number there are fewer digits. -/
theorem length_leading_lt {n j : ℕ} (hj : 1 ≤ j) :
    (leading (n / 10 ^ j)).length < (spelled (toString n)).length := by
  rw [spelled_eq_leading, List.length_append, List.length_singleton]
  have hpower : 10 ^ 1 ≤ 10 ^ j := Nat.pow_le_pow_right (by decide) hj
  exact Nat.lt_succ_of_le (length_leading_mono (Nat.div_le_div_left hpower (by decide)))

/-- There is room for the next digit. -/
theorem Written.room (h : Written t k u v) (hk : k ≤ 4) (hroom : hasRoom t u) :
    v.y.toNat < t.conversionSize.toNat := by
  have hindex := h.buffered.index
  have := length_leading_lt (n := u.word intA) (j := 5 - k) (by omega)
  have := hroom.2
  omega

namespace Counting

theorem congr (h : Counting t u v) (hx : w.x = v.x) (hy : w.y = v.y) (hmain : w.main = v.main)
    (hzp : ∀ z, z ≠ work + 2 → w.zp z = v.zp z) : Counting t u w := by
  have hsame : w.word intA = v.word intA := View.word_congr (hzp _ (by decide)) (hzp _ (by decide))
  refine ⟨hx ▸ h.index, ?_, ?_⟩
  · rw [hx]
    exact h.written.congr hy hmain (hzp _ (by decide))
  · rw [hx, hsame, hzp (work + 1) (by decide)]
    exact h.rest

/-- What is left is below the power, which is there as often as was counted. -/
theorem counted (h : Counting t u v) (hless : v.word intA < 10 ^ (4 - v.x.toNat)) : Counted t u v :=
  have hdigit := digit_of_remainder h.rest hless
  ⟨h.index, h.written, hdigit.1, hdigit.2⟩

/-- The power is subtracted once more. -/
theorem subtract (h : Counting t u v) (hx : w.x = v.x) (hy : w.y = v.y) (hmain : w.main = v.main)
    (hflag : w.zp work = v.zp work) (hdifference : w.word intA + 10 ^ (4 - v.x.toNat) = v.word intA)
    (hdigit : w.zp (work + 1) = v.zp (work + 1) + 1) :
    Counting t u w ∧ (w.zp (work + 1)).toNat = (v.zp (work + 1)).toNat + 1 ∧
      (w.zp (work + 1)).toNat < 10 := by
  have hmore : w.word intA + ((v.zp (work + 1)).toNat + 1) * 10 ^ (4 - v.x.toNat) =
      u.word intA % 10 ^ (4 - v.x.toNat + 1) := by
    rw [← h.rest, ← hdifference, Nat.add_mul, Nat.one_mul]
    omega
  have hnine := digit_lt hmore
  have hnext : (w.zp (work + 1)).toNat = (v.zp (work + 1)).toNat + 1 := by
    rw [hdigit, UInt8.toNat_add, UInt8.toNat_one]
    omega
  refine ⟨⟨hx ▸ h.index, ?_, ?_⟩, hnext, hnext ▸ hnine⟩
  · rw [hx]
    exact h.written.congr hy hmain hflag
  · rw [hx, hnext]
    exact hmore

end Counting

namespace Counted

theorem congr (h : Counted t u v) (hx : w.x = v.x) (hy : w.y = v.y) (hmain : w.main = v.main)
    (hzp : w.zp = v.zp) :
    Counted t u w :=
  ⟨hx ▸ h.index, hx ▸
    h.written.congr hy hmain (by rw [hzp]), by rw [hx, View.word, hzp]; exact h.rest,
    by rw [hx, hzp]; exact h.digit⟩

/-- A zero in front is left out. -/
theorem skip (h : Counted t u v) (hdigit : v.zp (work + 1) = 0) (hfront : v.zp work = 0) :
    Written t (v.x.toNat + 1) u v := by
  have hzero := h.written.flag.1 hfront
  have hnext : u.word intA / 10 ^ (4 - v.x.toNat) = 0 := by
    rw [next_quotient h.index, hzero, ← h.digit, hdigit]
    rfl
  have hbuffered := h.written.buffered
  rw [hzero] at hbuffered
  refine ⟨?_, ?_⟩ <;> rw [show 5 - (v.x.toNat + 1) = 4 - v.x.toNat by omega, hnext]
  · exact hbuffered
  · exact iff_of_true hfront rfl

theorem lt_ten (h : Counted t u v) : (v.zp (work + 1)).toNat < 10 := by
  rw [h.digit]
  exact Nat.mod_lt _ (by decide)

/-- The digit goes behind the others. -/
theorem leading_next (h : Counted t u v) (hsome : ¬(v.zp (work + 1) = 0 ∧ v.zp work = 0)) :
    u.word intA / 10 ^ (4 - v.x.toNat) ≠ 0 ∧ leading (u.word intA / 10 ^ (4 - v.x.toNat)) =
      leading (u.word intA / 10 ^ (5 - v.x.toNat)) ++
        [UInt8.ofNat (48 + (v.zp (work + 1)).toNat)] := by
  have hnext := next_quotient h.index (u.word intA)
  rw [← h.digit] at hnext
  have hpositive : u.word intA / 10 ^ (5 - v.x.toNat) ≠ 0 ∨ (v.zp (work + 1)).toNat ≠ 0 := by
    rw [Ne, ← h.written.flag, Ne, ← eq_zero_iff]
    tauto
  exact ⟨by omega, by rw [hnext, leading_append _ h.lt_ten hpositive]⟩

end Counted

theorem formatU16_conducted (ht : Roomy t) : Conducted t .formatU16 := by
  refine .last ?_
  simp only [body, formatU16, bind_assoc]
  refine .target (.promise (.table [0x10, 0xE8, 100, 10]) fun powersLow =>
    .promise (.table [0x27, 0x03, 0, 0]) fun powersHigh => ?_)
  refine .exec (Q := fun _ u v => Written t 0 u v ∧ v.x.toNat = 0 ∧ v.word intA = u.word intA)
    rfl (fun _ u v huv => ?_) ?_
  · subst huv
    have hnone : u.word intA / 10 ^ 5 = 0 := by
      have := u.word_lt intA
      omega
    refine ⟨_, rfl, ⟨?_, ?_⟩, rfl, ?_⟩
    · rw [hnone]
      exact (Buffered.nothing rfl).congr rfl rfl
    · exact iff_of_true rfl hnone
    · rfl
  -- the budget counts the powers that are left, and in each of them the subtractions
  let starting : Assertion := fun n u v => v.x.toNat ≤ 3 ∧ Written t v.x.toNat u v ∧
    v.word intA = u.word intA % 10 ^ (4 - v.x.toNat + 1) ∧ (4 - v.x.toNat) * 16 ≤ n
  let counting : Assertion := fun n u v => Counting t u v ∧
    (4 - v.x.toNat) * 16 - (v.zp (work + 1)).toNat ≤ n
  refine .renew (Q := starting) (.here fun power => ?_) fun _ u v hv => ?_
  rotate_left
  · obtain ⟨hwritten, hx, hword⟩ := hv
    refine ⟨64, by omega, hx ▸ hwritten, ?_, by omega⟩
    rw [hword, hx, Nat.mod_eq_of_lt]
    have := u.word_lt intA
    omega
  refine .exec (Q := counting) rfl (fun n u v hv => ?_) (.here fun subtract => ?_)
  · obtain ⟨hx, hwritten, hword, hn⟩ := hv
    refine ⟨_, rfl, ⟨hx, hwritten.congr rfl rfl rfl, ?_⟩, hn⟩
    show View.word _ intA + 0 * _ = _
    rw [Nat.zero_mul, Nat.add_zero]
    exact hword
  let counted : Assertion := fun n u v => Counted t u v ∧ (3 - v.x.toNat) * 16 < n
  let written : Assertion := fun n u v => v.x.toNat ≤ 3 ∧ Written t (v.x.toNat + 1) u v ∧
    v.word intA = u.word intA % 10 ^ (4 - v.x.toNat) ∧ (3 - v.x.toNat) * 16 < n
  refine .label counted fun digit => .label written fun next => ?_
  have hcounting {n : ℕ} {u v w : View} (h : counting n u v) (hx : w.x = v.x) (hy : w.y = v.y)
      (hmain : w.main = v.main)
      (hzp : ∀ z, z ≠ work + 2 → w.zp z = v.zp z) : counting n u w := by
    refine ⟨h.1.congr hx hy hmain hzp, ?_⟩
    rw [hx, hzp (work + 1) (by decide)]
    exact h.2
  -- the power is compared with what is left
  refine .exec (Q := fun n u v => counting n u v ∧ v.a = v.zp intA ∧ v.carry = true) rfl
    (fun n u v hv => ⟨_, rfl, hcounting hv rfl rfl rfl fun _ _ => rfl, rfl, rfl⟩) ?_
  refine .lookup (Q := fun n u v => counting n u v ∧ ∃ lo,
      ([0x10, 0xE8, 100, 10] : List UInt8)[v.x.toNat]? = some lo ∧
      v.a.toNat = ((v.zp intA).toNat + 256 - lo.toNat) % 256 ∧
      v.carry = decide (lo.toNat ≤ (v.zp intA).toNat)) rfl
    (fun n u v hv => ?_) ?_
  · obtain ⟨hcount, ha, hcarry⟩ := hv
    obtain ⟨lo, hi, hlo, -, -⟩ := powers hcount.1.index
    refine ⟨lo, _, hlo, rfl, hcounting hcount rfl rfl rfl fun _ _ => rfl, lo, hlo, ?_, ?_⟩
    · have := lo.toNat_lt
      simp [ha, hcarry]
      omega
    · have := lo.toNat_lt
      simp [ha, hcarry]
      omega
  refine .exec (Q := fun n u v => counting n u v ∧ v.a = v.zp (intA + 1) ∧ ∃ lo,
      ([0x10, 0xE8, 100, 10] : List UInt8)[v.x.toNat]? = some lo ∧
      (v.zp (work + 2)).toNat = ((v.zp intA).toNat + 256 - lo.toNat) % 256 ∧
      v.carry = decide (lo.toNat ≤ (v.zp intA).toNat)) rfl
    (fun n u v hv => ?_) ?_
  · obtain ⟨hcount, lo, hlo, ha, hcarry⟩ := hv
    exact ⟨_, rfl, hcounting hcount rfl rfl rfl fun z hz => Function.update_of_ne hz _ _, rfl,
      lo, hlo, ha, hcarry⟩
  refine .lookup (Q := fun n u v => counting n u v ∧
      v.carry = decide (10 ^ (4 - v.x.toNat) ≤ v.word intA) ∧
      (10 ^ (4 - v.x.toNat) ≤ v.word intA →
        (v.zp (work + 2)).toNat + 256 * v.a.toNat + 10 ^ (4 - v.x.toNat) = v.word intA)) rfl
    (fun n u v hv => ?_) ?_
  · obtain ⟨hcount, ha, lo, hlo, hwork, hcarry⟩ := hv
    obtain ⟨lo', hi, hlo', hhi, hpower⟩ := powers hcount.1.index
    obtain rfl : lo = lo' := Option.some.inj (hlo.symm.trans hlo')
    refine ⟨hi, _, hhi, rfl, hcounting hcount rfl rfl rfl fun _ _ => rfl, ?_, ?_⟩
    · show decide (256 ≤ v.a.toNat + (~~~hi).toNat + bit v.carry) =
        decide (10 ^ (4 - v.x.toNat) ≤ v.word intA)
      have := hi.toNat_lt
      have := lo.toNat_lt
      rw [decide_eq_decide, ← hpower, hcarry, ha, View.word, toNat_complement]
      have := (v.zp intA).toNat_lt
      by_cases hless : lo.toNat ≤ (v.zp intA).toNat <;> simp [bit, hless] <;> omega
    · show 10 ^ (4 - v.x.toNat) ≤ v.word intA → (v.zp (work + 2)).toNat +
        256 * (UInt8.ofNat (v.a.toNat + (~~~hi).toNat + bit v.carry)).toNat + 10 ^ (4 - v.x.toNat) =
          v.word intA
      have := hi.toNat_lt
      have := lo.toNat_lt
      rw [← hpower, hcarry, ha, View.word, toNat_complement, UInt8.toNat_ofNat', hwork]
      have := (v.zp intA).toNat_lt
      have := (v.zp (intA + 1)).toNat_lt
      by_cases hless : lo.toNat ≤ (v.zp intA).toNat <;>
        simp only [bit, hless, decide_true, decide_false, Bool.toNat_true, Bool.toNat_false] <;>
          omega
  refine .branch (Q := fun n u v => counting n u v ∧
      (v.zp (work + 2)).toNat + 256 * v.a.toNat + 10 ^ (4 - v.x.toNat) =
        v.word intA) (fun n u v hv htaken => ?_)
    (fun n u v hv hskipped => ?_) ?_
  · obtain ⟨⟨hcount, hn⟩, hcarry, -⟩ := hv
    have hless : v.word intA < 10 ^ (4 - v.x.toNat) := by simpa [View.takes?, hcarry] using htaken
    have hnine := digit_lt hcount.rest
    have hindex := hcount.index
    exact ⟨hcount.counted hless, by omega⟩
  · obtain ⟨hcount, hcarry, hdifference⟩ := hv
    exact ⟨hcount, hdifference (by simpa [View.takes?, hcarry] using hskipped)⟩
  refine .exec (Q := fun n u v => Counting t u v ∧ (4 - v.x.toNat) * 16 - (v.zp (work + 1)).toNat <
    n) rfl (fun n u v hv => ?_) ?_
  · obtain ⟨⟨hcount, hn⟩, hdifference⟩ := hv
    have hindex := hcount.index
    let w : View := ((v.store (intA + 1) v.a).store intA (v.zp (work + 2))).store (work + 1)
      (v.zp (work + 1) + 1)
    obtain ⟨hmore, hnext, hnine⟩ := hcount.subtract (w := w) rfl rfl rfl rfl hdifference rfl
    refine ⟨_, rfl, hmore.congr rfl rfl rfl fun _ _ => rfl, ?_⟩
    show (4 - v.x.toNat) * 16 - (w.zp (work + 1)).toNat < n
    omega
  refine .jumpBack (fun n u v hv => ⟨_, hv.2, hv.1, Nat.le_refl _⟩)
    (.bind (.forget ?_ (List.subset_cons_of_subset _ (List.Subset.refl _))))
  -- the digit is left out if it is a zero in front
  refine .exec (Q := fun n u v => counted n u v ∧
    v.zero = decide (v.zp (work + 1) = 0 ∧ v.zp work = 0)) rfl (fun n u v hv => ?_) ?_
  · refine ⟨_, rfl, ⟨hv.1.congr rfl rfl rfl rfl, hv.2⟩, ?_⟩
    show (v.zp (work + 1) ||| v.zp work == 0) = _
    rw [Bool.eq_iff_iff, beq_iff_eq, decide_eq_true_eq, or_eq_zero_iff]
    rfl
  refine .branch (Q := fun n u v => counted n u v ∧
    ¬(v.zp (work + 1) = 0 ∧ v.zp work = 0)) (fun n u v hv htaken => ?_)
    (fun n u v hv hskipped => ?_) ?_
  · obtain ⟨⟨hcount, hn⟩, hzero⟩ := hv
    obtain ⟨hnone, hfront⟩ : v.zp (work + 1) = 0 ∧ v.zp work = 0 := by
      simpa [View.takes?, hzero] using htaken
    exact ⟨hcount.index, hcount.skip hnone hfront, hcount.rest, hn⟩
  · obtain ⟨hcount, hzero⟩ := hv
    refine ⟨hcount, ?_⟩
    rw [View.takes?, Option.some.injEq] at hskipped
    exact of_decide_eq_false (hzero ▸ hskipped)
  refine .exec (Q := fun n u v => (counted n u v ∧ ¬(v.zp (work + 1) = 0 ∧ v.zp work = 0)) ∧
    v.a = UInt8.ofNat (48 + (v.zp (work + 1)).toNat)) rfl (fun n u v hv => ?_) ?_
  · obtain ⟨⟨hcount, hn⟩, hsome⟩ := hv
    exact ⟨_, rfl, ⟨⟨hcount.congr rfl rfl rfl rfl, hn⟩, hsome⟩, or_0x30 hcount.lt_ten⟩
  let stored : Assertion := fun n u v => v.x.toNat ≤ 3 ∧ v.a ≠ 0 ∧
    u.word intA / 10 ^ (4 - v.x.toNat) ≠ 0 ∧
    Buffered t u.main u.y.toNat (leading (u.word intA / 10 ^ (4 - v.x.toNat))) 1 v ∧
    v.word intA = u.word intA % 10 ^ (4 - v.x.toNat) ∧ (3 - v.x.toNat) * 16 < n
  refine .knowing (.letter (Q := fun n u v => stored n u v ∧ hasRoom t u) ht
    rfl (fun n u v hv => ?_) ?_)
  · obtain ⟨⟨⟨⟨hcount, hn⟩, hsome⟩, ha⟩, hroom, -⟩ := hv
    have hten := hcount.lt_ten
    have hindex := hcount.index
    have hy := hcount.written.room (by omega) hroom
    obtain ⟨hpositive, hnext⟩ := hcount.leading_next hsome
    have hstore := hcount.written.buffered.store ht hy v.a
    rw [ha, ← hnext, ← ha] at hstore
    refine ⟨hy, ⟨hindex, fun hzero => ?_, hpositive, hstore, hcount.rest, hn⟩, hroom⟩
    have hnat := congrArg UInt8.toNat (ha.symm.trans hzero)
    rw [UInt8.toNat_ofNat', UInt8.toNat_zero] at hnat
    omega
  refine .exec (Q := written) rfl (fun n u v hv => ?_) ?_
  · obtain ⟨⟨hindex, ha, hpositive, hbuffered, hrest, hn⟩, hroom⟩ := hv
    have hlength := length_leading_lt (n := u.word intA) (j := 5 - (v.x.toNat + 1)) (by omega)
    have hroomY := hroom.1
    have hpower : 5 - (v.x.toNat + 1) = 4 - v.x.toNat := by omega
    rw [← hpower] at hbuffered hpositive
    exact ⟨_, rfl, hindex, ⟨hbuffered.next (by omega) rfl rfl, iff_of_false ha hpositive⟩,
      hrest, hn⟩
  -- after four powers of ten the last digit is left
  let last : Assertion := fun _ u v => Written t 4 u v ∧ v.word intA = u.word intA % 10
  refine .bind (.run (Q := fun n u v => 1 ≤ v.x.toNat ∧ v.x.toNat ≤ 4 ∧ Written t v.x.toNat u v ∧
    v.word intA = u.word intA % 10 ^ (5 - v.x.toNat) ∧
    (4 - v.x.toNat) * 16 < n) rfl (fun n u v hv => ?_) ?_)
  · obtain ⟨hindex, hwritten, hrest, hn⟩ := hv
    have hnext : (v.x + 1).toNat = v.x.toNat + 1 := by
      rw [UInt8.toNat_add, UInt8.toNat_one]
      omega
    refine ⟨_, rfl, ?_⟩
    show 1 ≤ (v.x + 1).toNat ∧ (v.x + 1).toNat ≤ 4 ∧ Written t (v.x + 1).toNat u _ ∧
      v.word intA = u.word intA % 10 ^ (5 - (v.x + 1).toNat) ∧ (4 - (v.x + 1).toNat) * 16 < n
    rw [hnext, show 5 - (v.x.toNat + 1) =
      4 - v.x.toNat by omega, show 4 - (v.x.toNat + 1) = 3 - v.x.toNat by omega]
    exact ⟨by omega, by omega, hwritten.congr rfl rfl rfl, hrest, hn⟩
  refine .read (Q := fun n u v => (1 ≤ v.x.toNat ∧ v.x.toNat ≤ 4 ∧ Written t v.x.toNat u v ∧
    v.word intA = u.word intA % 10 ^ (5 - v.x.toNat) ∧ (4 - v.x.toNat) * 16 < n) ∧
    v.zero = decide (v.x.toNat = 4)) rfl rfl
    (fun n u v hv => ?_) ?_
  · obtain ⟨hpos, hindex, hwritten, hrest, hn⟩ := hv
    exact ⟨_, _, rfl, rfl, ⟨hpos, hindex, hwritten.congr rfl rfl rfl, hrest, hn⟩,
      sub_beq_zero_toNat v.x 4⟩
  refine .branchBack (Q := last) (fun n u v hv htaken => ?_) (fun n u v hv hskipped => ?_)
    (.forget ?_ (List.nil_subset _))
  · obtain ⟨⟨hpos, hindex, hwritten, hrest, hn⟩, hzero⟩ := hv
    have hmore : v.x.toNat ≠ 4 := by simpa [View.takes?, hzero] using htaken
    rw [show 5 - v.x.toNat = 4 - v.x.toNat + 1 by omega] at hrest
    exact ⟨_, hn, by omega, hwritten, hrest, Nat.le_refl _⟩
  · obtain ⟨⟨-, -, hwritten, hrest, -⟩, hzero⟩ := hv
    have hdone : v.x.toNat = 4 := by simpa [View.takes?, hzero] using hskipped
    rw [hdone] at hwritten hrest
    exact ⟨hwritten, hrest⟩
  refine .exec (Q := fun _ u v => Written t 4 u v ∧ v.a = UInt8.ofNat (48 + u.word intA % 10))
    rfl (fun _ u v hv => ?_) ?_
  · obtain ⟨hwritten, hrest⟩ := hv
    have hlow : (v.zp intA).toNat = u.word intA % 10 := by
      rw [View.word] at hrest
      omega
    have hdigit := or_0x30 (d := v.zp intA) (by omega)
    rw [hlow] at hdigit
    exact ⟨_, rfl, hwritten.congr rfl rfl rfl, hdigit⟩
  refine .knowing (.letter
    (Q := fun _ u v => Buffered t u.main u.y.toNat (spelled (toString (u.word intA))) 1 v ∧
      hasRoom t u) ht rfl (fun _ u v hv => ?_) ?_)
  · obtain ⟨⟨hwritten, ha⟩, hroom, -⟩ := hv
    have hy := hwritten.room (by omega) hroom
    have hstore := hwritten.buffered.store ht hy v.a
    rw [show 5 - 4 = 1 from rfl, Nat.pow_one, ha, ← spelled_eq_leading, ← ha] at hstore
    exact ⟨hy, hstore, hroom⟩
  refine .exec (Q := fun _ u v =>
    (Buffered t u.main u.y.toNat (spelled (toString (u.word intA))) 0 v ∧ hasRoom t u) ∧ v.a = 0)
    rfl (fun _ u v hv => ?_) ?_
  · obtain ⟨hbuffered, hroom⟩ := hv
    have hroomY := hroom.1
    exact ⟨_, rfl, ⟨hbuffered.next (by omega) rfl rfl, hroom⟩, rfl⟩
  refine .letter (Q := fun _ u v =>
    Buffered t u.main u.y.toNat (spelled (toString (u.word intA)) ++ [0]) 1 v) ht rfl
    (fun _ u v hv => ?_) ?_
  · obtain ⟨⟨hbuffered, hroom⟩, ha⟩ := hv
    have hindex := hbuffered.index
    have hroomSize := hroom.2
    have hy : v.y.toNat < t.conversionSize.toNat := by omega
    exact ⟨hy, ha ▸ hbuffered.store ht hy 0⟩
  refine .rts (fun _ u v hv => ⟨?_, hv.main⟩) (.table (.table (.done (by decide) _)))
  have hindex := hv.index
  rw [List.length_append, List.length_singleton] at hindex
  omega

/-! ## Texts of words -/

/-- The bytes of a text behind those in front of it. -/
theorem spelled_append (s₁ s₂ : String) : spelled (s₁ ++ s₂) = spelled s₁ ++ spelled s₂ := by
  rw [spelled, String.toList_append, List.map_append]
  rfl

theorem toString_neg {m : ℕ} (h : m ≠ 0) : toString (-(m : ℤ)) = "-" ++ toString m := by
  obtain ⟨k, rfl⟩ := Nat.exists_eq_succ_of_ne_zero h
  rfl

/-- The minus sign of a negative word. -/
def minus (n : ℕ) : List UInt8 := if 65536 ≤ 2 * n then [0x2D] else []

theorem length_minus_le (n : ℕ) : (minus n).length ≤ 1 := by
  rw [minus]
  split <;> decide

theorem spelled_signed {n : ℕ} (hn : n < 65536) :
    spelled (toString ((n : ℤ).bmod 65536)) = minus n ++
      spelled (toString (magnitude 65536 n)) := by
  obtain ⟨-, hsigned⟩ := bmod_eq_magnitude (m := 65536) (by decide) hn
  rw [hsigned, minus]
  split
  · rw [toString_neg (magnitude_ne_zero hn (by omega)), spelled_append]
    rfl
  · rfl

namespace Buffered

variable {m : Contents} {first : List UInt8} {b : ℕ}

/-- There is room for the digits of a word behind a sign. -/
theorem hasRoom (h : Buffered t m 0 first 0 v) (ht : Roomy t) (hfirst : first.length ≤ 1) :
    hasRoom t (v.call b) := by
  have hindex : v.y.toNat + 0 = 0 + first.length := h.index
  have htexts := ht.texts
  have hdigits := length_spelled_word (v.word_lt intA)
  show v.y.toNat + (spelled (toString (v.word intA))).length < 256 ∧
    v.y.toNat + (spelled (toString (v.word intA))).length < t.conversionSize.toNat
  omega

/-- The digits that were asked for stand behind what was there. -/
theorem digits (h : Buffered t m 0 first 0 v) (hw : formats t (v.call b) w) :
    Buffered t m 0 (first ++ spelled (toString (v.word intA)) ++ [0]) 1 w.drop.drop := by
  obtain ⟨hy, hmain⟩ := hw
  have hindex : v.y.toNat + 0 = 0 + first.length := h.index
  have hmoved : w.y.toNat = v.y.toNat + (spelled (toString (v.word intA))).length := hy
  refine ⟨?_, ?_⟩
  · simp only [List.length_append, List.length_singleton]
    show w.y.toNat + 1 = _
    omega
  · have hplaced : w.main = Contents.place v.main (t.conversionBase.toNat + v.y.toNat)
        (spelled (toString (v.word intA)) ++ [0]) :=
      hmain
    show w.main = _
    rw [hplaced, h.main,
      show v.y.toNat = first.length by
        omega, Nat.add_zero, List.append_assoc, Contents.place_behind]

end Buffered

namespace Flows

variable {id : RoutineId} {α : Type} {size : ℕ} {back : Back} {ahead : Ahead}
  {P Q : Assertion} {rest : Writer α}

/-- What a text starts with is in the buffer, and the digits of a word follow. -/
theorem digits (ht : Roomy t) (hmay : MayCall id 0 RoutineId.formatU16) (first : View → List UInt8)
    (number : View → ℕ)
    (hfirst : ∀ n u v, P n u v → (first u).length ≤ 1 ∧ Buffered t u.main 0 (first u) 0 v ∧
      v.word intA = number u)
    (hP : ∀ n u v b w, P n u v → (conduct t .formatU16).Keeps 0 (v.call b) w →
      Buffered t u.main 0
        (first u ++ spelled (toString (number u)) ++ [0]) 1 w.drop.drop → Q n u w.drop.drop)
    (h : Flows (conduct t) t id (size - 5) back ahead 0 Q rest) :
    Flows (conduct t) t id size back ahead 0 P (Writer.call .formatU16 >>= fun _ => rest) := by
  refine .call (f := fun _ => rest) hmay (fun n u v b hv => ?_) (fun n u v b w hv hkeeps hw => ?_) h
  · obtain ⟨hlength, hbuffered, -⟩ := hfirst n u v hv
    exact hbuffered.hasRoom ht hlength
  · obtain ⟨-, hbuffered, hnumber⟩ := hfirst n u v hv
    exact hP n u v b w hv hkeeps (hnumber ▸ hbuffered.digits hw)

/-- The address of the conversion buffer is returned with the text in it. -/
theorem returnText (text : View → String) (hends : ends t id = converts t text)
    (hx : (conduct t id).setsX {} = true) (hsize : 15 < size) :
    Flows (conduct t) t id size back []
      0 (fun _ u v => Buffered t u.main 0 (spelled (text u) ++ [0]) 1 v)
      (returnAddress t.conversionBase >>= fun _ => pure ()) := by
  simp only [returnAddress, bind_assoc]
  refine .exec (Q := fun _ u v => Buffered t u.main 0 (spelled (text u) ++ [0]) 1 v ∧
    returnsAddress t.conversionBase v) ?_
    (fun _ u v hv => ⟨_, rfl, hv.congr rfl rfl, rfl, rfl⟩) (.rts (fun _ u v hv => ?_) (.done ?_ _))
  · show (true && ((true && (conduct t id).setsX {}) && true)) = true
    rw [hx]
    rfl
  · show ends t id u v
    rw [hends]
    exact ⟨hv.2, hv.1.main⟩
  · omega

/-- A minus sign is written for a negative word, and the word becomes its magnitude. -/
theorem minusSign {z : UInt8} (ht : Roomy t) (hid : (bounds id).buffers = [.conversion])
    (hy : (conduct t id).setsY {} = true)
    (hz : (conduct t id).opens {} z = true) (hz' : (conduct t id).opens {} (z + 1) = true)
    (h : Flows (conduct t) t id (size - 70) back ahead 0
      (fun _ u v => Buffered t u.main 0 (minus (u.word z)) 0 v ∧
        v.word z = magnitude 65536 (u.word z)) rest) :
    Flows (conduct t) t id size back ahead 0 (fun _ => Eq)
      (Routine.minusSign z >>= fun _ => rest) := by
  simp only [Routine.minusSign, bind_assoc]
  refine .label (fun _ u v => Buffered t u.main 0 (minus (u.word z)) 0 v ∧
    v.word z = magnitude 65536 (u.word z)) fun positive => ?_
  refine .exec (Q := fun _ u v => (v.main = u.main ∧ v.word z = u.word z ∧ v.y = 0) ∧
    v.negative = decide (65536 ≤ 2 * u.word z)) ?_
    (fun _ u v huv => ?_) ?_
  · show ((true && (conduct t id).setsY {}) && (true && true)) = true
    rw [hy]
    rfl
  · subst huv
    exact ⟨_, rfl, ⟨rfl, rfl, rfl⟩, isNegative_high u z⟩
  refine .branch (Q := fun _ u v => (v.main = u.main ∧ v.word z = u.word z ∧ v.y = 0) ∧
    65536 ≤ 2 * u.word z)
    (fun _ u v hv htaken => ?_) (fun _ u v hv hskipped => ?_) ?_
  · obtain ⟨⟨hmain, hword, hindex⟩, hnegative⟩ := hv
    have hpositive : 2 * u.word z < 65536 := by simpa [View.takes?, hnegative] using htaken
    rw [minus, if_neg (by omega), magnitude, negateWhen, decide_eq_false (by omega), ← hmain]
    exact ⟨.nothing (by rw [hindex]; rfl), hword⟩
  · obtain ⟨hsame, hnegative⟩ := hv
    exact ⟨hsame, by simpa [View.takes?, hnegative] using hskipped⟩
  refine .run (Q := fun _ u v =>
    (v.main = u.main ∧ v.word z = magnitude 65536 (u.word z) ∧ v.y = 0) ∧ 65536 ≤ 2 * u.word z) ?_
    (fun _ u v hv => ?_) ?_
  · show (true && (true && (true && ((conduct t id).opens {} z && (true && (true &&
      ((conduct t id).opens {} (z + 1) && true))))))) = true
    rw [hz, hz']
    rfl
  · obtain ⟨⟨hmain, hword, hindex⟩, hnegative⟩ := hv
    obtain ⟨w, hexec, hnegated⟩ := negate_word v z
    obtain rfl := Option.some.inj hexec
    refine ⟨_, hexec, ⟨hmain, ?_, hindex⟩, hnegative⟩
    rw [hnegated, hword, magnitude, negateWhen, decide_eq_true hnegative, if_pos rfl]
  refine .run (Q := fun _ u v =>
    ((v.main = u.main ∧ v.word z = magnitude 65536 (u.word z) ∧ v.y = 0) ∧ 65536 ≤ 2 * u.word z) ∧
    v.a = 0x2D) rfl (fun _ u v hv => ⟨_, rfl, hv, rfl⟩) (.target ?_)
  refine .store (Q := fun _ u v =>
    (Buffered t u.main 0 [0x2D] 1 v ∧ v.word z = magnitude 65536 (u.word z)) ∧
      65536 ≤ 2 * u.word z) rfl
    (fun _ u v hv => ?_) ?_
  · obtain ⟨⟨⟨hmain, hword, hindex⟩, hnegative⟩, ha⟩ := hv
    have htexts := ht.texts
    have hbase := ht.conversion
    have hnat : v.y.toNat = 0 := by rw [hindex]; rfl
    have hstore := (Buffered.nothing (t := t) hnat).store ht (by omega) 0x2D
    have hmainBase : t.conversionBase + v.y.toUInt16 = t.conversionBase := by simp [hindex]
    rw [hmainBase, hmain] at hstore
    exact ⟨_, _, rfl, rfl,
      owns_conversion hid (Nat.le_refl _) (by show t.conversionBase.toNat < _; omega),
      ⟨ha ▸ hstore, hword⟩, hnegative⟩
  refine .run (Q := fun _ u v => Buffered t u.main 0 (minus (u.word z)) 0 v ∧
    v.word z = magnitude 65536 (u.word z)) ?_
    (fun _ u v hv => ?_) (.bind ?_)
  · show ((conduct t id).setsY {} && true) = true
    rw [hy]
    rfl
  · obtain ⟨⟨hbuffered, hword⟩, hnegative⟩ := hv
    rw [minus, if_pos hnegative]
    exact ⟨_, rfl, hbuffered.next (by decide) rfl rfl, hword⟩
  · exact .forget (.fit h (by omega)) (List.subset_cons_of_subset _ (List.Subset.refl _))

end Flows

theorem textOfU16_conducted (ht : Roomy t) : Conducted t .textOfU16 := by
  refine .last ?_
  simp only [body, textOfU16, bind_assoc]
  refine .exec (Q := fun _ u v => Buffered t u.main 0 [] 0 v ∧ v.word intA = u.word intA)
    rfl (fun _ u v huv => ?_) ?_
  · subst huv
    exact ⟨_, rfl, (Buffered.nothing (v := u.setY 0) rfl).congr rfl rfl, rfl⟩
  refine .digits ht
    (by decide) (fun _ => []) (fun u => u.word intA) (fun _ u v hv => ⟨by decide, hv⟩)
    (fun _ u v b w _ _ hw => hw)
      (.target (.returnText (fun u => toString (u.word intA)) rfl rfl (by decide)))

theorem textOfI16_conducted (ht : Roomy t) : Conducted t .textOfI16 := by
  refine .last ?_
  simp only [body, textOfI16, bind_assoc]
  refine .minusSign ht rfl rfl rfl rfl ?_
  refine .digits ht
    (by decide) (fun u => minus (u.word intA)) (fun u => magnitude 65536 (u.word intA))
    (fun _ u v hv => ⟨length_minus_le _, hv⟩) (fun _ u v b w _ _ hw => ?_)
    (.target (.returnText (fun u => toString ((u.word intA : ℤ).bmod 65536)) rfl rfl (by decide)))
  rwa [← spelled_signed (u.word_lt intA)] at hw

/-! ## Texts of fixed-point numbers -/

/-- Ten times a number of sixteenths is the next digit, in front of the sixteenths that are left. -/
theorem ten_times (v : View) (hf : (v.zp (work + 3)).toNat < 16) :
    ∃ w, execAll v [.instr .lda (.zeroPage (work + 3)), .instr .asl .accumulator,
      .instr .asl .accumulator, .instr .clc .implied, .instr .adc (.zeroPage (work + 3)),
        .instr .asl .accumulator, .instr .sta (.zeroPage (work + 3)),
        .instr .lsr .accumulator, .instr .lsr .accumulator, .instr .lsr .accumulator,
          .instr .lsr .accumulator,
        .instr .ora (.immediate 0x30)] = some w ∧
      w.a = UInt8.ofNat (48 + (v.zp (work + 3)).toNat * 10 / 16) ∧
        (w.zp (work + 3)).toNat = (v.zp (work + 3)).toNat * 10 ∧
      w.y = v.y ∧ w.main = v.main := by
  refine ⟨_, rfl, ?_, ?_, rfl, rfl⟩
  · refine Eq.trans (or_0x30 ?_) (congrArg (fun d => UInt8.ofNat (48 + d)) ?_)
    all_goals
      simp
      generalize (v.zp (work + 3)).toNat = n at hf ⊢
      interval_cases n <;> decide
  · simp
    omega

theorem toNat_and_0x0F (n : UInt8) : (n &&& 0x0F).toNat = n.toNat % 16 := by
  rw [UInt8.toNat_and]
  exact Nat.and_two_pow_sub_one_eq_mod n.toNat 4

/-- The digits of a number of sixteenths as bytes. -/
def behindPoint (n f : ℕ) : List UInt8 := (Fixed.fractionDigits n f).map Char.toUInt8

theorem behindPoint_succ (n : ℕ) {f : ℕ} (hf : f < 16) :
    behindPoint (n + 1) f = UInt8.ofNat (48 + f * 10 / 16) :: if f * 10 % 16 = 0 then []
      else behindPoint n (f * 10 % 16) := by
  have hdigit : (Char.ofNat (48 + f * 10 / 16)).toUInt8 = UInt8.ofNat (48 + f * 10 / 16) := by
    interval_cases f <;> rfl
  rw [behindPoint, Fixed.fractionDigits, List.map_cons, hdigit]
  split <;> rfl

theorem spelled_text {n : ℕ} (hn : n < 65536) :
    spelled (fixedOf n).text = minus n ++ spelled (toString (magnitude 65536 n / 16)) ++ [0x2E] ++
      behindPoint 4 (magnitude 65536 n % 16) := by
  obtain ⟨hnegative, habs⟩ := units_fixedOf hn
  rw [decide_eq_decide] at hnegative
  have hsign : spelled (if 65536 ≤ 2 * n then "-" else "") = minus n := by
    rw [minus]
    split <;> rfl
  have hdigits : spelled (String.ofList (Fixed.fractionDigits 4 (magnitude 65536 n % 16))) =
      behindPoint 4 (magnitude 65536 n % 16) := by
    rw [spelled, String.toList_ofList]
    rfl
  have hpoint : spelled "." = [0x2E] := rfl
  simp only [Fixed.text, habs, hnegative, spelled_append]
  rw [hsign, hdigits, hpoint]

/-- Of the text of a fixed-point number a rest of so many characters at most is left, which so many
sixteenths give, and Y stands so many characters in front of the end of the others. -/
structure Spelling (t : Target) (count back f : ℕ) (rest : List UInt8) (u v : View) : Prop where
  ends : 16 ∣ f * 2 ^ count
  buffered : ∃ s, Buffered t u.main 0 s back v ∧ s.length + count ≤ 10 ∧
    spelled (fixedOf (u.word fixA)).text = s ++ rest

namespace Spelling

variable {count back f : ℕ} {rest : List UInt8}

theorem congr (h : Spelling t count back f rest u v) (hy : w.y = v.y) (hmain : w.main = v.main) :
    Spelling t count back f rest u w := by
  obtain ⟨s, hbuffered, hrest⟩ := h.buffered
  exact ⟨h.ends, s, hbuffered.congr hy hmain, hrest⟩

theorem room (h : Spelling t count back f rest u v) (ht : Roomy t) :
    v.y.toNat < t.conversionSize.toNat := by
  obtain ⟨s, hbuffered, hlength, -⟩ := h.buffered
  have hindex := hbuffered.index
  have htexts := ht.texts
  omega

/-- The next digit is written. -/
theorem store (h : Spelling t (count + 1) 0 f (behindPoint (count + 1) f) u v)
    (ht : Roomy t) (hf : f < 16) (ha : v.a = UInt8.ofNat (48 + f * 10 / 16)) :
    Spelling t count 1 (f * 10 % 16)
      (if f * 10 % 16 = 0 then [] else behindPoint count (f * 10 % 16)) u
      (v.poke (t.conversionBase + v.y.toUInt16) v.a) := by
  obtain ⟨s, hbuffered, hlength, htext⟩ := h.buffered
  refine ⟨?_, s ++ [v.a], hbuffered.store ht (h.room ht) v.a, ?_, ?_⟩
  · have hten : 16 ∣ f * 10 * 2 ^ count := by
      have hends := Dvd.dvd.mul_right h.ends 5
      rwa [show f * 2 ^ (count + 1) * 5 = f * 10 * 2 ^ count by rw [Nat.pow_succ]; ring] at hends
    rw [← Nat.div_add_mod (f * 10) 16, Nat.add_mul, Nat.mul_assoc] at hten
    exact (Nat.dvd_add_right (Nat.dvd_mul_right 16 _)).1 hten
  · rw [List.length_append, List.length_singleton]
    omega
  · rw [htext, behindPoint_succ count hf, ha, List.append_assoc]
    rfl

/-- Y moves past the digit. -/
theorem next (h : Spelling t count 1 f rest u v) (hy : w.y = v.y + 1) (hmain : w.main = v.main) :
    Spelling t count 0 f rest u w := by
  obtain ⟨s, hbuffered, hlength, htext⟩ := h.buffered
  exact ⟨h.ends, s, hbuffered.next (by omega) hy hmain, hlength, htext⟩

end Spelling

theorem textOfFixed_conducted (ht : Roomy t) : Conducted t .textOfFixed := by
  have htexts := ht.texts
  refine .last ?_
  simp only [body, textOfFixed, bind_assoc]
  refine .target (.minusSign ht rfl rfl rfl rfl ?_)
  -- the fraction is put aside, and the integer part is what the formatting routine gets
  let parted (k : ℕ) : Assertion := fun _ u v => Buffered t u.main 0 (minus (u.word fixA)) 0 v ∧
    (v.zp (work + 3)).toNat = magnitude 65536 (u.word fixA) % 16 ∧
    v.word intA = magnitude 65536 (u.word fixA) / 2 ^ k
  have hhalf (k n : ℕ) (u v : View) (hv : parted k n u v) :
      ∃ w, execAll v [.instr .lsr (.zeroPage (intA + 1)), .instr .ror (.zeroPage intA)] = some w ∧
          parted (k + 1) n u w := by
    obtain ⟨hbuffered, hfraction, hword⟩ := hv
    obtain ⟨w, hexec, hhalf, -, hy⟩ := shiftRight_word v intA
    have hframe := execAll_frame hexec rfl
    have hkept : w.zp (work + 3) = v.zp (work + 3) := hframe.zp _ (by decide)
    exact ⟨w, hexec, hbuffered.congr hy hframe.main, hkept ▸ hfraction,
      by rw [hhalf, hword, Nat.div_div_eq_div_mul, ← Nat.pow_succ]⟩
  refine .run (Q := fun _ u v =>
    (Buffered t u.main 0 (minus (u.word fixA)) 0 v ∧ v.word fixA = magnitude 65536 (u.word fixA)) ∧
    v.a = v.zp fixA) rfl (fun _ u v hv => ⟨_, rfl, ⟨hv.1.congr rfl rfl, hv.2⟩, rfl⟩) ?_
  refine .run (Q := fun _ u v =>
    (Buffered t u.main 0 (minus (u.word fixA)) 0 v ∧ v.word fixA = magnitude 65536 (u.word fixA)) ∧
    v.a.toNat = magnitude 65536 (u.word fixA) % 16) rfl (fun _ u v hv => ?_) ?_
  · obtain ⟨⟨hbuffered, hword⟩, ha⟩ := hv
    refine ⟨_, rfl, ⟨hbuffered.congr rfl rfl, hword⟩, ?_⟩
    show (v.a &&& 0x0F).toNat = _
    rw [toNat_and_0x0F, ha, ← hword, View.word]
    omega
  refine .run (Q := fun _ u v =>
    (Buffered t u.main 0 (minus (u.word fixA)) 0 v ∧ v.word fixA = magnitude 65536 (u.word fixA)) ∧
    (v.zp (work + 3)).toNat = magnitude 65536 (u.word fixA) % 16) rfl (fun _ u v hv =>
      ⟨_, rfl, ⟨hv.1.1.congr rfl rfl, hv.1.2⟩, hv.2⟩) ?_
  refine .run (Q := parted 0) rfl (fun _ u v hv => ?_) ?_
  · obtain ⟨⟨hbuffered, hword⟩, hfraction⟩ := hv
    exact ⟨_, rfl, hbuffered.congr rfl rfl,
      hfraction, by rw [Nat.pow_zero, Nat.div_one, ← hword]; rfl⟩
  refine .run (Q := parted 1) rfl (hhalf 0)
    (.run (Q := parted 2) rfl (hhalf 1) (.run (Q := parted 3) rfl (hhalf 2)
    (.run (Q := parted 4) rfl (hhalf 3) ?_)))
  let front (u : View) : List UInt8 :=
    minus (u.word fixA) ++ spelled (toString (magnitude 65536 (u.word fixA) / 16))
  have hfront (u : View) : (front u).length ≤ 5 := by
    have hquotient : magnitude 65536 (u.word fixA) / 16 / 10 < 10 ^ 3 := by
      have := magnitude_le (u.word_lt fixA)
      omega
    have hdigits := length_leading_le hquotient
    have hminus := length_minus_le (u.word fixA)
    simp only [front, List.length_append, spelled_eq_leading, List.length_singleton]
    omega
  refine .digits (Q := fun _ u v => Buffered t u.main 0 (front u ++ [0]) 1 v ∧
      (v.zp (work + 3)).toNat = magnitude 65536 (u.word fixA) % 16) ht (by decide) (fun u =>
        minus (u.word fixA))
    (fun u => magnitude 65536 (u.word fixA) / 16) (fun _ u v hv =>
      ⟨length_minus_le _, hv.1, hv.2.2⟩)
    (fun _ u v b w hv hkeeps hw => ⟨hw, ?_⟩) ?_
  · have hkept : w.zp (work + 3) = v.zp (work + 3) := kept hkeeps (by decide)
    rw [← hv.2.1, ← hkept]
    rfl
  -- the point takes the place of the zero
  refine .exec (Q := fun _ u v => (Buffered t u.main 0 (front u ++ [0]) 1 v ∧
      (v.zp (work + 3)).toNat = magnitude 65536 (u.word fixA) % 16) ∧ v.a = 0x2E) rfl
    (fun _ u v hv => ⟨_, rfl, ⟨hv.1.congr rfl rfl, hv.2⟩, rfl⟩) ?_
  refine .letter (Q := fun _ u v => Buffered t u.main 0 (front u ++ [0x2E]) 1 v ∧
      (v.zp (work + 3)).toNat = magnitude 65536 (u.word fixA) % 16) ht rfl (fun _ u v hv => ?_) ?_
  · obtain ⟨⟨hbuffered, hfraction⟩, ha⟩ := hv
    have hindex := hbuffered.index
    rw [List.length_append, List.length_singleton] at hindex
    have := hfront u
    have hy : v.y.toNat < t.conversionSize.toNat := by omega
    exact ⟨hy, ha ▸ hbuffered.replace ht hy 0x2E, hfraction⟩
  refine .run (Q := fun _ u v => Buffered t u.main 0 (front u ++ [0x2E]) 0 v ∧
      (v.zp (work + 3)).toNat = magnitude 65536 (u.word fixA) % 16) rfl (fun _ u v hv => ?_) ?_
  · have := hfront u
    refine ⟨_, rfl, hv.1.next ?_ rfl rfl, hv.2⟩
    rw [List.length_append, List.length_singleton]
    omega
  -- each round takes a power of two out of the denominator
  let rounds : Assertion := fun n u v => ∃ count < n, (v.zp (work + 3)).toNat < 16 ∧
    Spelling t (count + 1) 0 (v.zp (work + 3)).toNat
      (behindPoint (count + 1) (v.zp (work + 3)).toNat) u v
  refine .renew (Q := rounds) (.here fun fraction => ?_) fun _ u v hv => ?_
  rotate_left
  · obtain ⟨hbuffered, hfraction⟩ := hv
    refine ⟨4, 3, by decide, by omega, ⟨Dvd.intro_left _ rfl, front u ++ [0x2E], hbuffered, ?_, ?_⟩⟩
    · have := hfront u
      rw [List.length_append, List.length_singleton]
      omega
    · rw [hfraction, spelled_text (u.word_lt fixA)]
  refine .exec (Q := fun n u v => ∃ count < n, ∃ f < 16, (v.zp (work + 3)).toNat = f * 10 ∧
    v.a = UInt8.ofNat (48 + f * 10 / 16) ∧
    Spelling t (count + 1) 0 f (behindPoint (count + 1) f) u v) rfl (fun n u v hv => ?_) ?_
  · obtain ⟨count, hn, hf, hspelling⟩ := hv
    obtain ⟨w, hexec, ha, hten, hy, hmain⟩ := ten_times v hf
    exact ⟨w, hexec, count, hn, _, hf, hten, ha, hspelling.congr hy hmain⟩
  refine .letter (Q := fun n u v => ∃ count < n, ∃ f < 16, (v.zp (work + 3)).toNat = f * 10 ∧
    Spelling t count 1 (f * 10 % 16)
      (if f * 10 % 16 = 0 then [] else behindPoint count (f * 10 % 16)) u v) ht rfl
    (fun n u v hv => ?_) ?_
  · obtain ⟨count, hn, f, hf, hten, ha, hspelling⟩ := hv
    exact ⟨hspelling.room ht, count, hn, f, hf, hten, hspelling.store ht hf ha⟩
  refine .exec (Q := fun n u v => ∃ count < n, (v.zp (work + 3)).toNat < 16 ∧
    v.a = v.zp (work + 3) ∧
    v.zero = decide ((v.zp (work + 3)).toNat = 0) ∧ Spelling t count 0 (v.zp (work + 3)).toNat
      (if (v.zp (work + 3)).toNat = 0 then [] else behindPoint count (v.zp (work + 3)).toNat) u v)
        rfl (fun n u v hv => ?_) ?_
  · obtain ⟨count, hn, f, hf, hten, hspelling⟩ := hv
    have hleft : (v.zp (work + 3) &&& 0x0F).toNat = f * 10 % 16 := by rw [toNat_and_0x0F, hten]
    refine ⟨_, rfl, count, hn, ?_⟩
    show (v.zp (work + 3) &&& 0x0F).toNat < 16 ∧ _ = v.zp (work + 3) &&& 0x0F ∧
      (v.zp (work + 3) &&& 0x0F == 0) = decide ((v.zp (work + 3) &&& 0x0F).toNat = 0) ∧
      Spelling t count 0 (v.zp (work + 3) &&& 0x0F).toNat
        (if (v.zp (work + 3) &&& 0x0F).toNat =
          0 then [] else behindPoint count (v.zp (work + 3) &&& 0x0F).toNat) u _
    rw [Bool.eq_iff_iff, beq_iff_eq, decide_eq_true_eq, eq_zero_iff, hleft]
    exact ⟨Nat.mod_lt _ (by decide), rfl, Iff.rfl, hspelling.next rfl rfl⟩
  refine .branchBack (Q := fun _ u v => v.a = 0 ∧ Spelling t 0 0 0 [] u v) (fun n u v hv htaken =>
    ?_) (fun n u v hv hskipped => ?_)
    (.forget ?_ (List.nil_subset _))
  · obtain ⟨count, hn, hf, -, hzero, hspelling⟩ := hv
    have hmore : (v.zp (work + 3)).toNat ≠ 0 := by simpa [View.takes?, hzero] using htaken
    rw [if_neg hmore] at hspelling
    cases count with
    | zero =>
      have hends := hspelling.ends
      omega
    | succ count => exact ⟨count + 1, hn, count, Nat.lt_succ_self _, hf, hspelling⟩
  · obtain ⟨count, hn, -, ha, hzero, hspelling⟩ := hv
    have hdone : (v.zp (work + 3)).toNat = 0 := by simpa [View.takes?, hzero] using hskipped
    rw [hdone] at hspelling
    obtain ⟨s, hbuffered, hlength, htext⟩ := hspelling.buffered
    exact ⟨ha.trans (eq_zero_iff.2 hdone), by decide, s, hbuffered, by omega, htext⟩
  refine .letter (Q := fun _ u v =>
    Buffered t u.main 0 (spelled (fixedOf (u.word fixA)).text ++ [0]) 1 v) ht rfl (fun _ u v hv =>
      ?_)
    (.returnText (fun u => (fixedOf (u.word fixA)).text) rfl rfl (by decide))
  obtain ⟨ha, hspelling⟩ := hv
  obtain ⟨s, hbuffered, -, htext⟩ := hspelling.buffered
  rw [htext, List.append_nil, ha]
  exact ⟨hspelling.room ht, hbuffered.store ht (hspelling.room ht) 0⟩

/-! ## Texts of floating-point numbers -/

theorem textOfFloat_conducted : Conducted t .textOfFloat := by
  let number (u : View) : ℕ := ((datumOf (u.word floatA)).truncate (-32768) 32767 16 % 65536).toNat
  refine .last ?_
  simp only [body, textOfFloat, bind_assoc]
  refine .call (Q := fun _ u v => v.main = u.main ∧ v.word fixR = number u)
    (by decide) (fun _ _ _ _ _ => trivial)
    (fun _ u v b w hv hkeeps hw => ?_) ?_
  · subst hv
    have hvalue : (w.word fixR : ℤ) = (datumOf (u.word floatA)).truncate (-32768) 32767
      16 % 65536 := hw.2
    refine ⟨funext fun address => hkeeps.main address fun hown => ?_, ?_⟩
    · obtain ⟨area, harea, -⟩ := hown
      cases harea
    · show w.word fixR = ((datumOf (u.word floatA)).truncate (-32768) 32767 16 % 65536).toNat
      omega
  refine .exec (Q := fun _ u v => v.main = u.main ∧ v.word fixA = number u)
    rfl (fun _ u v hv => ⟨_, rfl, hv.1, hv.2⟩) ?_
  refine .tailCall (by decide) (fun _ _ _ _ => trivial) (fun _ u v w hv hw => ?_)
    (.done (by decide) _)
  obtain ⟨hmain, hnumber⟩ := hv
  refine ⟨hw.1, ?_⟩
  show w.main = Contents.place u.main t.conversionBase.toNat
    (spelled (fixedOf (number u)).text ++ [0])
  rw [← hnumber, ← hmain]
  exact hw.2

end Breadbin.Routine
