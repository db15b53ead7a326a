import Breadbin.Proofs.Routine.Results

/-!
# Sums of floating-point numbers

The routines that add and subtract return the sum or the difference as it should be rounded.  The
mantissa of the smaller number is shifted down to the exponent of the larger one.  Bits are lost on
the way only if it is so much smaller that the result keeps its leading one, but for one place.
-/

namespace Breadbin.Routine

open Assembly Machine Numeric ZeroPage Writer LinkedCode

/-! ## Sums in numbers -/

theorem withSign_pos (s : Bool) {x : ℚ} (hx : 0 < x) :
    decide (withSign s x < 0) = s ∧ |withSign s x| = x := by
  cases s with
  | true => exact ⟨decide_eq_true
      (neg_lt_zero.2 hx), by rw [withSign, if_pos rfl, abs_neg, abs_of_pos hx]⟩
  | false => exact ⟨decide_eq_false (not_lt.2 hx.le), abs_of_pos hx⟩

/-- Two numbers, the sum of which is `x`. -/
structure Terms (x : ℚ) (s t : Bool) (k l : ℤ) (m n : ℕ) : Prop where
  place : -9 ≤ k ∧ k ≤ 30
  place' : -9 ≤ l ∧ l ≤ 30
  whole : m % 8 = 0
  whole' : n % 8 = 0
  normal : 8192 ≤ m ∧ m < 16384
  normal' : 8192 ≤ n ∧ n < 16384
  sum : withSign s (m * 2 ^ (k - 28)) + withSign t (n * 2 ^ (l - 28)) = x

/-- Two numbers with the same exponent, the sum of which is `x`.  The mantissa `n` of the smaller
one may stand for a number `y` that is not known exactly, but then it is small. -/
structure Aligned (x : ℚ) (s t : Bool) (k : ℤ) (m n : ℕ) (y : ℚ) : Prop where
  place : -9 ≤ k ∧ k ≤ 30
  whole : m % 8 = 0
  normal : 8192 ≤ m ∧ m < 16384
  le : n ≤ m
  near : Near 2 n y
  lost : y = n ∨ n ≤ 4096
  sum : withSign s (m * 2 ^ (k - 28)) + withSign t (y * 2 ^ (k - 28)) = x

theorem halved_le {m n : ℕ} (h : m ≤ 2 * n) : halved m ≤ n := by
  unfold halved
  split <;> omega

namespace Terms

variable {x : ℚ} {s t : Bool} {k l : ℤ} {m n : ℕ}

theorem swap (h : Terms x s t k l m n) : Terms x t s l k n m :=
  ⟨h.place', h.place, h.whole', h.whole, h.normal', h.normal, by rw [add_comm, h.sum]⟩

/-- The second number with the exponent of the first one. -/
theorem scaled (h : Terms x s t k l m n) {d : ℕ} (hd : k = l + d) :
    withSign s (m * 2 ^ (k - 28)) + withSign t (n / 2 ^ d * 2 ^ (k - 28)) = x := by
  rw [← h.sum, hd]
  congr 2
  rw [show l + (d : ℤ) - 28 = l - 28 + d by ring, zpow_add₀ (by norm_num), zpow_natCast]
  field_simp

theorem aligned (h : Terms x s t k l m n) {d : ℕ} (hd : k = l + d) (hle : d = 0 → n ≤ m) :
    Aligned x s t k m (jammed n d) (n / 2 ^ d) := by
  have hnormal := h.normal
  have hnormal' := h.normal'
  have hwhole := h.whole'
  refine ⟨h.place, h.whole, hnormal, ?_, (Near.exact 2 n).jam d, ?_, h.scaled hd⟩
  · cases d with
    | zero => exact hle rfl
    | succ d =>
      have := jammed_le (halved n) d
      have : halved n ≤ 8192 := halved_le (by omega)
      rw [jammed]
      omega
  · cases d with
    | zero => exact .inl (by simp [jammed])
    | succ d =>
      cases d with
      | zero =>
        refine .inl ?_
        have hhalf : halved n = n / 2 := by rw [halved, if_neg (by omega)]
        have : (n : ℚ) = 2 * (n / 2 : ℕ) := by exact_mod_cast (by omega : n = 2 * (n / 2))
        rw [jammed, jammed, hhalf, zero_add, pow_one, this]
        ring
      | succ d =>
        have := jammed_le (halved (halved n)) d
        have : halved (halved n) ≤ 4096 := halved_le (halved_le (by omega))
        rw [jammed, jammed]
        omega

/-- A number that is much smaller stands for no more than one place. -/
theorem aligned_far (h : Terms x s t k l m n) {d : ℕ} (hd : k = l + d) (hfar : 16 ≤ d) :
    Aligned x s t k m 1 (n / 2 ^ d) := by
  have hnormal := h.normal
  have hpos : (0 : ℚ) < n := by exact_mod_cast Nat.lt_of_lt_of_le (by decide) h.normal'.1
  have hless : (n : ℚ) < 2 ^ d := by
    have hpow : 2 ^ 16 ≤ 2 ^ d := Nat.pow_le_pow_right (by decide) hfar
    have := h.normal'.2
    exact_mod_cast (by omega : n < 2 ^ d)
  refine ⟨h.place, h.whole,
    hnormal, by omega, .inr ⟨0, by decide, by decide, ?_, ?_⟩, .inr (by decide), h.scaled hd⟩
  · push_cast
    rw [mul_zero]
    positivity
  · have := (div_lt_one (by positivity)).2 hless
    push_cast
    linarith

end Terms

namespace Aligned

variable {x y : ℚ} {s t : Bool} {k : ℤ} {m n : ℕ}

theorem lt (h : Aligned x s t k m n y) : 0 ≤ y ∧ (n < m → y < m) := by
  have hle := h.le
  have hwhole := h.whole
  rcases h.near with rfl | ⟨j, hj, hj', hy, hy'⟩
  · exact ⟨by positivity, fun hlt => by exact_mod_cast hlt⟩
  · refine ⟨?_, fun hlt => ?_⟩
    · have : (0 : ℚ) ≤ 2 * j := by positivity
      push_cast at hy
      linarith
    · have : (2 * j + 2 : ℕ) ≤ m := by omega
      have : (2 * j + 2 : ℚ) ≤ m := by exact_mod_cast this
      push_cast at hy'
      linarith

/-- Numbers with the same sign. -/
theorem sum_same (h : Aligned x s s k m n y) :
    withSign s ((m + y) * 2 ^ (k - 28)) = x ∧ 0 < (m + y) * 2 ^ (k - 28) := by
  have hpos : (0 : ℚ) < m := by exact_mod_cast Nat.lt_of_lt_of_le (by decide) h.normal.1
  have hy := h.lt.1
  refine ⟨?_, by positivity⟩
  rw [← h.sum]
  cases s <;> simp [withSign] <;> ring

/-- Numbers with different signs. -/
theorem sum_differ (h : Aligned x s t k m n y) (hne : s ≠ t) :
    withSign s ((m - y) * 2 ^ (k - 28)) = x := by
  rw [← h.sum]
  cases s <;> cases t <;> simp [withSign] at hne ⊢ <;> ring

/-- Numbers that are the same but for their signs. -/
theorem sum_cancel (h : Aligned x s t k m n y) (hne : s ≠ t) (heq : m = n) : x = 0 := by
  have hnormal := h.normal
  have hy : y = n := h.lost.resolve_right (by omega)
  rw [← h.sum_differ hne, hy, heq, sub_self, zero_mul]
  cases s <;> simp [withSign]

end Aligned

/-- A mantissa that may be doubled until its leading one is in its place: what it stands for is
known exactly, or the leading one is at most one place away. -/
def Liftable (m : ℕ) (t : ℚ) : Prop := t = m ∨ (Near 2 m t ∧ 4096 ≤ m) ∨ (Near 4 m t ∧ 8192 ≤ m)

namespace Liftable

variable {m : ℕ} {t : ℚ}

theorem double (h : Liftable m t) (hm : m < 8192) : Liftable (2 * m) (2 * t) := by
  rcases h with rfl | ⟨hnear, hlow⟩ | ⟨-, hhigh⟩
  · left
    push_cast
    ring
  · exact .inr (.inr ⟨hnear.double, by omega⟩)
  · omega

theorem near (h : Liftable m t) : Near 4 m t := by
  rcases h with rfl | ⟨hnear, -⟩ | ⟨hnear, -⟩
  · exact .exact 4 m
  · exact hnear.four
  · exact hnear

end Liftable

/-! ## Slots -/

/-- The exact sum of two finite numbers. -/
def total (u : View) : ℚ := valueOf (u.word floatA) + valueOf (u.word floatB)

namespace Assertion

/-- The result is the sum of two finite numbers that are not zero. -/
abbrev ordinary : Assertion :=
  .given fun u => exactly .add u = .finite (decide (total u < 0)) |total u|

/-- The numbers are unpacked; `p` tells more of their exponents and mantissas. -/
def terms (p : View → ℤ → ℤ → ℕ → ℕ → Prop) : Assertion := fun _ u v => ∃ s t k l,
  v.zp work = signByte s ∧ v.zp (work + 2) = signByte t ∧ v.zp (work + 1) = .ofInt k ∧
  v.zp (work + 3) = .ofInt l ∧
    Terms (total u) s t k l (v.word floatA) (v.word floatB) ∧
    p v k l (v.word floatA) (v.word floatB)

/-- The numbers have the same exponent. -/
def aligned (p : Bool → Bool → Prop) : Assertion := fun _ u v => ∃ s t k y,
  v.zp work = signByte s ∧ v.zp (work + 2) = signByte t ∧ v.zp (work + 1) = .ofInt k ∧
    Aligned (total u) s t k (v.word floatA) (v.word floatB) y ∧ p s t

/-- The sign of the sum is kept. -/
abbrev sumSigned : Assertion :=
  ordinary.also (.byte work fun u b => b = signByte (decide (total u < 0)))

/-- The difference of the mantissas, on the way to its place. -/
abbrev lifting : Assertion := .scaled floatR (work + 1) fun u m k =>
    ∃ t j, |total u| = t * 2 ^ (k - 28) ∧
  Liftable m t ∧ 2 ^ j ≤ m ∧ -9 ≤ k + (j : ℕ) ∧ k ≤ 30

/-- The second mantissa has been shifted by some places; X counts those that are left, with `i` of
them already done. -/
def aligning (i : ℕ) : Assertion := fun b u v => ∃ s t k l n j,
  v.zp work = signByte s ∧ v.zp (work + 2) = signByte t ∧ v.zp (work + 1) = .ofInt k ∧
    Terms (total u) s t k l (v.word floatA) n ∧ v.word floatB = jammed n (j + i) ∧
    k = l + (j + v.x.toNat : ℕ) ∧ 1 ≤ v.x.toNat ∧ v.x.toNat ≤ b

end Assertion

theorem terms_congr {p q : View → ℤ → ℤ → ℕ → ℕ → Prop} {n n' : ℕ} {u v w : View}
    (h : Assertion.terms p n u v) (hzp : w.zp = v.zp)
    (hp : ∀ k l, v.zp (work + 1) = .ofInt k → v.zp (work + 3) = .ofInt l →
      -9 ≤ k ∧ k ≤ 30 → -9 ≤ l ∧ l ≤ 30 →
      p v k l (v.word floatA) (v.word floatB) → q w k l (v.word floatA) (v.word floatB)) :
    Assertion.terms q n' u w := by
  obtain ⟨s, t, k, l, hs, ht, hk, hl, hterms, hrest⟩ := h
  have hword (a : UInt8) : w.word a = v.word a := by rw [View.word, View.word, hzp]
  refine ⟨s, t, k, l, ?_⟩
  rw [hzp, hword, hword]
  exact ⟨hs, ht, hk, hl, hterms, hp k l hk hl hterms.place hterms.place' hrest⟩

/-- The difference of two bytes, and what its flags tell. -/
theorem subtract_byte (v : View) (y z : UInt8) :
    ∃ w, execAll v [.instr .lda (.zeroPage y), .instr .sec .implied, .instr .sbc (.zeroPage z)] =
      some w ∧
      w.zp = v.zp ∧ w.a = v.zp y - v.zp z ∧ w.zero = (v.zp y - v.zp z == 0) ∧
      w.negative = isNegative (v.zp y - v.zp z) := by
  have hsum : UInt8.ofNat ((v.zp y).toNat + (~~~v.zp z).toNat + 1) = v.zp y - v.zp z := by
    have := (v.zp z).toNat_lt
    apply UInt8.toNat_inj.1
    rw [toNat_complement, UInt8.toNat_sub, UInt8.toNat_ofNat']
    omega
  refine ⟨_, rfl, rfl, hsum, ?_, ?_⟩
  · show (UInt8.ofNat ((v.zp y).toNat + (~~~v.zp z).toNat + 1) == 0) = _
    rw [hsum]
  · show isNegative (UInt8.ofNat ((v.zp y).toNat + (~~~v.zp z).toNat + 1)) = _
    rw [hsum]

/-- The numbers change places. -/
theorem exchange (v : View) :
    ∃ w, execAll v ((([(work, work + 2), (work + 1, work + 3), (floatA, floatB),
      (floatA + 1, floatB + 1)] :
        List (UInt8 × UInt8)).map fun (a, b) => [Line.instr .lda (.zeroPage a),
          .instr .ldy (.zeroPage b), .instr .sta (.zeroPage b),
            .instr .sty (.zeroPage a)]).flatten) = some w ∧
      w.word floatA = v.word floatB ∧ w.word floatB = v.word floatA ∧
      w.zp work = v.zp (work + 2) ∧ w.zp (work + 2) = v.zp work ∧
      w.zp (work + 1) = v.zp (work + 3) ∧ w.zp (work + 3) = v.zp (work + 1) := by
  refine ⟨_, rfl, ?_⟩
  simp [View.word, floatA, floatB, work]

namespace Flows

variable {t : Target} {size : Nat} {back : Back} {ahead : Ahead} {rest : Writer Unit}

/-- The numbers are put in order. -/
theorem order (h : Flows (conduct t) t .floatAdd (size - 145) [] ahead 0
      (Assertion.ordinary.also (.terms fun _ k l m n => l ≤ k ∧ (k = l → n ≤ m))) rest) :
    Flows (conduct t) t .floatAdd size [] ahead 0
      (Assertion.ordinary.also (.terms fun _ _ _ _ _ => True))
      (Writer.label >>= fun swapped => Writer.label >>= fun ordered =>
      zp .lda (work + 1) >>= fun _ => op .sec >>= fun _ => zp .sbc (work + 3) >>= fun _ =>
      Writer.branch .bmi swapped >>= fun _ => Writer.branch .bne ordered >>= fun _ =>
      compareWord floatA floatB >>= fun _ => Writer.branch .bcs ordered >>= fun _ =>
        Writer.bind swapped >>= fun _ =>
      swapBytes work (work + 2) >>= fun _ => swapBytes (work + 1) (work + 3) >>= fun _ =>
      swapBytes floatA floatB >>= fun _ => swapBytes (floatA + 1) (floatB + 1) >>= fun _ =>
      Writer.bind ordered >>= fun _ => rest) := by
  refine .label (Assertion.ordinary.also (.terms fun _ k l m n => k ≤ l ∧ (l = k → m ≤ n)))
    fun swapped => ?_
  refine .label (Assertion.ordinary.also (.terms fun _ k l m n => l ≤ k ∧ (k = l → n ≤ m)))
    fun ordered => ?_
  refine .turn (R := .terms fun v k l _ _ => v.negative = decide (k < l) ∧ v.zero = decide (k = l))
    rfl
    (fun n u v _ hv => ?_) ?_
  · obtain ⟨w, hexec, hzp, -, hzero, hnegative⟩ := subtract_byte v (work + 1) (work + 3)
    refine ⟨w, hexec, terms_congr hv hzp fun k l hk hl hk' hl' _ => ?_⟩
    rw [hk, hl, ← ofInt_sub] at hzero hnegative
    rw [hzero, hnegative, isNegative_ofInt (by omega) (by omega),
      ofInt_beq_zero (by omega) (by omega), decide_eq_decide, decide_eq_decide]
    omega
  refine .branch (Q :=
    Assertion.ordinary.also (.terms fun v k l _ _ => l ≤ k ∧ v.zero = decide (k = l)))
    (fun n u v hv htaken => ?_)
    (fun n u v hv hskipped => ?_) ?_
  · refine ⟨hv.1, terms_congr hv.2 rfl fun k l _ _ _ _ hp => ?_⟩
    have hless : k < l := by simpa [View.takes?, hp.1] using htaken
    omega
  · refine ⟨hv.1, terms_congr hv.2 rfl fun k l _ _ _ _ hp => ?_⟩
    have hle : l ≤ k := by simpa [View.takes?, hp.1] using hskipped
    exact ⟨hle, hp.2⟩
  refine .branch (Q := Assertion.ordinary.also (.terms fun _ k l _ _ => k = l))
    (fun n u v hv htaken => ?_)
    (fun n u v hv hskipped => ?_) ?_
  · refine ⟨hv.1, terms_congr hv.2 rfl fun k l _ _ _ _ hp => ?_⟩
    have hne : k ≠ l := by simpa [View.takes?, hp.2] using htaken
    exact ⟨hp.1, fun heq => absurd heq hne⟩
  · refine ⟨hv.1, terms_congr hv.2 rfl fun k l _ _ _ _ hp => ?_⟩
    simpa [View.takes?, hp.2] using hskipped
  refine .turn (R := .terms fun v k l m n => k = l ∧ v.carry = decide (n ≤ m))
    rfl (fun n u v _ hv => ?_) ?_
  · obtain ⟨w, hexec, hcarry, -, hzp⟩ := compare_word v floatA floatB
    exact ⟨w, hexec, terms_congr hv hzp fun k l _ _ _ _ hp => ⟨hp, hcarry⟩⟩
  refine .branch (Q := Assertion.ordinary.also (.terms fun _ k l m n => k ≤ l ∧ (l = k → m ≤ n)))
    (fun n u v hv htaken => ?_)
    (fun n u v hv hskipped => ?_) (.bind ?_)
  · refine ⟨hv.1, terms_congr hv.2 rfl fun k l _ _ _ _ hp => ?_⟩
    have hle : v.word floatB ≤ v.word floatA := by simpa [View.takes?, hp.2] using htaken
    exact ⟨hp.1.ge, fun _ => hle⟩
  · refine ⟨hv.1, terms_congr hv.2 rfl fun k l _ _ _ _ hp => ?_⟩
    have hless : v.word floatA < v.word floatB := by simpa [View.takes?, hp.2] using hskipped
    exact ⟨hp.1.le, fun _ => hless.le⟩
  refine .turn (R := .terms fun _ k l m n => l ≤ k ∧ (k = l → n ≤ m)) rfl (fun n u v _ hv => ?_)
    (.bind (.forget (.fit h ?_) (List.nil_subset _)))
  · obtain ⟨s, t, k, l, hs, ht, hk, hl, hterms, hp⟩ := hv
    obtain ⟨w, hexec, hA, hB, h0, h2, h1, h3⟩ := exchange v
    refine ⟨w, hexec, t, s, l, k, h0.trans ht, h2.trans hs, h1.trans hl, h3.trans hk, ?_⟩
    rw [hA, hB]
    exact ⟨hterms.swap, hp⟩
  · simp only [Nat.sub_sub]
    exact Nat.sub_le_sub_left (by decide) _

/-- The second mantissa is shifted down to the exponent of the first one; X counts the places. -/
theorem align (h : Flows (conduct t) t .floatAdd (size - 115) [] ahead 0
    (Assertion.ordinary.also (.aligned fun _ _ => True)) rest) :
    Flows (conduct t) t .floatAdd size back ahead 0
      (Assertion.ordinary.also (.terms fun _ k l m n => l ≤ k ∧ (k = l → n ≤ m)))
      (Writer.label >>= fun aligned => Writer.label >>= fun far =>
      zp .lda (work + 1) >>= fun _ => op .sec >>= fun _ => zp .sbc (work + 3) >>= fun _ =>
      Writer.branch .beq aligned >>= fun _ => imm .cmp 16 >>= fun _ =>
        Writer.branch .bcs far >>= fun _ =>
      op .tax >>= fun _ => Writer.here >>= fun shiftB => Writer.shiftRightSticky floatB >>= fun _ =>
      op .dex >>= fun _ => Writer.branch .bne shiftB >>= fun _ => Writer.jump aligned >>= fun _ =>
      Writer.bind far >>= fun _ => setWord floatB 1 >>= fun _ => Writer.bind aligned >>=
        fun _ => rest) := by
  refine .label (Assertion.ordinary.also (.aligned fun _ _ => True)) fun aligned => ?_
  refine .label (Assertion.ordinary.also (.terms fun _ k l _ _ => l + 16 ≤ k)) fun far => ?_
  refine .turn (R := .terms fun v k l m n => l ≤ k ∧ v.a = .ofInt (k - l) ∧
    v.zero = decide (k = l) ∧ (k = l → n ≤ m)) rfl
    (fun n u v _ hv => ?_) ?_
  · obtain ⟨w, hexec, hzp, ha, hzero, -⟩ := subtract_byte v (work + 1) (work + 3)
    refine ⟨w, hexec, terms_congr hv hzp fun k l hk hl hk' hl' hp => ?_⟩
    rw [hk, hl, ← ofInt_sub] at hzero ha
    rw [ofInt_beq_zero (by omega) (by omega)] at hzero
    refine ⟨hp.1, ha, ?_, hp.2⟩
    rw [hzero, decide_eq_decide]
    omega
  refine .branch (Q :=
    Assertion.ordinary.also (.terms fun v k l _ _ => l < k ∧ v.a = .ofInt (k - l)))
    (fun n u v hv htaken => ?_) (fun n u v hv hskipped => ?_) ?_
  · obtain ⟨s, t, k, l, hs, ht, hk, -, hterms, -, -, hzero, hle⟩ := hv.2
    have heq : k = l := by simpa [View.takes?, hzero] using htaken
    exact ⟨hv.1, s, t, k, _, hs, ht, hk, hterms.aligned (d := 0) (by simpa using heq) fun _ =>
      hle heq, trivial⟩
  · refine ⟨hv.1, terms_congr hv.2 rfl fun k l _ _ _ _ hp => ?_⟩
    have hne : k ≠ l := by simpa [View.takes?, hp.2.2.1] using hskipped
    exact ⟨by omega, hp.2.1⟩
  refine .turn (R := .terms fun v k l _ _ => l < k ∧ v.a = .ofInt (k - l) ∧
    v.carry = decide (16 ≤ k - l)) rfl
    (fun n u v _ hv => ⟨_, rfl, terms_congr hv rfl fun k l _ _ hk hl hp => ⟨hp.1, hp.2, ?_⟩⟩) ?_
  · show decide (16 ≤ v.a.toNat) = _
    rw [hp.2, toNat_ofInt, decide_eq_decide]
    omega
  refine .branch (Q :=
    Assertion.ordinary.also (.terms fun v k l _ _ => l < k ∧ k - l < 16 ∧ v.a = .ofInt (k - l)))
    (fun n u v hv htaken => ?_)
    (fun n u v hv hskipped => ?_) ?_
  · refine ⟨hv.1, terms_congr hv.2 rfl fun k l _ _ _ _ hp => ?_⟩
    have hfar : 16 ≤ k - l := by simpa [View.takes?, hp.2.2] using htaken
    omega
  · refine ⟨hv.1, terms_congr hv.2 rfl fun k l _ _ _ _ hp => ?_⟩
    have hnear : k - l < 16 := by simpa [View.takes?, hp.2.2] using hskipped
    exact ⟨hp.1, hnear, hp.2.1⟩
  refine .turn (R := fun _ u v => ∃ b, Assertion.aligning 0 b u v) rfl (fun n u v _ hv => ?_) ?_
  · obtain ⟨s, t, k, l, hs, ht, hk, -, hterms, hlt, hnear, ha⟩ := hv
    have hx : v.a.toNat = (k - l).toNat := by
      rw [ha, toNat_ofInt]
      omega
    refine ⟨_, rfl, v.a.toNat, s, t, k, l, _, 0, hs, ht, hk, hterms, rfl, ?_, ?_, Nat.le_refl _⟩
    · show k = l + (0 + v.a.toNat : ℕ)
      omega
    · show 1 ≤ v.a.toNat
      omega
  refine .renew (Q := Assertion.ordinary.also (.aligning 0)) (.here fun shiftB => ?_)
    fun n u v h => h.2.imp fun b hv => ⟨h.1, hv⟩
  refine .halve (R := .aligning 1) rfl rfl (fun b u v w _ hv hframe hx _ hword => ?_) ?_
  · obtain ⟨s, t, k, l, n, j, hs, ht, hk, hterms, hjammed, hplaces, hcount, hb⟩ := hv
    refine ⟨s, t, k, l, n, j, (hframe.zp _ (by decide)).trans hs,
      (hframe.zp _ (by decide)).trans ht, (hframe.zp _ (by decide)).trans hk, ?_, ?_, ?_⟩
    · rwa [hframe.word (by decide) (by decide)]
    · rw [hword, hjammed, jammed_succ, Nat.add_zero]
    · rw [hx]
      exact ⟨hplaces, hcount, hb⟩
  refine .piece (R := fun b u v => ∃ s t k l n j, v.zp work = signByte s ∧
    v.zp (work + 2) = signByte t ∧
    v.zp (work + 1) = .ofInt k ∧ Terms (total u) s t k l (v.word floatA) n ∧
    v.word floatB = jammed n (j + 1) ∧
    k = l + (j + 1 + v.x.toNat : ℕ) ∧ v.x.toNat < b ∧
    v.zero = decide (v.x.toNat = 0)) rfl (fun b u v _ hv => ?_) ?_
  · obtain ⟨s, t, k, l, n, j, hs, ht, hk, hterms, hjammed, hplaces, hcount, hb⟩ := hv
    have hnext : (v.x - 1).toNat = v.x.toNat - 1 := toNat_sub_one (by omega)
    refine ⟨_, rfl, s, t, k, l, n, j, hs, ht, hk, hterms, hjammed, ?_, ?_, ?_⟩
    · show k = l + (j + 1 + (v.x - 1).toNat : ℕ)
      omega
    · show (v.x - 1).toNat < b
      omega
    · show (v.x - 1 == 0) = decide ((v.x - 1).toNat = 0)
      rw [Bool.eq_iff_iff, beq_iff_eq, eq_zero_iff, decide_eq_true_eq]
  refine .branchBack
    (Q := Assertion.ordinary.also (.aligned fun _ _ => True)) (fun b u v hv htaken => ?_)
    (fun b u v hv hskipped => ?_) (.jump (.bind ?_))
  · obtain ⟨hordinary, s, t, k, l, n, j, hs, ht, hk, hterms, hjammed, hplaces, hb, hzero⟩ := hv
    have hleft : v.x.toNat ≠ 0 := by simpa [View.takes?, hzero] using htaken
    exact ⟨_, hb, hordinary, s, t, k, l, n, j + 1, hs, ht, hk, hterms, hjammed, hplaces,
      Nat.pos_of_ne_zero hleft, Nat.le_refl _⟩
  · obtain ⟨hordinary, s, t, k, l, n, j, hs, ht, hk, hterms, hjammed, hplaces, hb, hzero⟩ := hv
    have hdone : v.x.toNat = 0 := by simpa [View.takes?, hzero] using hskipped
    rw [hdone, Nat.add_zero] at hplaces
    have haligned := hterms.aligned hplaces fun hj => absurd hj (Nat.succ_ne_zero j)
    exact ⟨hordinary, s, t, k, _, hs, ht, hk, hjammed ▸ haligned, trivial⟩
  refine .turn (R := .aligned fun _ _ => True) rfl (fun n u v _ hv => ?_)
    (.bind (.forget (.fit h ?_) (List.nil_subset _)))
  · obtain ⟨s, t, k, l, hs, ht, hk, -, hterms, hfar⟩ := hv
    obtain ⟨d, rfl⟩ := Int.le.dest (by omega : l ≤ k)
    exact ⟨_, rfl, s, t, _, _, hs, ht, hk, hterms.aligned_far rfl (by omega), trivial⟩
  · simp only [Nat.sub_sub]
    exact Nat.sub_le_sub_left (by decide) _

/-- Numbers with the same sign are added. -/
theorem accumulate {pack : LabelId} [ahead.Promises pack (.entry (.packable .add))]
    (h : Flows (conduct t) t .floatAdd (size - 90) back ahead 0 .never rest) :
    Flows (conduct t) t .floatAdd size back ahead 0
      (Assertion.ordinary.also (.aligned fun s t => s = t))
      (addWord floatR floatA floatB >>= fun _ => zp .lda (floatR + 1) >>= fun _ =>
        imm .and overflowBit >>= fun _ =>
      Writer.branch .beq pack >>= fun _ => Writer.shiftRightSticky floatR >>= fun _ =>
        zp .inc (work + 1) >>= fun _ =>
      Writer.jump pack >>= fun _ => rest) := by
  refine .run (Q := .raised .add) rfl (fun n u v hv => ?_)
    (.exec rfl (fun n u v hv => raised_flag hv) (.bringBack rfl (.jump (.fit h ?_))))
  · obtain ⟨hordinary, s, t, k, y, hs, ht, hk, haligned, rfl⟩ := hv
    obtain ⟨w, hexec, hword, -⟩ :=
      plus_word v (x := floatR) (y := floatA) (z := floatB) (by decide) (by decide)
    have hframe := execAll_frame hexec rfl
    have hnormal := haligned.normal
    have hle := haligned.le
    have hplace := haligned.place
    have hwhole := haligned.whole
    obtain ⟨hsum, hpos⟩ := haligned.sum_same
    obtain ⟨hsign, habs⟩ := withSign_pos s hpos
    rw [hsum] at hsign habs
    rw [Nat.mod_eq_of_lt (by omega)] at hword
    refine ⟨w, hexec, s, k, v.word floatA + y, ?_, (hframe.zp _ (by decide)).trans hs,
      (hframe.zp _ (by decide)).trans hk, by omega, by omega, ?_⟩
    · rw [show exactly .add u = _ from hordinary, hsign, habs]
    · rw [hword]
      exact ⟨haligned.near.add (by omega), by omega, by omega⟩
  · simp only [Nat.sub_sub]
    exact Nat.sub_le_sub_left (by decide) _

/-- Numbers with different signs are subtracted.  A difference that is not zero is normalised. -/
theorem subtract {pack : LabelId} [ahead.Promises pack (.entry (.packable .add))]
    (h : Flows (conduct t) t .floatAdd (size - 95) [] ahead 0 .never rest) :
    Flows (conduct t) t .floatAdd size back ahead 0 (Assertion.ordinary.also (.aligned (· ≠ ·)))
      (Writer.label >>= fun nonzero =>
      subWord floatR floatA floatB >>= fun _ => testWord floatR >>= fun _ =>
        Writer.branch .bne nonzero >>= fun _ =>
      op .tax >>= fun _ => op .rts >>= fun _ => Writer.bind nonzero >>= fun _ =>
        Writer.here >>= fun normalise =>
      zp .lda (floatR + 1) >>= fun _ => imm .and leadingBit >>= fun _ =>
        Writer.branch .bne pack >>= fun _ =>
      shiftLeftWord floatR >>= fun _ => zp .dec (work + 1) >>= fun _ => Writer.jump normalise >>=
        fun _ => rest) := by
  refine .label (Assertion.sumSigned.also
    (Assertion.lifting.also (.holds fun v => v.word floatR ≠ 0 ∧ v.word floatR < 16384)))
    fun nonzero => ?_
  refine .run (Q := Assertion.ordinary.also fun _ u v => ∃ s t k y m n, v.zp work = signByte s ∧
    v.zp (work + 1) = .ofInt k ∧
    s ≠ t ∧ Aligned (total u) s t k m n y ∧ v.word floatR = m - n) rfl (fun n u v hv => ?_) ?_
  · obtain ⟨hordinary, s, t, k, y, hs, -, hk, haligned, hne⟩ := hv
    obtain ⟨w, hexec, hword, -⟩ :=
      minus_word v (x := floatR) (y := floatA) (z := floatB) (by decide) (by decide) haligned.le
    have hframe := execAll_frame hexec rfl
    exact ⟨w, hexec, hordinary, s, t, k, y, _, _, (hframe.zp _ (by decide)).trans hs,
      (hframe.zp _ (by decide)).trans hk, hne, haligned, hword⟩
  refine .turn (R := fun _ u v =>
    (∃ s t k y m n, v.zp work = signByte s ∧ v.zp (work + 1) = .ofInt k ∧
    s ≠ t ∧ Aligned (total u) s t k m n y ∧ v.word floatR = m - n) ∧
    v.a = (v.zp floatR ||| v.zp (floatR + 1)) ∧
    v.zero = decide (v.word floatR = 0)) rfl (fun n u v _ hv => ⟨_, rfl, hv, rfl, ?_⟩) ?_
  · obtain ⟨w, hexec, hzero, -⟩ := test_word v floatR
    cases hexec
    exact hzero
  refine .branch (Q := fun _ u v => exactly .add u = .finite false 0 ∧ v.word floatR = 0 ∧
    v.a = (v.zp floatR ||| v.zp (floatR + 1))) (fun n u v hv htaken =>
      ?_) (fun n u v hv hskipped => ?_) ?_
  · obtain ⟨hordinary, ⟨s, t, k, y, m, n, hs, hk, hne, haligned, hword⟩, -, hzero⟩ := hv
    have hnonzero : v.word floatR ≠ 0 := by simpa [View.takes?, hzero] using htaken
    have hnormal := haligned.normal
    have hwhole := haligned.whole
    have hplace := haligned.place
    have hpos : 0 < (m - y) * 2 ^ (k - 28) := by
      have := haligned.lt.2 (by omega)
      have : 0 < m - y := sub_pos.2 this
      positivity
    obtain ⟨hsign, habs⟩ := withSign_pos s hpos
    rw [haligned.sum_differ hne] at hsign habs
    have hnear := haligned.near.sub (by omega) haligned.le
    refine ⟨⟨hordinary, by rw [Assertion.byte, hs, hsign]⟩,
      ⟨k, hk, m - y, 0, habs, ?_, by omega, by omega, by omega⟩, hnonzero, by omega⟩
    rw [hword]
    rcases haligned.lost with rfl | hsmall
    · left
      rw [Nat.cast_sub haligned.le]
    · exact .inr (.inl ⟨hnear, by omega⟩)
  · obtain ⟨hordinary, ⟨s, t, k, y, m, n, hs, hk, hne, haligned, hword⟩, ha, hzero⟩ := hv
    have hnone : v.word floatR = 0 := by simpa [View.takes?, hzero] using hskipped
    have hle := haligned.le
    have htotal : total u = 0 := haligned.sum_cancel hne (by omega)
    refine ⟨?_, hnone, ha⟩
    rw [show exactly .add u = _ from hordinary, htotal]
    simp
  refine .exec (Q := fun _ u v => calculates .add u v) rfl (fun n u v hv => ?_)
    (.rts (fun _ _ _ h => h) (.bind ?_))
  · obtain ⟨hexact, hnone, ha⟩ := hv
    have hlow : v.zp floatR = 0 := by
      have := low_eq v floatR
      exact eq_zero_iff.2 (by omega)
    have hhigh : v.zp (floatR + 1) = 0 := by
      have := high_eq v floatR
      exact eq_zero_iff.2 (by omega)
    rw [hlow, hhigh] at ha
    refine ⟨_, rfl, ⟨?_, ?_⟩, ?_⟩
    · exact ha.trans hlow.symm
    · exact ha.trans hhigh.symm
    · change (exactly .add u).Rounds (Half.ofWord (v.word floatR))
      rw [hexact, hnone]
      exact rounds_zero false
  refine .renew (Q := Assertion.sumSigned.also (Assertion.lifting.also (.low floatR)))
    (.here fun normalise => ?_)
    fun n u v h => ⟨16384, h.1, h.2.1, h.2.2, by omega⟩
  refine .lift (fun u m k hm hI => ?_) (fun n u v hp hscaled hnormal => ?_) (by decide) rfl rfl rfl
    (.forget (.fit h ?_) (List.nil_subset _))
  · obtain ⟨t, j, habs, hliftable, hj, hk, hk'⟩ := hI
    refine ⟨2 * t, j + 1, ?_, hliftable.double hm, ?_, ?_, by omega⟩
    · rw [habs, show k - 28 = k - 1 - 28 + 1 by ring, zpow_add_one₀ (by norm_num)]
      ring
    · rw [pow_succ]
      omega
    · push_cast
      omega
  · obtain ⟨hordinary, hsign⟩ := hp
    obtain ⟨k, hplace, t, j, habs, hliftable, hj, hk, hk'⟩ := hscaled
    have hsmall : j < 14 :=
      (Nat.pow_lt_pow_iff_right (a := 2) (by decide)).1 (Nat.lt_of_le_of_lt hj hnormal.2)
    refine ⟨decide (total u < 0), k, t, ?_, hsign,
      hplace, by omega, by omega, hliftable.near, hnormal⟩
    rw [show exactly .add u = _ from hordinary, habs]
  · simp only [Nat.sub_sub]
    exact Nat.sub_le_sub_left (by decide) _

end Flows

/-! ## The routines -/

namespace Assertion

/-- Some of the budget is left: there is one jump back that is not part of a loop. -/
def running : Assertion := fun n _ _ => 0 < n

instance : running.RestsOn {} := ⟨fun _ _ _ _ _ hn => hn⟩

end Assertion

theorem exactly_add_self {u : View} (hA : Special (u.word floatA))
    (h : u.word floatA = u.word floatB) :
    exactly .add u = datumOf (u.word floatA) := by
  rw [exactly, ← h]
  exact special_add_self (u.word_lt _) hA

theorem exactly_add_differ {u v : View} (hA : v.word floatA = u.word floatA)
    (hB : v.word floatB = u.word floatB)
    (hspecialA : Special (v.word floatA)) (hspecialB : Special (v.word floatB))
    (hne : v.word floatA ≠ v.word floatB) :
    exactly .add u = .nan := by
  rw [hA] at hspecialA hne
  rw [hB] at hspecialB hne
  exact special_add_special (u.word_lt _) (u.word_lt _) hspecialA hspecialB hne

/-- Two zeros give the zero that is negative in both. -/
theorem and_zeros (v : View) {a b : UInt8} (ha : IsZero (v.word a)) (hb : IsZero (v.word b)) :
    (v.zp a &&& v.zp b).toNat + 256 * (v.zp (a + 1) &&& v.zp (b + 1)).toNat =
      signBit (signOf (v.word a) && signOf (v.word b)) := by
  have hbyte {a : UInt8} (h : IsZero (v.word a)) : v.zp a = 0 ∧
      v.zp (a + 1) = signByte (signOf (v.word a)) := by
    have hlow := low_eq v a
    have hhigh := high_eq v a
    have hlt := v.word_lt a
    unfold IsZero at h
    refine ⟨eq_zero_iff.2 (by omega), UInt8.toNat_inj.1 ?_⟩
    rw [hhigh, signByte, signOf]
    by_cases hneg : 32768 ≤ v.word a
    · rw [decide_eq_true hneg, if_pos rfl]
      show v.word a / 256 = 128
      omega
    · rw [decide_eq_false hneg, if_neg (by decide)]
      show v.word a / 256 = 0
      omega
  rw [(hbyte ha).1, (hbyte ha).2, (hbyte hb).1, (hbyte hb).2]
  cases signOf (v.word a) <;> cases signOf (v.word b) <;> rfl

theorem floatAdd_conducted {t : Target} : Conducted t .floatAdd := by
  refine .last ?_
  simp only [body, floatAdd, bind_assoc]
  refine .label ((Assertion.running.also .operands).also (.word floatA fun _ w => Special w))
    fun specialA => ?_
  refine .label ((Assertion.operands.also (.word floatA fun _ w => IsZero w)).also
    (.word floatB fun _ w => ¬Special w))
    fun zeroA => ?_
  refine .label (.answer .add floatA) fun returnA => .label (.answer .add floatB) fun returnB => ?_
  refine .label (.undefined .add) fun nan => ?_
  refine .renew (Q := Assertion.running.also .operands) ?_ fun n u v huv =>
    ⟨1, Nat.one_pos, huv ▸ rfl, huv ▸ rfl⟩
  refine .branchSpecial (fun n u v hv hA => ⟨hv, hA⟩) ?_
  refine .branchSpecial (fun n u v hv hB => ?_) ?_
  · obtain ⟨⟨-, hwordA, hwordB⟩, hA⟩ := hv
    have hA' : v.word floatA = u.word floatA := hwordA
    have hB' : v.word floatB = u.word floatB := hwordB
    show (exactly .add u).Rounds (Half.ofWord (v.word floatB))
    rw [exactly, special_add (u.word_lt _) (u.word_lt _) (hA' ▸ hA) (hB' ▸ hB), hB']
    exact datumOf_rounds (u.word_lt _)
  refine .branchZero (fun n u v hv hA => ⟨⟨hv.1.1.2, hA⟩, hv.2⟩) ?_
  refine .branchZero (fun n u v hv hB => ?_) ?_
  · obtain ⟨⟨⟨⟨-, hwordA, hwordB⟩, hA⟩, -⟩, hzero⟩ := hv
    have hA' : v.word floatA = u.word floatA := hwordA
    have hB' : v.word floatB = u.word floatB := hwordB
    show (exactly .add u).Rounds (Half.ofWord (v.word floatA))
    rw [exactly, add_isZero (u.word_lt _) (u.word_lt _) (hA' ▸ hA) (hA' ▸ hzero) (hB' ▸ hB), hA']
    exact datumOf_rounds (u.word_lt _)
  refine .weaken (Q := (Assertion.ordinary.also
      (.word floatB fun u w => w = u.word floatB ∧ ¬Special w ∧ ¬IsZero w)).also
      (.word floatA fun u w => w = u.word floatA ∧ ¬Special w ∧ ¬IsZero w)) ?_ fun n u v hv => ?_
  swap
  · obtain ⟨⟨⟨⟨⟨-, hwordA, hwordB⟩, hA⟩, hB⟩, hzeroA⟩, hzeroB⟩ := hv
    have hA' : v.word floatA = u.word floatA := hwordA
    have hB' : v.word floatB = u.word floatB := hwordB
    exact ⟨⟨add_finite (u.word_lt _) (u.word_lt _) (hA' ▸ hA) (hB' ▸ hB) (hA' ▸ hzeroA), hB', hB,
      hzeroB⟩, hA', hA, hzeroA⟩
  refine .unpack (by decide) rfl rfl rfl rfl ?_
  refine .weaken (Q :=
      (((Assertion.ordinary.also (.byte work fun u b => b = signByte (signOf (u.word floatA)))).also
      (.unpacked floatA (work + 1) fun u => scale (u.word floatA % 32768))).also
      (.word floatB fun u w => w = u.word floatB ∧ ¬Special w ∧ ¬IsZero w))) ?_
    fun _ _ _ hv => ⟨⟨⟨hv.1.1.1, hv.1.2⟩, hv.2⟩, hv.1.1.2⟩
  refine .unpack (by decide) rfl rfl rfl rfl ?_
  refine .weaken (Q := Assertion.ordinary.also (.terms fun _ _ _ _ _ => True)) (.order (.align ?_))
    fun n u v hv => ?_
  swap
  · obtain ⟨⟨⟨⟨hordinary, hs⟩, ⟨k, hk, hA⟩, hnormalA⟩, ht⟩, ⟨l, hl, hB⟩, hnormalB⟩ := hv
    refine ⟨hordinary, _, _, k, l, hs, ht, hk, hl,
      ⟨⟨hA.small, hA.large⟩, ⟨hB.small, hB.large⟩, hA.whole, hB.whole,
      hnormalA, hnormalB, ?_⟩, trivial⟩
    rw [hA.value, hB.value]
    rfl
  refine .label (Assertion.ordinary.also (.aligned (· ≠ ·))) fun differ =>
    .label (.packable .add) fun pack => ?_
  refine .turn (R := fun n u v => ∃ s t k y, v.zp work = signByte s ∧ v.zp (work + 2) = signByte t ∧
    v.zp (work + 1) = .ofInt k ∧
    Aligned (total u) s t k (v.word floatA) (v.word floatB) y ∧
    v.negative = decide (s ≠ t)) rfl (fun n u v _ hv => ?_) ?_
  · obtain ⟨s, t, k, y, hs, ht, hk, haligned, -⟩ := hv
    refine ⟨_, rfl, s, t, k, y, hs, ht, hk, haligned, ?_⟩
    show isNegative (v.zp work ^^^ v.zp (work + 2)) = decide (s ≠ t)
    rw [hs, ht]
    cases s <;> cases t <;> decide
  refine .branch (Q := Assertion.ordinary.also (.aligned fun s t => s = t)) (fun n u v hv htaken =>
    ?_)
    (fun n u v hv hskipped => ?_) ?_
  · obtain ⟨hordinary, s, t, k, y, hs, ht, hk, haligned, hnegative⟩ := hv
    have hne : s ≠ t := by simpa [View.takes?, hnegative] using htaken
    exact ⟨hordinary, s, t, k, y, hs, ht, hk, haligned, hne⟩
  · obtain ⟨hordinary, s, t, k, y, hs, ht, hk, haligned, hnegative⟩ := hv
    have heq : s = t := by simpa [View.takes?, hnegative] using hskipped
    exact ⟨hordinary, s, t, k, y, hs, ht, hk, haligned, heq⟩
  refine .accumulate (.bind (.subtract (.bind ?_)))
  refine .tailCall (by decide) trivially (fun n u v w hp hw => calculates_of_packable hp hw)
    (.bind ?_)
  refine .label ((Assertion.running.also .operands).also fun _ _ v => Special (v.word floatA) ∧
    Special (v.word floatB))
    fun bothSpecial => ?_
  refine .branchSpecial (fun n u v hv hB => ⟨hv.1, hv.2, hB⟩) ?_
  refine .weaken (Q := .answer .add floatA) (.bind (.returnAnswer rfl (by decide) (.bind ?_)))
    fun n u v hv => ?_
  swap
  · obtain ⟨⟨⟨-, hwordA, hwordB⟩, hA⟩, hB⟩ := hv
    have hA' : v.word floatA = u.word floatA := hwordA
    have hB' : v.word floatB = u.word floatB := hwordB
    show (exactly .add u).Rounds (Half.ofWord (v.word floatA))
    rw [exactly, add_special (u.word_lt _) (u.word_lt _) (hA' ▸ hA) (hB' ▸ hB), hA']
    exact datumOf_rounds (u.word_lt _)
  refine .turn (R := fun _ _ v => (Special (v.word floatA) ∧ Special (v.word floatB)) ∧
    v.zero = decide (v.zp floatA = v.zp floatB)) rfl (fun n u v _ hv =>
      ⟨_, rfl, hv, sub_beq_zero _ _⟩) ?_
  refine .branch (Q := (Assertion.running.also .operands).also fun _ _ v =>
    (Special (v.word floatA) ∧
    Special (v.word floatB)) ∧ v.zp floatA = v.zp floatB) (fun n u v hv htaken =>
      ?_) (fun n u v hv hskipped => ?_) ?_
  · obtain ⟨⟨-, hwordA, hwordB⟩, ⟨hA, hB⟩, hzero⟩ := hv
    have hne : v.zp floatA ≠ v.zp floatB := by simpa [View.takes?, hzero] using htaken
    have hlow := low_eq v floatA
    have hlow' := low_eq v floatB
    refine exactly_add_differ hwordA hwordB hA hB fun heq => hne (UInt8.toNat_inj.1 ?_)
    rw [hlow, hlow', heq]
  · exact ⟨hv.1, hv.2.1, by simpa [View.takes?, hv.2.2] using hskipped⟩
  refine .turn (R := fun _ _ v =>
    ((Special (v.word floatA) ∧ Special (v.word floatB)) ∧ v.zp floatA = v.zp floatB) ∧
    v.zero = decide (v.zp (floatA + 1) = v.zp (floatB + 1))) rfl (fun n u v _ hv =>
      ⟨_, rfl, hv, sub_beq_zero _ _⟩) ?_
  refine .branchBack
    (Q := .undefined .add) (fun n u v hv htaken => ?_) (fun n u v hv hskipped => ?_) (.bind ?_)
  · obtain ⟨⟨hn, hwordA, hwordB⟩, ⟨⟨hA, hB⟩, hlow⟩, hzero⟩ := hv
    have hhigh : v.zp (floatA + 1) = v.zp (floatB + 1) := by simpa [View.takes?, hzero] using htaken
    have hA' : v.word floatA = u.word floatA := hwordA
    have hB' : v.word floatB = u.word floatB := hwordB
    have heq : v.word floatA = v.word floatB := View.word_congr hlow hhigh
    refine ⟨0, hn, ?_⟩
    show (exactly .add u).Rounds (Half.ofWord (v.word floatA))
    rw [exactly_add_self (hA' ▸ hA) (by rw [← hA', heq, hB']), hA']
    exact datumOf_rounds (u.word_lt _)
  · obtain ⟨⟨-, hwordA, hwordB⟩, ⟨⟨hA, hB⟩, -⟩, hzero⟩ := hv
    have hne : v.zp (floatA + 1) ≠ v.zp (floatB + 1) := by simpa [View.takes?, hzero] using hskipped
    have hhigh := high_eq v floatA
    have hhigh' := high_eq v floatB
    refine exactly_add_differ hwordA hwordB hA hB fun heq => hne (UInt8.toNat_inj.1 ?_)
    rw [hhigh, hhigh', heq]
  refine .returnNan rfl (.bind ?_)
  refine .label (Assertion.operands.also fun _ _ v => IsZero (v.word floatA) ∧
    IsZero (v.word floatB)) fun bothZero => ?_
  refine .branchZero (fun n u v hv hB => ⟨hv.1.1, hv.1.2, hB⟩) ?_
  refine .weaken (Q := .answer .add floatB) (.bind (.returnAnswer rfl (by decide) (.bind ?_)))
    fun n u v hv => ?_
  swap
  · obtain ⟨⟨⟨⟨hwordA, hwordB⟩, hzeroA⟩, hB⟩, hzeroB⟩ := hv
    have hA' : v.word floatA = u.word floatA := hwordA
    have hB' : v.word floatB = u.word floatB := hwordB
    show (exactly .add u).Rounds (Half.ofWord (v.word floatB))
    rw [exactly, isZero_add (u.word_lt _) (u.word_lt _) (hB' ▸ hB) (hA' ▸ hzeroA) (hB' ▸ hzeroB),
      hB']
    exact datumOf_rounds (u.word_lt _)
  refine .exec (Q := fun _ u v => calculates .add u v) rfl (fun n u v hv => ?_)
    (.rts (fun _ _ _ h => h) (.done (by decide) _))
  obtain ⟨⟨hwordA, hwordB⟩, hzeroA, hzeroB⟩ := hv
  have hA' : v.word floatA = u.word floatA := hwordA
  have hB' : v.word floatB = u.word floatB := hwordB
  refine ⟨_, rfl, ⟨rfl, rfl⟩, ?_⟩
  have hsigns := and_zeros v hzeroA hzeroB
  have hexact : exactly .add u = .finite (signOf (v.word floatA) && signOf (v.word floatB)) 0 := by
    rw [hA', hB']
    exact isZero_add_isZero (u.word_lt _) (u.word_lt _) (hA' ▸ hzeroA) (hB' ▸ hzeroB)
  change (exactly .add u).Rounds (Half.ofWord ((v.zp floatA &&& v.zp floatB).toNat +
    256 * (v.zp (floatA + 1) &&& v.zp (floatB + 1)).toNat))
  rw [hsigns, hexact]
  exact rounds_zero _

/-- The sign of a word is changed. -/
theorem flip_word (v : View) (a : UInt8) :
    (v.zp a).toNat + 256 * (v.zp (a + 1) ^^^ 0x80).toNat = (v.word a + 32768) % 65536 := by
  have := (v.zp a).toNat_lt
  have := (v.zp (a + 1)).toNat_lt
  rw [xor_0x80, View.word]
  omega

theorem floatSub_conducted {t : Target} : Conducted t .floatSub := by
  refine .last ?_
  simp only [body, floatSub, bind_assoc]
  refine .exec (Q := fun _ u v => v.word floatA = u.word floatA ∧
    v.word floatB = (u.word floatB + 32768) % 65536) rfl
    (fun n u v huv => ?_) ?_
  · subst huv
    exact ⟨_, rfl, rfl, flip_word u floatB⟩
  refine .tailCall (by decide) trivially (fun n u v w hv hw => ?_) (.done (by decide) _)
  obtain ⟨hA, hB⟩ := hv
  obtain ⟨hreturns, hrounds⟩ := hw
  refine ⟨hreturns, ?_⟩
  rwa [hA, hB, datumOf_flip (u.word_lt _)] at hrounds

end Breadbin.Routine
