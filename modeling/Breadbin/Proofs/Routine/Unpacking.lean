import Breadbin.Proofs.Routine.Arithmetic

/-!
# Unpacked numbers

What the floating-point routines do with a number before they calculate: they look for infinities,
for zeros and for what is no number, and take the number apart into its sign, an exponent and a
mantissa with its leading one in its place.
-/

namespace Breadbin.Routine

open Assembly Machine Numeric ZeroPage Writer LinkedCode

/-! ## Words and their bytes -/

theorem high_eq (v : View) (a : UInt8) : (v.zp (a + 1)).toNat = v.word a / 256 := by
  have := (v.zp a).toNat_lt
  rw [View.word]
  omega

theorem low_eq (v : View) (a : UInt8) : (v.zp a).toNat = v.word a % 256 := by
  have := (v.zp a).toNat_lt
  rw [View.word]
  omega

/-! ## Exponents -/

theorem ofInt_add_one (k : ℤ) : UInt8.ofInt k + 1 = .ofInt (k + 1) := (UInt8.ofInt_add k 1).symm

theorem ofInt_sub (j k : ℤ) : UInt8.ofInt (j - k) = .ofInt j - .ofInt k := by
  have h := UInt8.ofInt_add (j - k) k
  rw [Int.sub_add_cancel] at h
  rw [h]
  simp

theorem ofInt_sub_one (k : ℤ) : UInt8.ofInt k - 1 = .ofInt (k - 1) := (ofInt_sub k 1).symm

theorem toNat_ofInt (k : ℤ) : (UInt8.ofInt k).toNat = (k % 256).toNat := by
  have : (k % 256).toNat < 256 := by omega
  rw [UInt8.ofInt, UInt8.toNat_ofNat']
  exact Nat.mod_eq_of_lt this

/-! ## Special operands -/

namespace Flows

variable {t : Target} {id : RoutineId} {α : Type} {size : Nat} {back : Back} {ahead : Ahead}
  {P R : Assertion} {r : Footing}
  {a : UInt8} {l : LabelId} {rest : Writer α}

/-- A branch that infinities take, and what is no number. -/
theorem branchSpecial [P.RestsOn r] [ahead.Promises l (.entry R)]
    (hR : ∀ n u v, P n u v → Special (v.word a) → R n u v)
    (h : Flows (conduct t) t id (size - 20) back ahead 0
      (P.also (.word a fun _ w => ¬Special w)) rest) :
    Flows (conduct t) t id size back ahead 0 P (Routine.branchSpecial a l >>= fun _ => rest) := by
  refine .weaken (Q := P.also .free) ?_ fun _ _ _ hp => ⟨hp, trivial⟩
  refine .turn (R := fun _ _ v => v.zero = decide (Special (v.word a)))
    rfl (fun n u v _ _ => ⟨_, rfl, ?_⟩) ?_
  · show ((v.zp (a + 1) &&& 0x7C) - 0x7C == 0) = decide (Special (v.word a))
    rw [and_0x7C_sub, high_eq, decide_eq_decide]
    unfold Special
    omega
  · refine .branch (fun n u v hv htaken => ?_) (fun n u v hv hskipped => ?_) (.fit h ?_)
    · exact hR n u v hv.1 (by simpa [View.takes?, hv.2] using htaken)
    · have hordinary : ¬Special (v.word a) := by simpa [View.takes?, hv.2] using hskipped
      exact ⟨hv.1, hordinary⟩
    · simp only [Nat.sub_sub]
      exact Nat.le_refl _

/-- A branch that a zero of either sign takes. -/
theorem branchZero [P.RestsOn r] [ahead.Promises l (.entry R)]
    (hR : ∀ n u v, P n u v → IsZero (v.word a) → R n u v)
    (h : Flows (conduct t) t id (size - 20) back ahead 0
      (P.also (.word a fun _ w => ¬IsZero w)) rest) :
    Flows (conduct t) t id size back ahead 0 P (Routine.branchZero a l >>= fun _ => rest) := by
  refine .weaken (Q := P.also .free) ?_ fun _ _ _ hp => ⟨hp, trivial⟩
  refine .turn (R := fun _ _ v => v.zero = decide (IsZero (v.word a)))
    rfl (fun n u v _ _ => ⟨_, rfl, ?_⟩) ?_
  · show (v.zp (a + 1) &&& 0x7F ||| v.zp a == 0) = decide (IsZero (v.word a))
    have := low_eq v a
    have := high_eq v a
    rw [Bool.eq_iff_iff, beq_iff_eq, decide_eq_true_eq, or_eq_zero_iff, eq_zero_iff,
      eq_zero_iff, and_0x7F, IsZero]
    omega
  · refine .branch (fun n u v hv htaken => ?_) (fun n u v hv hskipped => ?_) (.fit h ?_)
    · exact hR n u v hv.1 (by simpa [View.takes?, hv.2] using htaken)
    · have hne : ¬IsZero (v.word a) := by simpa [View.takes?, hv.2] using hskipped
      exact ⟨hv.1, hne⟩
    · simp only [Nat.sub_sub]
      exact Nat.le_refl _

/-- A branch that is taken for what is no number. -/
theorem branchNan [P.RestsOn r] [ahead.Promises l (.entry R)]
    (hR : ∀ n u v, P n u v → IsNan (v.word a) → R n u v)
    (h : Flows (conduct t) t id (size - 40) back ahead 0
      (P.also (.word a fun _ w => ¬IsNan w)) rest) :
    Flows (conduct t) t id size back ahead 0 P (Routine.branchNan a l >>= fun _ => rest) := by
  simp only [Routine.branchNan, bind_assoc]
  refine .label (P.also (.word a fun _ w => ¬IsNan w)) fun skip => ?_
  refine .weaken (Q := P.also .free) ?_ fun _ _ _ hp => ⟨hp, trivial⟩
  refine .turn (R := fun _ _ v => v.zero = decide (Special (v.word a)))
    rfl (fun n u v _ _ => ⟨_, rfl, ?_⟩) ?_
  · show ((v.zp (a + 1) &&& 0x7C) - 0x7C == 0) = decide (Special (v.word a))
    rw [and_0x7C_sub, high_eq, decide_eq_decide]
    unfold Special
    omega
  refine .branch (Q := P.also (.word a fun _ w => Special w)) (fun n u v hv htaken =>
    ?_) (fun n u v hv hskipped => ?_) ?_
  · have hordinary : ¬Special (v.word a) := by simpa [View.takes?, hv.2] using htaken
    exact ⟨hv.1, fun hnan => hordinary hnan.1⟩
  · have hspecial : Special (v.word a) := by simpa [View.takes?, hv.2] using hskipped
    exact ⟨hv.1, hspecial⟩
  refine .turn (R := fun _ _ v => Special (v.word a) ∧ v.zero = decide (v.word a % 1024 = 0)) rfl
    (fun n u v _ hv => ⟨_, rfl, hv, ?_⟩) ?_
  · show (v.zp (a + 1) &&& 0x03 ||| v.zp a == 0) = decide (v.word a % 1024 = 0)
    have := low_eq v a
    have := high_eq v a
    rw [Bool.eq_iff_iff, beq_iff_eq, decide_eq_true_eq, or_eq_zero_iff, eq_zero_iff,
      eq_zero_iff, and_0x03]
    omega
  refine .branch (Q := P.also (.word a fun _ w => ¬IsNan w)) (fun n u v hv htaken => ?_)
    (fun n u v hv hskipped => ?_) (.bind (.forget (.fit h ?_) ?_))
  · exact hR n u v hv.1 ⟨hv.2.1, by simpa [View.takes?, hv.2.2] using htaken⟩
  · have hzero : v.word a % 1024 = 0 := by simpa [View.takes?, hv.2.2] using hskipped
    exact ⟨hv.1, fun hnan => hnan.2 hzero⟩
  · simp only [Nat.sub_sub]
    exact Nat.sub_le_sub_left (by decide) _
  · exact List.subset_cons_self _ _

end Flows

/-! ## The leading one -/

namespace Assertion

variable (a e : UInt8) (I : View → ℕ → ℤ → Prop)

/-- A mantissa in one slot and an exponent in another. -/
def scaled : Assertion := fun _ u v => ∃ k, v.zp e = .ofInt k ∧ I u (v.word a) k

/-- The leading one of a mantissa is in its place. -/
def normal : Assertion := fun _ _ v => 8192 ≤ v.word a ∧ v.word a < 16384

/-- The leading one of a mantissa is in its place or below; each shift that is left takes at least
one from the budget. -/
def low : Assertion := fun n _ v => (v.word a ≠ 0 ∧ v.word a < 16384) ∧ 16384 - v.word a ≤ n

instance : (scaled a e I).RestsOn { slots := [a, a + 1, e] } := ⟨by
  rintro n u v w hagrees ⟨k, hk, hI⟩
  have hword : w.word a = v.word a :=
    View.word_congr (hagrees.zp a (by simp)) (hagrees.zp (a + 1) (by simp))
  exact ⟨k, (hagrees.zp e (by simp)).trans hk, hword ▸ hI⟩⟩

instance : (normal a).RestsOn { slots := [a, a + 1] } := ⟨by
  intro n u v w hagrees h
  have hword : w.word a = v.word a :=
    View.word_congr (hagrees.zp a (by simp)) (hagrees.zp (a + 1) (by simp))
  rwa [normal, hword]⟩

instance : (scaled a e I).Timeless := ⟨fun _ _ _ _ h => h⟩

instance : (normal a).Timeless := ⟨fun _ _ _ _ h => h⟩

end Assertion

namespace Flows

variable {t : Target} {id : RoutineId} {α : Type} {size : Nat} {back : Back} {ahead : Ahead}
  {P R : Assertion} {r : Footing}
  {a e sign : UInt8} {I : View → ℕ → ℤ → Prop} {l loop exit : LabelId} {rest : Writer α}

/-- The loop that brings the leading one of a mantissa in its place.  Every round doubles the
mantissa and takes one from the exponent. -/
theorem lift [P.RestsOn r] [hP : P.Timeless]
    [back.Knows loop (P.also ((Assertion.scaled a e I).also (.low a)))]
    [ahead.Promises exit (.entry R)] (hI : ∀ u m k, m < 8192 → I u m k → I u (2 * m) (k - 1))
    (hR : ∀ n u v, P n u v → Assertion.scaled a e I n u v → Assertion.normal a n u v → R n u v)
    (hslots : e ≠ a ∧ e ≠ a + 1) (ha : (conduct t id).opens r a = true)
    (ha' : (conduct t id).opens r (a + 1) = true)
    (he : (conduct t id).opens r e = true)
    (h : Flows (conduct t) t id (size - 35) back ahead 0 .never rest) :
    Flows (conduct t) t id size back ahead 0 (P.also ((Assertion.scaled a e I).also (.low a)))
      (zp .lda (a + 1) >>= fun _ => imm .and leadingBit >>= fun _ =>
        Writer.branch .bne exit >>= fun _ =>
      shiftLeftWord a >>= fun _ => zp .dec e >>= fun _ => Writer.jump loop >>= fun _ => rest) := by
  refine .turn (R := fun n u v => ((Assertion.scaled a e I).also (.low a)) n u v ∧
    v.zero = decide (v.word a < 8192))
    rfl (fun n u v _ hv => ⟨_, rfl, hv, ?_⟩) ?_
  · show (v.zp (a + 1) &&& 0x20 == 0) = decide (v.word a < 8192)
    have := hv.2.1.2
    rw [and_0x20, high_eq, decide_eq_decide]
    omega
  refine .branch (Q := P.also fun n u v =>
    ((Assertion.scaled a e I).also (.low a)) n u v ∧ v.word a < 8192)
    (fun n u v hv htaken => ?_) (fun n u v hv hskipped => ?_) ?_
  · obtain ⟨hp, ⟨hscaled, hlow⟩, hzero⟩ := hv
    have hhigh : ¬v.word a < 8192 := by simpa [View.takes?, hzero] using htaken
    exact hR n u v hp hscaled ⟨Nat.le_of_not_lt hhigh, hlow.1.2⟩
  · have hless : v.word a < 8192 := by simpa [View.takes?, hv.2.2] using hskipped
    exact ⟨hv.1, hv.2.1, hless⟩
  refine .piece (R := fun n u v => (∃ k, v.zp e = .ofInt k ∧ I u (v.word a) (k - 1)) ∧
    (v.word a ≠ 0 ∧ v.word a < 16384) ∧ 16384 - v.word a < n) ?_ (fun n u v _ hv => ?_) ?_
  · show ((conduct t id).opens r a && ((conduct t id).opens r (a + 1) && true)) = true
    rw [ha, ha']
    rfl
  · obtain ⟨⟨⟨k, hk, hi⟩, ⟨hne, -⟩, hn⟩, hless⟩ := hv
    obtain ⟨w, hexec, hword, -⟩ := shiftLeft_word v a
    have hframe : v.Frame 0 [a, a + 1] w :=
      (execAll_frame hexec rfl).mono (Nat.le_refl 0) (by simp [slots])
    rw [Nat.mod_eq_of_lt (by omega)] at hword
    refine ⟨w, hexec, ⟨k, (hframe.zp e (by simpa using hslots)).trans hk, ?_⟩, ?_⟩
    · rw [hword]
      exact hI u _ k hless hi
    · omega
  refine .turn (R := fun n u v => ∃ m < n, ((Assertion.scaled a e I).also (.low a)) m u v)
    ?_ (fun n u v _ hv => ?_) ?_
  · show ((conduct t id).opens r e && true) = true
    rw [he]
    rfl
  · obtain ⟨⟨k, hk, hi⟩, hlow, hn⟩ := hv
    have hword : (v.store e (v.zp e - 1)).word a = v.word a :=
      View.word_congr (Function.update_of_ne (Ne.symm hslots.1) _ _)
        (Function.update_of_ne (Ne.symm hslots.2) _ _)
    refine ⟨_, rfl, _, hn, ⟨k - 1, ?_, ?_⟩, ?_⟩
    · show Function.update v.zp e (v.zp e - 1) e = _
      rw [Function.update_self, hk, ofInt_sub_one]
    · show I u ((v.store e (v.zp e - 1)).word a) (k - 1)
      rwa [hword]
    · show ((v.store e (v.zp e - 1)).word a ≠ 0 ∧ (v.store e (v.zp e - 1)).word a < 16384) ∧
        16384 - (v.store e (v.zp e - 1)).word a ≤ 16384 - v.word a
      rw [hword]
      exact ⟨hlow, Nat.le_refl _⟩
  refine .jumpBack (fun n u v hv => ?_) (.fit h ?_)
  · obtain ⟨hp, m, hm, hlow⟩ := hv
    exact ⟨m, hm, hP.anytime n m u v hp, hlow⟩
  · simp only [Nat.sub_sub]
    exact Nat.le_refl _

end Flows

/-! ## Numbers that are taken apart -/

/-- A mantissa with its leading one in its place, and an exponent, stand for a magnitude. -/
structure IsUnpacked (x : ℚ) (m : ℕ) (k : ℤ) : Prop where
  small : -9 ≤ k
  large : k ≤ 30
  whole : m % 8 = 0
  value : m * 2 ^ (k - 28) = x

/-- A number is kept unpacked. -/
abbrev Assertion.unpacked (a e : UInt8) (x : View → ℚ) : Assertion :=
  (Assertion.scaled a e fun u m k => IsUnpacked (x u) m k).also (.normal a)

theorem sign_byte (v : View) (a : UInt8) :
    v.zp (a + 1) &&& 0x80 = signByte (signOf (v.word a)) := by
  have := high_eq v a
  rw [and_0x80_eq, signByte, signOf]
  by_cases h : 32768 ≤ v.word a
  · rw [if_pos (by omega), decide_eq_true h, if_pos rfl]
  · rw [if_neg (by omega), decide_eq_false h, if_neg (by decide)]

/-- The magnitude of a finite word, by its fields. -/
theorem scale_fields (n : ℕ) :
    scale (n % 32768) = if n / 1024 % 32 = 0 then ((n % 1024 : ℕ) : ℚ) * 2 ^ ((1 : ℤ) - 25)
      else ((1024 + n % 1024 : ℕ) : ℚ) * 2 ^ (((n / 1024 % 32 : ℕ) : ℤ) - 25) := by
  have hfield : n % 32768 / 1024 = n / 1024 % 32 := by omega
  have hfraction : n % 32768 % 1024 = n % 1024 := by omega
  rw [scale_eq (Nat.mod_lt _ (by decide)), gap, hfield, hfraction]
  split
  next hzero =>
    have : n % 32768 = n % 1024 := by omega
    rw [hzero, this]
    norm_num
  next hne => rw [max_eq_left (by omega)]

/-- The least magnitude that is not zero. -/
theorem scale_ge {n : ℕ} (h : ¬IsZero n) : (2 : ℚ) ^ (-24 : ℤ) ≤ scale (n % 32768) := by
  have hone : scale 1 = 2 ^ (-24 : ℤ) := by
    rw [scale_eq (by decide)]
    norm_num [gap]
  rw [← hone]
  exact scale_le (Nat.pos_of_ne_zero h) (Nat.mod_lt _ (by decide))

/-- A number is split into its sign, its exponent and the rest. -/
theorem split_number (v : View) {a e sign : UInt8}
    (hslots : e ≠ a ∧ e ≠ a + 1 ∧ sign ≠ a ∧ sign ≠ a + 1 ∧ sign ≠ e) :
    ∃ w, execAll v [.instr .lda (.zeroPage (a + 1)), .instr .and (.immediate 0x80),
      .instr .sta (.zeroPage sign), .instr .lda (.zeroPage (a + 1)), .instr .lsr .accumulator,
        .instr .lsr .accumulator,
        .instr .and (.immediate 0x1F), .instr .sta (.zeroPage e), .instr .lda (.zeroPage (a + 1)),
        .instr .and (.immediate 0x03), .instr .sta (.zeroPage (a + 1)),
          .instr .lda (.zeroPage e)] = some w ∧
      w.zp sign = signByte (signOf (v.word a)) ∧ w.zp e = .ofInt (v.word a / 1024 % 32 : ℕ) ∧
      w.word a = v.word a % 1024 ∧ w.zero = decide (v.word a / 1024 % 32 = 0) := by
  obtain ⟨ha, ha', hs, hs', hse⟩ := hslots
  have hhigh := high_eq v a
  have hlow := low_eq v a
  have hlt := v.word_lt a
  have hfield : UInt8.ofNat ((UInt8.ofNat ((v.zp (a + 1)).toNat / 2)).toNat / 2) &&& 0x1F =
      .ofInt (v.word a / 1024 % 32 : ℕ) := by
    apply UInt8.toNat_inj.1
    rw [and_0x1F, toNat_ofInt]
    simp
    omega
  refine ⟨_, rfl, ?_, ?_, ?_, ?_⟩
  · rw [← sign_byte]
    simp [hs', hse]
  · rw [← hfield]
    simp [ha', Ne.symm hs']
  · have hfraction := and_0x03 (v.zp (a + 1))
    simp [View.word, ha', Ne.symm ha, Ne.symm hs, Ne.symm hs', Ne.symm ha'] at hfraction ⊢
    rw [hfraction]
    omega
  · have hzero : (UInt8.ofInt (v.word a / 1024 % 32 : ℕ) == 0) =
        decide (v.word a / 1024 % 32 = 0) := by
      rw [Bool.eq_iff_iff, beq_iff_eq, decide_eq_true_eq, eq_zero_iff, toNat_ofInt]
      omega
    rw [← hzero, ← hfield]
    simp [ha', Ne.symm hs', Ne.symm ha']

namespace Flows

variable {t : Target} {id : RoutineId} {α : Type} {size : Nat} {back : Back} {ahead : Ahead}
  {P R : Assertion} {r : Footing}
  {a e sign : UInt8} {l loop exit : LabelId} {rest : Writer α}

/-- A mantissa that has been shifted by `j` places. -/
def shifting (x : ℚ) (j : ℕ) (m : ℕ) (k : ℤ) : Prop :=
  (1 ≤ k ∧ k ≤ 30 ∧ m * 2 ^ (k - 25 - j) = x) ∧ m ≠ 0 ∧ m < 2048 * 2 ^ j ∧ m % 2 ^ j = 0

/-- A mantissa that is doubled. -/
theorem double [P.RestsOn r] {x : View → ℚ} {j : ℕ} (hj : j < 3) (hslots : e ≠ a ∧ e ≠ a + 1)
    (ha : (conduct t id).opens r a = true) (ha' : (conduct t id).opens r (a + 1) = true)
    (h : Flows (conduct t) t id (size - 10) back ahead 0
      (P.also (.scaled a e fun u m k => shifting (x u) (j + 1) m k)) rest) :
    Flows (conduct t) t id size back ahead 0
      (P.also (.scaled a e fun u m k => shifting (x u) j m k))
      (shiftLeftWord a >>= fun _ => rest) := by
  refine .piece ?_ (fun n u v _ hv => ?_) h
  · show ((conduct t id).opens r a && ((conduct t id).opens r (a + 1) && true)) = true
    rw [ha, ha']
    rfl
  · obtain ⟨k, hk, ⟨hk1, hk30, hvalue⟩, hne, hlt, hmod⟩ := hv
    obtain ⟨w, hexec, hword, -⟩ := shiftLeft_word v a
    have hframe : v.Frame 0 [a, a + 1] w :=
      (execAll_frame hexec rfl).mono (Nat.le_refl 0) (by simp [slots])
    have hpow : (2 : ℕ) ^ j ≤ 4 := Nat.pow_le_pow_right (n := 2) (by decide) (Nat.le_of_lt_succ hj)
    rw [Nat.mod_eq_of_lt (by omega)] at hword
    refine ⟨w, hexec, k, (hframe.zp e (by simpa using hslots)).trans hk,
      ⟨hk1, hk30, ?_⟩, ?_, ?_, ?_⟩
    · rw [hword, ← hvalue, show k - 25 - ((j + 1 : ℕ) : ℤ) = k - 25 - j - 1 by push_cast; ring,
        zpow_sub_one₀ (by norm_num)]
      push_cast
      ring
    · omega
    · rw [hword, pow_succ]
      omega
    · rw [hword, pow_succ, Nat.mul_comm 2, Nat.mul_mod_mul_right, hmod]

/-- A finite number that is not zero is unpacked. -/
theorem unpack [P.RestsOn r] [hP : P.Timeless]
    (hslots : e ≠ a ∧ e ≠ a + 1 ∧ sign ≠ a ∧ sign ≠ a + 1 ∧ sign ≠ e)
    (ha : (conduct t id).opens r a = true) (ha' : (conduct t id).opens r (a + 1) = true)
    (he : (conduct t id).opens r e = true) (hs : (conduct t id).opens r sign = true)
    (h : Flows (conduct t) t id (size - 200) [] ahead 0
      ((P.also (.byte sign fun u b => b = signByte (signOf (u.word a)))).also
      (.unpacked a e fun u => scale (u.word a % 32768))) rest) :
    Flows (conduct t) t id size back ahead 0
      (P.also (.word a fun u w => w = u.word a ∧ ¬Special w ∧ ¬IsZero w))
      (Routine.unpack a sign e >>= fun _ => rest) := by
  let S : Assertion := .byte sign fun u b => b = signByte (signOf (u.word a))
  let x (u : View) : ℚ := scale (u.word a % 32768)
  have hslots' : e ≠ a ∧ e ≠ a + 1 := ⟨hslots.1, hslots.2.1⟩
  have hopens {z : UInt8} (hz : (conduct t id).opens r z = true) (hne : z ≠ sign) :
      (conduct t id).opens ⟨r.x || false, r.y || false, r.slots ++ [sign]⟩ z = true := by
    obtain ⟨hmem, hfree⟩ := Conduct.opens_iff.1 hz
    exact Conduct.opens_iff.2 ⟨hmem, by simpa using ⟨hfree, hne⟩⟩
  have hb := hopens ha hslots.2.2.1.symm
  have hb' := hopens ha' hslots.2.2.2.1.symm
  have hf := hopens he hslots.2.2.2.2.symm
  have hshift {u : View} {m : ℕ} {k : ℤ} (hk : 1 ≤ k) (hk' : k ≤ 30) (hm : m ≠ 0) (hm' : m < 2048)
      (hvalue : m * 2 ^ (k - 25) = x u) : shifting (x u) 0 m k :=
    ⟨⟨hk, hk', by simpa using hvalue⟩, hm, by omega, by omega⟩
  simp only [Routine.unpack, bind_assoc]
  refine .label ((P.also S).also fun _ u v => v.zp e = 0 ∧ v.word a = u.word a % 1024 ∧
    u.word a / 1024 % 32 = 0 ∧ ¬IsZero (u.word a)) fun subnormal => ?_
  refine .label ((P.also S).also (.scaled a e fun u m k => shifting (x u) 0 m k)) fun shift => ?_
  refine .label ((P.also S).also
    ((Assertion.scaled a e fun u m k => (k ≤ 30 ∧ m % 8 = 0 ∧ m * 2 ^ (k - 28) = x u) ∧
    2 ^ (-24 : ℤ) ≤ x u).also (.low a))) fun normalise => ?_
  refine .label ((P.also S).also (.unpacked a e x)) fun done => ?_
  refine .turn (R := fun _ u v => v.zp sign = signByte (signOf (u.word a)) ∧
    v.zp e = .ofInt (u.word a / 1024 % 32 : ℕ) ∧
    v.word a = u.word a % 1024 ∧ v.zero = decide (u.word a / 1024 % 32 = 0) ∧ ¬Special (u.word a) ∧
    ¬IsZero (u.word a))
    ?_ (fun n u v _ hv => ?_) ?_
  · show (true && (true && ((conduct t id).opens r sign && (true && (true && (true && (true &&
      ((conduct t id).opens r e &&
        (true && (true && ((conduct t id).opens r (a + 1) && (true && true)))))))))))) = true
    rw [hs, he, ha']
    rfl
  · obtain ⟨hword, hspecial, hzero⟩ := hv
    rw [hword] at hspecial hzero
    obtain ⟨w, hexec, hsign, hexponent, hfraction, hflag⟩ := split_number v hslots
    rw [hword] at hsign hexponent hfraction hflag
    exact ⟨w, hexec, hsign, hexponent, hfraction, hflag, hspecial, hzero⟩
  refine .weaken (Q := (P.also S).also fun _ u v => v.zp e = .ofInt (u.word a / 1024 % 32 : ℕ) ∧
    v.word a = u.word a % 1024 ∧ v.zero = decide (u.word a / 1024 % 32 = 0) ∧ ¬Special (u.word a) ∧
    ¬IsZero (u.word a))
    ?_ fun _ _ _ hv => ⟨⟨hv.1, hv.2.1⟩, hv.2.2⟩
  refine .branch (Q := (P.also S).also fun _ u v => v.zp e = .ofInt (u.word a / 1024 % 32 : ℕ) ∧
    v.word a = u.word a % 1024 ∧ u.word a / 1024 % 32 ≠ 0 ∧ ¬Special (u.word a))
    (fun n u v hv htaken => ?_) (fun n u v hv hskipped => ?_) ?_
  · obtain ⟨hp, hexponent, hfraction, hflag, hspecial, hzero⟩ := hv
    have hfield : u.word a / 1024 % 32 = 0 := by simpa [View.takes?, hflag] using htaken
    rw [hfield] at hexponent
    exact ⟨hp, hexponent, hfraction, hfield, hzero⟩
  · obtain ⟨hp, hexponent, hfraction, hflag, hspecial, hzero⟩ := hv
    exact ⟨hp, hexponent, hfraction, by simpa [View.takes?, hflag] using hskipped, hspecial⟩
  -- a normal number has a leading one that is not written
  refine .turn (R := .scaled a e fun u m k => shifting (x u) 0 m k) ?_ (fun n u v _ hv => ?_)
    (.jump (.bind ?_))
  · show (true && (true && ((conduct t id).opens _ (a + 1) && true))) = true
    rw [hb']
    rfl
  · obtain ⟨hexponent, hfraction, hfield, hspecial⟩ := hv
    have hor := or_high (v.zp (a + 1)) 2 (by decide) (by rw [high_eq]; omega)
    have hhigh := high_eq v a
    have hlow := low_eq v a
    have hword : (v.store (a + 1) (v.zp (a + 1) ||| 4)).word a = 1024 + u.word a % 1024 := by
      have hzp : (v.store (a + 1) (v.zp (a + 1) ||| 4)).zp a = v.zp a :=
        Function.update_of_ne (ne_succ a) _ _
      have hzp' : (v.store (a + 1) (v.zp (a + 1) ||| 4)).zp (a + 1) = v.zp (a + 1) ||| 4 :=
        Function.update_self ..
      change (v.zp (a + 1) ||| 4).toNat = _ at hor
      rw [View.word, hzp, hzp', hor]
      omega
    refine ⟨_, rfl, (u.word a / 1024 % 32 : ℕ), ?_, ?_⟩
    · exact (Function.update_of_ne hslots'.2 _ _).trans hexponent
    · show shifting (x u) 0 ((v.store (a + 1) (v.zp (a + 1) ||| 4)).word a) _
      unfold Special at hspecial
      rw [hword]
      exact hshift (by omega) (by omega) (by omega) (by omega) (by
        show _ = scale (u.word a % 32768)
        rw [scale_fields, if_neg hfield])
  -- the exponent of a subnormal number is one all the same
  refine .turn (R := .scaled a e fun u m k => shifting (x u) 0 m k)
    ?_ (fun n u v _ hv => ?_) (.bind ?_)
  · show ((conduct t id).opens _ e && true) = true
    rw [hf]
    rfl
  · obtain ⟨hexponent, hfraction, hfield, hzero⟩ := hv
    have hword : (v.store e (v.zp e + 1)).word a = v.word a :=
      View.word_congr (Function.update_of_ne hslots'.1.symm _ _)
        (Function.update_of_ne hslots'.2.symm _ _)
    unfold IsZero at hzero
    refine ⟨_, rfl, 1, ?_, ?_⟩
    · show Function.update v.zp e (v.zp e + 1) e = _
      rw [Function.update_self, hexponent]
      rfl
    · show shifting (x u) 0 ((v.store e (v.zp e + 1)).word a) 1
      rw [hword, hfraction]
      exact hshift (by decide) (by decide) (by omega) (by omega) (by
        show _ = scale (u.word a % 32768)
        rw [scale_fields, if_pos hfield])
  refine .double (by decide) hslots' hb hb'
    (.double (by decide) hslots' hb hb' (.double (by decide) hslots' hb hb' ?_))
  refine .renew (Q :=
    (P.also S).also ((Assertion.scaled a e fun u m k =>
      (k ≤ 30 ∧ m % 8 = 0 ∧ m * 2 ^ (k - 28) = x u) ∧
    2 ^ (-24 : ℤ) ≤ x u).also (.low a))) ?_ fun n u v hv => ?_
  swap
  · obtain ⟨⟨hp, hsign⟩, k, hk, ⟨hk1, hk30, hvalue⟩, hne, hlt, hmod⟩ := hv
    have hvalue : (v.word a : ℚ) * 2 ^ (k - 28) = x u := by
      rw [← hvalue]
      norm_num [sub_sub]
    have hleast : (2 : ℚ) ^ (-24 : ℤ) ≤ x u := by
      have hpow : (2 : ℚ) ^ (-27 : ℤ) ≤ 2 ^ (k - 28) := zpow_le_zpow_right₀ (by norm_num) (by omega)
      have hm : (8 : ℚ) ≤ v.word a := by exact_mod_cast (by omega : 8 ≤ v.word a)
      rw [← hvalue]
      calc (2 : ℚ) ^ (-24 : ℤ) = 8 * 2 ^ (-27 : ℤ) := by norm_num
        _ ≤ v.word a * 2 ^ (k - 28) := mul_le_mul hm hpow (by positivity) (by positivity)
    exact ⟨16384, ⟨hP.anytime n _ u v hp, hsign⟩, ⟨k, hk, ⟨hk30, hmod, hvalue⟩, hleast⟩,
      ⟨hne, hlt⟩, by omega⟩
  refine .bind (.lift (fun u m k hm hI => ?_) (fun n u v hp hscaled hnormal => ?_) hslots' hb hb' hf
    (.bind (.forget (.fit h ?_) ?_)))
  · obtain ⟨⟨hk, hmod, hvalue⟩, hleast⟩ := hI
    refine ⟨⟨by omega, by omega, ?_⟩, hleast⟩
    rw [← hvalue, show k - 1 - 28 = k - 28 - 1 by ring, zpow_sub_one₀ (by norm_num)]
    push_cast
    ring
  · obtain ⟨k, hk, ⟨hk30, hmod, hvalue⟩, hleast⟩ := hscaled
    refine ⟨hp, ⟨k, hk, ?_, hk30, hmod, hvalue⟩, hnormal⟩
    by_contra hsmall
    have hpow : (2 : ℚ) ^ (k - 28) ≤ 2 ^ (-38 : ℤ) := zpow_le_zpow_right₀ (by norm_num) (by omega)
    have hm : (v.word a : ℚ) < 16384 := by exact_mod_cast hnormal.2
    have hpos : (0 : ℚ) < 2 ^ (-38 : ℤ) := by positivity
    have hless : (v.word a : ℚ) * 2 ^ (k - 28) < 16384 * 2 ^ (-38 : ℤ) :=
      mul_lt_mul_of_lt_of_le_of_nonneg_of_pos hm hpow (by positivity) hpos
    rw [hvalue] at hless
    norm_num at hless hleast
    linarith
  · simp only [Nat.sub_sub]
    exact Nat.sub_le_sub_left (by decide) _
  · exact List.nil_subset _

end Flows

end Breadbin.Routine
