import Breadbin.Proofs.Routine.Results
import Breadbin.Proofs.Routine.Arithmetic
import Breadbin.Proofs.Routine.Addition
import Breadbin.Proofs.Routine.Calls
import Breadbin.Proofs.Routine.FixedPoint
import Breadbin.Proofs.Routine.Quotient
import Breadbin.Proofs.Routine.Truncation

/-!
# Calculations

The last of the routines that calculate, and what a processor gets from all of them.
-/

/-!
## Products of floating-point numbers

The routine that multiplies returns the product as it should be rounded.  The mantissas are
multiplied exactly, by shifting and adding, and the product is shifted back with a lowest bit that
sticks.
-/

namespace Breadbin.Routine

open Assembly Machine Numeric ZeroPage Writer LinkedCode

/-! ### The product of two mantissas -/

/-- The product of two mantissas, with their exponents, stands for `x`. -/
structure IsProduct (x : ℚ) (k l : ℤ) (m : ℕ) : Prop where
  place : -9 ≤ k ∧ k ≤ 30
  place' : -9 ≤ l ∧ l ≤ 30
  low : 8192 * 8192 ≤ m
  high : m < 16384 * 16384
  value : m * 2 ^ (k + l - 56) = x

/-- The product, shifted back by thirteen places. -/
theorem IsProduct.jammed {x : ℚ} {k l : ℤ} {m : ℕ} (h : IsProduct x k l m) :
    Near 2 (jammed m 13) (m / 2 ^ 13) ∧ 8192 ≤ jammed m 13 ∧ jammed m 13 < 32768 ∧
      (m : ℚ) / 2 ^ 13 * 2 ^ (k + l - 15 - 28) = x := by
  have hnear : Near 2 (Numeric.jammed m 13) (m / 2 ^ 13) := (Near.exact 2 m).jam 13
  have hlow : (8192 * 8192 : ℚ) ≤ m := by exact_mod_cast h.low
  have hhigh : (m : ℚ) < 16384 * 16384 := by exact_mod_cast h.high
  refine ⟨hnear, ?_, ?_, ?_⟩
  · by_contra hless
    have := hnear.four.strict_upper (j := 2048) (by omega)
    push_cast at this
    linarith
  · by_contra hmore
    have := hnear.four.lower (j := 8192) (by omega)
    push_cast at this
    linarith
  · rw [← h.value, show k + l - 56 = k + l - 15 - 28 - 13 by ring, zpow_sub₀ (by norm_num) _ 13]
    field_simp

namespace Assertion

/-- The product of the mantissas; `p` tells its double word. -/
def multiplied (p : View → ℕ → Prop) : Assertion :=
  fun _ u v => ∃ k l m, v.zp (work + 1) = .ofInt k ∧
  v.zp (work + 2) = .ofInt l ∧ IsProduct (sizeOf floatA u * sizeOf floatB u) k l m ∧ p v m

/-- The product has been shifted; X counts the places that are left, with `i` of them already
done. -/
def shiftedProduct (i : ℕ) : Assertion :=
  fun b => multiplied (fun v m => ∃ j, v.double floatR floatB = jammed m (j + i) ∧
  j + v.x.toNat = 13 ∧ 1 ≤ v.x.toNat ∧ v.x.toNat ≤ b) b

end Assertion

namespace Flows

variable {t : Target} {α : Type} {size : Nat} {back : Back} {ahead : Ahead} {rest : Writer α}

/-- The product of the mantissas is brought back by thirteen places. -/
theorem shiftProduct (h : Flows (conduct t) t .floatMul (size - 60) [] ahead 0
      ((Assertion.magnitude .mul fun u => sizeOf floatA u * sizeOf floatB u).also
        (.multiplied fun v m => v.word floatB = jammed m 13)) rest) :
    Flows (conduct t) t .floatMul size back ahead 0
      ((Assertion.magnitude .mul fun u => sizeOf floatA u * sizeOf floatB u).also
        (.multiplied fun v m => v.double floatR floatB = m))
      (imm .ldx 13 >>= fun _ => Writer.here >>= fun shift => zp .lsr (floatR + 1) >>= fun _ =>
        zp .ror floatR >>= fun _ =>
      zp .ror (floatB + 1) >>= fun _ => zp .ror floatB >>= fun _ =>
        Writer.sticky floatB >>= fun _ =>
      op .dex >>= fun _ => Writer.branch .bne shift >>= fun _ => rest) := by
  refine .turn (R := fun _ => Assertion.shiftedProduct 0 13) rfl (fun b u v _ hv => ?_) ?_
  · obtain ⟨k, l, m, hk, hl, hproduct, hdouble⟩ := hv
    exact ⟨_, rfl, k, l, m, hk, hl, hproduct, 0, hdouble, rfl,
      Nat.le_of_ble_eq_true rfl, Nat.le_refl 13⟩
  refine .renew (Q := (Assertion.magnitude .mul fun u => sizeOf floatA u * sizeOf floatB u).also
    (.shiftedProduct 0))
    (.here fun shift => ?_) fun b u v hv => ⟨13, hv⟩
  refine .turn (R := fun b u w => ∃ v, Assertion.shiftedProduct 0 b u v ∧
    v.Frame 0 [floatR, floatR + 1, floatB, floatB + 1] w ∧
    w.double floatR floatB = v.double floatR floatB / 2 ∧
    w.carry = decide (v.double floatR floatB % 2 = 1) ∧ w.x = v.x)
    rfl (fun b u v _ hv => ?_) ?_
  · obtain ⟨w, hexec, hdouble, hcarry, hx⟩ := @shiftRight_double v floatR floatB (by decide)
    exact ⟨w, hexec, v, hv, frame_double hexec rfl (by decide), hdouble, hcarry, hx⟩
  refine .stick (R := .shiftedProduct 1) rfl (fun b u w w' _ hv hframe' hx' _ hlow' => ?_) ?_
  · obtain ⟨v, ⟨k, l, m, hk, hl, hproduct, j, hjammed, hrounds⟩, hframe, hdouble, hcarry, hx⟩ := hv
    have hkept (z : UInt8) (hz : z ∉ [floatR, floatR + 1, floatB, floatB + 1]) : w'.zp z = v.zp z :=
      (hframe'.zp z fun hmem => hz (by simp at hmem; simp [hmem])).trans (hframe.zp z hz)
    refine ⟨k, l, m, (hkept _ (by decide)).trans hk,
      (hkept _ (by decide)).trans hl, hproduct, j, ?_, by rw [hx', hx]; exact hrounds⟩
    have hbit := toNat_or_one (w.zp floatB)
    have hhigh' : w'.zp (floatB + 1) = w.zp (floatB + 1) := hframe'.zp _ (by decide)
    have hR' : w'.word floatR = w.word floatR := hframe'.word (by decide) (by decide)
    rw [Nat.add_zero] at hjammed
    have hword : w.word floatB = (w.zp floatB).toNat + 256 * (w.zp (floatB + 1)).toNat := rfl
    have hword' : w'.word floatB = (w'.zp floatB).toNat + 256 * (w'.zp (floatB + 1)).toNat := rfl
    rw [hjammed] at hdouble hcarry
    rw [View.double] at hdouble
    rw [jammed_succ, View.double, hR', hword', hlow', hhigh', hcarry, halved,
      apply_ite UInt8.toNat, hbit]
    simp only [decide_eq_true_eq]
    split_ifs <;> omega
  refine .piece (R := fun b =>
    Assertion.multiplied (fun v m => ∃ j, v.double floatR floatB = jammed m j ∧ j + v.x.toNat = 13 ∧
    v.x.toNat < b ∧ v.zero = decide (v.x.toNat = 0)) b) rfl (fun b u v _ hv => ?_) ?_
  · obtain ⟨k, l, m, hk, hl, hproduct, j, hjammed, hcount, hx1, hxb⟩ := hv
    have hnext : (v.x - 1).toNat = v.x.toNat - 1 := toNat_sub_one (by omega)
    refine ⟨_, rfl, k, l, m, hk, hl, hproduct, j + 1, hjammed, ?_, ?_, ?_⟩
    · show j + 1 + (v.x - 1).toNat = 13
      omega
    · show (v.x - 1).toNat < b
      omega
    · show (v.x - 1 == 0) = decide ((v.x - 1).toNat = 0)
      rw [Bool.eq_iff_iff, beq_iff_eq, eq_zero_iff, decide_eq_true_eq]
  refine .branchBack (fun b u v hv htaken => ?_) (fun b u v hv hskipped => ?_)
    (.forget (.fit h ?_) (List.nil_subset _))
  · obtain ⟨hmagnitude, k, l, m, hk, hl, hproduct, j, hjammed, hcount, hxb, hzero⟩ := hv
    have hleft : v.x.toNat ≠ 0 := by simpa [View.takes?, hzero] using htaken
    exact ⟨_, hxb, hmagnitude, k, l, m, hk, hl, hproduct, j, hjammed, hcount,
      Nat.pos_of_ne_zero hleft, Nat.le_refl _⟩
  · obtain ⟨hmagnitude, k, l, m, hk, hl, hproduct, j, hjammed, hcount, -, hzero⟩ := hv
    have hdone : v.x.toNat = 0 := by simpa [View.takes?, hzero] using hskipped
    obtain rfl : j = 13 := by omega
    have hsmall := hproduct.jammed.2.2.1
    refine ⟨hmagnitude, k, l, m, hk, hl, hproduct, ?_⟩
    rw [View.double] at hjammed
    omega
  · simp only [Nat.sub_sub]
    exact Nat.sub_le_sub_left (by decide) _

end Flows

/-! ### The routine -/

/-- The sum of two exponents, less the bias. -/
theorem sum_exponents (v : View) :
    ∃ w, execAll v [.instr .lda (.zeroPage (work + 1)), .instr .clc .implied,
      .instr .adc (.zeroPage (work + 2)), .instr .sec .implied, .instr .sbc (.immediate 15),
        .instr .sta (.zeroPage (work + 1))] = some w ∧
      w.zp = Function.update v.zp (work + 1) (v.zp (work + 1) + v.zp (work + 2) - 15) := by
  refine ⟨_, rfl, congrArg (Function.update v.zp (work + 1)) (UInt8.toNat_inj.1 ?_)⟩
  have := (v.zp (work + 1)).toNat_lt
  have := (v.zp (work + 2)).toNat_lt
  rw [UInt8.toNat_sub, UInt8.toNat_add]
  simp
  omega

namespace Flows

variable {t : Target} {α : Type} {size : Nat} {back : Back} {ahead : Ahead} {rest : Writer α}

/-- The unpacked operands are multiplied, and the product is packed. -/
theorem product (h : Flows (conduct t) t .floatMul (size - 400) [] ahead 0 .never rest) :
    Flows (conduct t) t .floatMul size back ahead 0
      ((Assertion.magnitude .mul fun u => sizeOf floatA u * sizeOf floatB u).also .factors)
      (Routine.multiplyWide floatR floatB floatA >>= fun _ =>
      imm .ldx 13 >>= fun _ => Writer.here >>= fun shift => zp .lsr (floatR + 1) >>= fun _ =>
        zp .ror floatR >>= fun _ =>
      zp .ror (floatB + 1) >>= fun _ => zp .ror floatB >>= fun _ =>
        Writer.sticky floatB >>= fun _ =>
      op .dex >>= fun _ => Writer.branch .bne shift >>= fun _ => moveWord floatR floatB >>= fun _ =>
      Writer.label >>= fun pack => zp .lda (work + 1) >>= fun _ => op .clc >>= fun _ =>
        zp .adc (work + 2) >>= fun _ =>
      op .sec >>= fun _ => imm .sbc 15 >>= fun _ => zp .sta (work + 1) >>= fun _ =>
        zp .lda (floatR + 1) >>= fun _ =>
      imm .and overflowBit >>= fun _ => Writer.branch .beq pack >>= fun _ =>
        Writer.shiftRightSticky floatR >>= fun _ =>
      zp .inc (work + 1) >>= fun _ => Writer.bind pack >>= fun _ => Writer.tailCall .floatPack >>=
        fun _ => rest) := by
  refine .multiplyWide (R := .multiplied fun v m => v.double floatR floatB = m)
    ⟨by decide, by decide, by decide⟩
    rfl rfl rfl rfl rfl (fun b c u v w _ hv hframe hdouble => ?_) (.shiftProduct ?_)
  · obtain ⟨k, l, hk, hl, hA, hB, hnormalA, hnormalB⟩ := hv
    refine ⟨k, l, _, (hframe.zp _ (by decide)).trans hk, (hframe.zp _ (by decide)).trans hl,
      ⟨⟨hA.small, hA.large⟩, ⟨hB.small, hB.large⟩, Nat.mul_le_mul hnormalB.1 hnormalA.1,
        Nat.mul_lt_mul'' hnormalB.2 hnormalA.2, ?_⟩, hdouble⟩
    rw [← hA.value, ← hB.value,
      show k + l - 56 = (k - 28) + (l - 28) by ring, zpow_add₀ (by norm_num)]
    push_cast
    ring
  refine .piece (R := .multiplied fun v m => v.word floatR = jammed m 13)
    rfl (fun b u v _ hv => ?_) ?_
  · obtain ⟨k, l, m, hk, hl, hproduct, hword⟩ := hv
    obtain ⟨w, hexec, hmoved⟩ := move_word v floatB (y := floatR) (by decide)
    have hframe := execAll_frame hexec rfl
    exact ⟨w, hexec, k, l, m, (hframe.zp _ (by decide)).trans hk,
      (hframe.zp _ (by decide)).trans hl, hproduct, hmoved.trans hword⟩
  refine .label (.packable .mul) fun pack => ?_
  refine .exec (Q := fun n u v => Assertion.raised .mul n u v ∧
    v.zero = decide (v.word floatR < 16384)) rfl
    (fun b u v hv => ?_) ?_
  · obtain ⟨⟨hexact, hsign⟩, k, l, m, hk, hl, hproduct, hword⟩ := hv
    obtain ⟨w, hexec, hzp⟩ := sum_exponents v
    have hplace := hproduct.place
    have hplace' := hproduct.place'
    obtain ⟨hnear, hlow, hhigh, hvalue⟩ := hproduct.jammed
    have hR : w.word floatR = v.word floatR := View.word_congr (by rw [hzp]; rfl) (by rw [hzp]; rfl)
    have hraised : Assertion.raised .mul b u w := by
      refine ⟨signsDiffer u, k + l - 15, m / 2 ^ 13, ?_, ?_, ?_, by omega, by omega, ?_⟩
      · rw [hvalue]
        exact hexact
      · rw [hzp]
        exact hsign
      · rw [hzp, Function.update_self, hk, hl, ← UInt8.ofInt_add,
          show (15 : UInt8) = .ofInt 15 from rfl, ← ofInt_sub]
      · rw [hR, hword]
        exact ⟨hnear, hlow, hhigh⟩
    obtain ⟨w', hexec', hrest⟩ := raised_flag hraised
    have hall := execAll_trans hexec hexec'
    exact ⟨w', hall, hrest⟩
  refine .bringBack rfl (.bind ?_)
  refine .tailCall (by decide) trivially (fun n u v w hp hw => calculates_of_packable hp hw)
    (.forget (.fit h ?_) (List.nil_subset _))
  simp only [Nat.sub_sub]
  exact Nat.sub_le_sub_left (by decide) _

end Flows

theorem floatMul_conducted {t : Target} : Conducted t .floatMul := by
  refine .last ?_
  simp only [body, floatMul, bind_assoc]
  refine .label (.undefined .mul) fun nan => ?_
  refine .label (.known fun u => Numbers u ∧ Special (u.word floatA)) fun infiniteA => ?_
  refine .label (.known fun u => (Numbers u ∧ ¬Special (u.word floatA)) ∧ Special (u.word floatB))
    fun infiniteB => ?_
  refine .label (.signed .mul .infinite) fun infinite =>
    .label (.signed .mul (.finite · 0)) fun zero => ?_
  refine .enter rfl (fun u hu => (mul_nan (u.word_lt _) (u.word_lt _) hu).1) ?_
  refine .whenSpecial (.inl rfl) (fun n u v hv hA => hv.also hA)
    (.whenSpecial (.inr rfl) (fun n u v hv hB => hv.also hB) ?_)
  refine .whenZero (.inl rfl) (fun n u v hv hzA => hv.signed ?_) ?_
  · obtain ⟨⟨-, hA⟩, hB⟩ := hv.2
    rw [exactly, mul_finite (u.word_lt _) (u.word_lt _) hA hB, scale_eq_zero_iff.2 hzA, zero_mul]
    rfl
  refine .whenZero (.inr rfl) (fun n u v hv hzB => hv.signed ?_) ?_
  · obtain ⟨⟨⟨-, hA⟩, hB⟩, -⟩ := hv.2
    rw [exactly, mul_finite (u.word_lt _) (u.word_lt _) hA hB, scale_eq_zero_iff.2 hzB, mul_zero]
    rfl
  refine .unpackBoth rfl (fun u hu => ?_) (.product (.bind ?_))
  · obtain ⟨⟨⟨⟨-, hA⟩, hB⟩, hzA⟩, hzB⟩ := hu
    exact ⟨hA, hzA, hB, hzB, mul_finite (u.word_lt _) (u.word_lt _) hA hB⟩
  refine .whenZero (.inr rfl) (fun n u v hv hzB => ?_) ?_
  · obtain ⟨⟨hnA, hnB⟩, hA⟩ := hv.2
    exact (mul_special (u.word_lt _) (u.word_lt _) hA hnA hnB).trans (if_pos hzB)
  refine .weaken (Q := .signed .mul .infinite) (.jump (.bind ?_)) fun n u v hv => hv.signed ?_
  swap
  · obtain ⟨⟨⟨hnA, hnB⟩, hA⟩, hzB⟩ := hv.2
    exact (mul_special (u.word_lt _) (u.word_lt _) hA hnA hnB).trans (if_neg hzB)
  refine .whenZero (.inl rfl) (fun n u v hv hzA => ?_) ?_
  · obtain ⟨⟨⟨-, hnB⟩, hA⟩, hB⟩ := hv.2
    exact (special_mul (u.word_lt _) (u.word_lt _) hA hB hnB).trans (if_pos hzA)
  refine .weaken (Q := .signed .mul .infinite) (.leave rfl fun _ => .done (by decide) _)
    fun n u v hv => hv.signed ?_
  obtain ⟨⟨⟨⟨-, hnB⟩, hA⟩, hB⟩, hzA⟩ := hv.2
  exact (special_mul (u.word_lt _) (u.word_lt _) hA hB hnB).trans (if_neg hzA)

end Breadbin.Routine

/-!
## Calculations on the processor

What a processor gets when it calls the routines that calculate: products, quotients and remainders
of integers, products and quotients of fixed-point numbers, and sums, differences, products and
quotients of floating-point numbers as well as their conversions.
-/

namespace Breadbin.Routine

open Machine Numeric ZeroPage

/-! ### What is called -/

/-- The routines that calculate. -/
def arithmetic : List RoutineId :=
  [.mul8, .mul16, .divU8, .divS8, .divU16, .divS16, .fixedMul, .fixedDiv, .floatPack, .floatAdd,
    .floatSub, .floatMul, .floatDiv, .floatCompare, .floatOfMagnitude, .floatOfU16, .floatOfI16,
    .floatTruncate, .floatSaturate, .floatToU16,
    .floatToI16, .floatOfFixed, .floatToFixed]

theorem arithmetic_conducted {t : Target} {id : RoutineId} (h : id ∈ arithmetic) :
    Conducted t id := by
  simp only [arithmetic, List.mem_cons, List.not_mem_nil, or_false] at h
  rcases h with rfl | rfl | rfl | rfl | rfl | rfl | rfl | rfl | rfl | rfl | rfl | rfl | rfl | rfl |
    rfl | rfl | rfl | rfl | rfl | rfl | rfl | rfl | rfl
  exacts [mul8_conducted, mul16_conducted, divU8_conducted, divS8_conducted,
    divU16_conducted, divS16_conducted, fixedMul_conducted, fixedDiv_conducted, floatPack_conducted,
    floatAdd_conducted, floatSub_conducted, floatMul_conducted,
    floatDiv_conducted, floatCompare_conducted, floatOfMagnitude_conducted, floatOfU16_conducted,
    floatOfI16_conducted,
    floatTruncate_conducted, floatSaturate_conducted, floatToU16_conducted, floatToI16_conducted,
    floatOfFixed_conducted,
    floatToFixed_conducted]

/-- Such routines call one another only. -/
theorem arithmetic_closed : ∀ id ∈ arithmetic, id.calls ⊆ arithmetic := by decide +kernel

theorem needs_conducted {t : Target} {id : RoutineId} (h : id ∈ arithmetic) {r : RoutineId}
    (hr : id.Needs r) :
    Conducted t r := by
  refine arithmetic_conducted ?_
  induction hr with
  | refl => exact h
  | tail _ hcall ih => exact arithmetic_closed _ ih hcall

/-- Such a routine comes back with what it should return. -/
theorem arithmetic_answers {id : RoutineId} {p : Since} (h : id ∈ arithmetic)
    (hends : ∀ v w, (conduct .c64 id).ends v w → p v w) :
    Answers id p := by
  refine answers (fun r hr => needs_conducted h hr) (fun v => ?_) hends
  have hfree : ∀ id ∈ arithmetic, (conduct .c64 id).starts = fun _ => True := by
    simp only [arithmetic, List.forall_mem_cons, List.not_mem_nil, false_imp_iff,
      implies_true, and_true]
    exact ⟨rfl, rfl, rfl, rfl, rfl, rfl, rfl, rfl, rfl, rfl, rfl, rfl, rfl, rfl, rfl, rfl, rfl, rfl,
      rfl, rfl, rfl, rfl, rfl⟩
  rw [hfree id h]
  trivial

/-- The view of a processor that has been switched on and has two words in slots. -/
def loaded (a : UInt8) (m : ℕ) (b : UInt8) (n : ℕ) : View :=
  (((blank.store a (UInt8.ofNat m)).store (a + 1) (UInt8.ofNat (m / 256))).store b
    (UInt8.ofNat n)).store (b + 1)
    (UInt8.ofNat (n / 256))

/-- Once a routine has been loaded and called, the views before and after the call are related. -/
def Returns (id : RoutineId) (v : View) (p : Since) : Prop :=
  ∃ image address, ∃ c c' : Cpu, ∃ w, (library id).stream.link libraryOrigin = .ok image ∧
    image.lookup? id.name = some address ∧ c.Carries image ∧ c.view.zp = v.zp ∧
    c.call address 0 = (c', none) ∧ c'.Shows w ∧
      p c.view w

theorem Answers.returns {id : RoutineId} {p q : Since} (h : Answers id p) {a b : UInt8} {m n : ℕ}
    (hq : ∀ u w : View, u.zp = (loaded a m b n).zp → p u w → q u w) :
    Returns id (loaded a m b n) q := by
  obtain ⟨image, address, c, c', w, hlink, hlookup, hcarries, hzp, hcall, hshows, hp⟩ :=
    h.run (loaded a m b n) rfl rfl
  exact ⟨image, address, c, c', w, hlink, hlookup, hcarries, hzp, hcall, hshows, hq _ _ hzp hp⟩

/-! ### Integers -/

/-- A quotient and a remainder of words below `m`. -/
structure IsDivision (m dividend divisor quotient remainder : ℕ) : Prop where
  zero : divisor = 0 → quotient = m - 1 ∧ remainder = dividend
  exact : divisor ≠ 0 → dividend = quotient * divisor + remainder ∧ remainder < divisor

/-- A quotient, truncated towards zero, and a remainder of words below `m` that are read with a
sign. -/
structure IsSignedDivision (m dividend divisor quotient remainder : ℕ) : Prop where
  zero : divisor = 0 → quotient = m - 1 ∧ remainder = dividend
  wraps : (dividend : ℤ).bmod m = -(m / 2) → (divisor : ℤ).bmod m = -1 →
    (quotient : ℤ).bmod m = -(m / 2) ∧ (remainder : ℤ).bmod m = 0
  exact : divisor ≠ 0 → ¬((dividend : ℤ).bmod m = -(m / 2) ∧ (divisor : ℤ).bmod m = -1) →
    (dividend : ℤ).bmod m = (quotient : ℤ).bmod m * (divisor : ℤ).bmod m + (remainder : ℤ).bmod m ∧
      |(remainder : ℤ).bmod m| < |(divisor : ℤ).bmod m| ∧
      ((remainder : ℤ).bmod m ≠ 0 → ((remainder : ℤ).bmod m < 0 ↔ (dividend : ℤ).bmod m < 0))

theorem isDivision {m d e q r : ℕ} (hq : q = quotient m d e) (hr : r = d % e) :
    IsDivision m d e q r := by
  subst hq hr
  refine ⟨?_, fun he => ?_⟩
  · rintro rfl
    exact ⟨rfl, Nat.mod_zero d⟩
  · rw [quotient, if_neg he, Nat.mul_comm]
    exact ⟨(Nat.div_add_mod d e).symm, Nat.mod_lt d (Nat.pos_of_ne_zero he)⟩

theorem tdiv_bounds {h d e : ℤ} (hlow : -h ≤ d) (hhigh : d < h) (he : e ≠ 0)
    (hwraps : ¬(d = -h ∧ e = -1)) :
    -h ≤ d.tdiv e ∧ d.tdiv e < h := by
  by_cases hone : e = 1
  · rw [hone, Int.tdiv_one]
    exact ⟨hlow, hhigh⟩
  by_cases hminus : e = -1
  · rw [hminus, Int.tdiv_neg, Int.tdiv_one]
    omega
  have habs : (d.tdiv e).natAbs = d.natAbs / e.natAbs := Int.natAbs_tdiv d e
  have hhalf : d.natAbs / e.natAbs ≤ d.natAbs / 2 := Nat.div_le_div_left (by omega) (by decide)
  omega

/-- A remainder has the sign of the dividend. -/
theorem tmod_neg_iff {d e : ℤ} (h : d.tmod e ≠ 0) : d.tmod e < 0 ↔ d < 0 := by
  constructor
  · intro hneg
    by_contra hd
    exact absurd (Int.tmod_nonneg e (not_lt.1 hd)) (not_le.2 hneg)
  · intro hneg
    have hnonneg : 0 ≤ (-d).tmod e := Int.tmod_nonneg e (by omega)
    rw [Int.neg_tmod] at hnonneg
    omega

theorem isSignedDivision {m d e q r : ℕ} (hm : m % 2 = 0) (hd : d < m) (he : e < m)
    (hq : (q : ℤ) = signedQuotient m d e)
    (hr : (r : ℤ) = signedRemainder m d e) : IsSignedDivision m d e q r := by
  have hpos : 0 < m := by omega
  have hbmod (n : ℕ) : -((m : ℤ) / 2) ≤ (n : ℤ).bmod m ∧ (n : ℤ).bmod m < (m : ℤ) / 2 := by
    have hle := Int.le_bmod (x := (n : ℤ)) hpos
    have hlt := Int.bmod_lt (x := (n : ℤ)) hpos
    omega
  have hback {x : ℤ} (hlow : -((m : ℤ) / 2) ≤ x) (hhigh : x < (m : ℤ) / 2) :
      (x % m).bmod m = x := by
    rw [Int.emod_bmod, Int.bmod_eq_of_le hlow (by omega)]
  refine ⟨?_, fun hmin hminus => ?_, fun hne hwraps => ?_⟩
  · rintro rfl
    rw [signedRemainder_zero hd] at hr
    rw [signedQuotient, if_pos rfl] at hq
    exact ⟨by omega, by omega⟩
  · have hne : e ≠ 0 := by
      rintro rfl
      simp at hminus
    rw [hq, hr, signedQuotient, if_neg hne, signedRemainder, hmin, hminus, Int.tdiv_neg,
      Int.tdiv_one, Int.tmod_neg, Int.tmod_one, Int.neg_neg]
    refine ⟨?_, by simp⟩
    have hhalf : ((m : ℤ) / 2) % m = (-((m : ℤ) / 2)) % m := by
      rw [Int.emod_eq_emod_iff_emod_sub_eq_zero]
      exact Int.emod_eq_zero_of_dvd ⟨1, by omega⟩
    rw [hhalf]
    exact hback le_rfl (by omega)
  · obtain ⟨hdlow, hdhigh⟩ := hbmod d
    obtain ⟨helow, hehigh⟩ := hbmod e
    have hdivisor : (e : ℤ).bmod m ≠ 0 := by
      rw [Ne, ← Int.dvd_iff_bmod_eq_zero, Int.natCast_dvd_natCast]
      exact fun hdvd => absurd (Nat.le_of_dvd (by omega) hdvd) (by omega)
    obtain ⟨hqlow, hqhigh⟩ := tdiv_bounds hdlow hdhigh hdivisor hwraps
    have hless : (((d : ℤ).bmod m).tmod ((e : ℤ).bmod m)).natAbs < ((e : ℤ).bmod m).natAbs := by
      rw [Int.natAbs_tmod]
      exact Nat.mod_lt _ (by omega)
    rw [hq, hr, signedQuotient, if_neg hne, signedRemainder, hback hqlow hqhigh,
      hback (by omega) (by omega)]
    rw [Int.abs_eq_natAbs, Int.abs_eq_natAbs]
    exact ⟨(Int.tdiv_mul_add_tmod _ _).symm, by exact_mod_cast hless, tmod_neg_iff⟩

/-- The quotient and the remainder of unsigned bytes. -/
def quotientOfBytes (u w : View) : Prop :=
  returnsByte intR w ∧
    IsDivision 256 (u.zp intA).toNat (u.zp intB).toNat (w.zp intR).toNat (w.zp intRemainder).toNat

/-- The quotient and the remainder of unsigned words. -/
def quotientOfWords (u w : View) : Prop :=
  returnsWord intR w ∧
    IsDivision 65536 (u.word intA) (u.word intB) (w.word intR) (w.word intRemainder)

/-- The quotient and the remainder of signed bytes. -/
def quotientOfSignedBytes (u w : View) : Prop :=
  returnsByte intR w ∧
    IsSignedDivision 256 (u.zp intA).toNat (u.zp intB).toNat (w.zp intR).toNat
      (w.zp intRemainder).toNat

/-- The quotient and the remainder of signed words. -/
def quotientOfSignedWords (u w : View) : Prop :=
  returnsWord intR w ∧
    IsSignedDivision 65536 (u.word intA) (u.word intB) (w.word intR) (w.word intRemainder)

/-- Integers are multiplied with a product that wraps, and divided towards zero; a division by zero
gives a quotient of all ones and leaves the dividend. -/
theorem integers_calculated :
    Answers .mul8 multipliesBytes ∧ Answers .mul16 multipliesWords ∧
      Answers .divU8 quotientOfBytes ∧ Answers .divU16 quotientOfWords ∧
      Answers .divS8 quotientOfSignedBytes ∧ Answers .divS16 quotientOfSignedWords :=
  ⟨arithmetic_answers (by decide) fun _ _ h => h, arithmetic_answers (by decide) fun _ _ h => h,
    arithmetic_answers (by decide) fun _ _ h => ⟨h.1, isDivision h.2.1 h.2.2⟩,
    arithmetic_answers (by decide) fun _ _ h => ⟨h.1, isDivision h.2.1 h.2.2⟩,
    arithmetic_answers (by decide) fun _ _ h =>
      ⟨h.1, isSignedDivision rfl (UInt8.toNat_lt _) (UInt8.toNat_lt _) h.2.1 h.2.2⟩,
    arithmetic_answers (by decide) fun _ _ h =>
      ⟨h.1, isSignedDivision rfl (View.word_lt _ _) (View.word_lt _ _) h.2.1 h.2.2⟩⟩

/-- The signed bytes -7 and 2 are divided. -/
theorem minus_seven_halved : Returns .divS8 (loaded intA 0xF9 intB 2) fun _ w =>
    IsSignedDivision 256 0xF9 2 w.a.toNat (w.zp intRemainder).toNat := by
  refine integers_calculated.2.2.2.2.1.returns fun u w hu h => ?_
  have hdividend : u.zp intA = 0xF9 := by rw [hu]; rfl
  have hdivisor : u.zp intB = 2 := by rw [hu]; rfl
  obtain ⟨ha, hdivision⟩ := h
  rw [hdividend, hdivisor, ← ha] at hdivision
  exact hdivision

/-! ### Fixed-point numbers -/

/-- Units that are too many for a fixed-point number are as many as fit. -/
def clamp (k : ℤ) : ℤ := max (-32768) (min 32767 k)

/-- Fixed-point numbers are multiplied and divided as they are when an expression of literals is
folded, which is towards zero and with results that saturate; a division by zero gives the largest
or the least number. -/
theorem fixed_calculated :
    Answers .fixedMul (calculatesFixed .mul) ∧ Answers .fixedDiv (calculatesFixed .div) ∧
      (∀ f g : Fixed, (f.mul g).units = clamp ((f.units * g.units).tdiv 16)) ∧
      ∀ f g : Fixed, (f.div g).units =
        if g.units = 0 then if f.units < 0 then -32768 else 32767
            else clamp ((16 * f.units).tdiv g.units) := by
  refine ⟨arithmetic_answers (by decide) fun _ _ h => h, arithmetic_answers (by decide) fun _ _ h =>
    h, fun f g => ?_, fun f g => ?_⟩
  · rw [Fixed.mul_eq, Fixed.units_saturate, clamp]
  · split
    next hzero => exact Fixed.div_zero hzero
    next hne => rw [Fixed.div_eq hne, Fixed.units_saturate, clamp]

/-- The product of 1.5 and 2.5 is 3.75. -/
theorem fixed_product :
    Returns .fixedMul (loaded fixA 24 fixB 40) fun _ w => w.a = 60 ∧ w.x = 0 := by
  refine fixed_calculated.1.returns fun u w hu h => ?_
  obtain ⟨⟨ha, hx⟩, hword⟩ := h
  have hfirst : u.word fixA = 24 := by rw [View.word, hu]; rfl
  have hsecond : u.word fixB = 40 := by rw [View.word, hu]; rfl
  rw [hfirst, hsecond, View.word, ← ha, ← hx, show ((fixedOf 24).mul (fixedOf 40)).raw.toNat =
    60 by decide +kernel] at hword
  have := w.a.toNat_lt
  exact ⟨UInt8.toNat_inj.1 (show w.a.toNat = 60 by omega),
    UInt8.toNat_inj.1 (show w.x.toNat = 0 by omega)⟩

/-! ### Floating-point numbers -/

/-- The sum, the difference, the product and the quotient of floating-point numbers are the exact
ones, rounded. -/
theorem floats_calculated :
    Answers .floatAdd (calculates .add) ∧ Answers .floatSub (calculates .sub) ∧
      Answers .floatMul (calculates .mul) ∧
      Answers .floatDiv (calculates .div) :=
  ⟨arithmetic_answers (by decide) fun _ _ h => h, arithmetic_answers (by decide) fun _ _ h => h,
    arithmetic_answers (by decide) fun _ _ h => h, arithmetic_answers (by decide) fun _ _ h => h⟩

/-- The quotient of -1 and 0 is the negative infinity. -/
theorem minus_one_over_zero : Returns .floatDiv (loaded floatA 0xBC00 floatB 0) fun _ w =>
    (Half.ofWord (w.word floatR)).isInfinite = true ∧
      (Half.ofWord (w.word floatR)).negative = true := by
  refine floats_calculated.2.2.2.returns fun u w hu h => ?_
  have hfirst : u.word floatA = 0xBC00 := by rw [View.word, hu]; rfl
  have hsecond : u.word floatB = 0 := by rw [View.word, hu]; rfl
  obtain ⟨-, hrounds⟩ := h
  rw [hfirst, hsecond, datumOf_finite (by decide) (by decide),
    datumOf_finite (by decide) (by decide)] at hrounds
  have hone : scale (0xBC00 % 32768) ≠ 0 := by
    exact (scale_pos (by decide)).ne'
  rw [Datum.div, if_neg (not_not.2 scale_zero), if_neg hone] at hrounds
  exact hrounds

/-- An unsigned word is rounded. -/
def roundsWord (u w : View) : Prop :=
  returnsWord floatR w ∧ (Datum.ofRat (u.word intA)).Rounds (Half.ofWord (w.word floatR))

/-- A signed word is rounded. -/
def roundsSignedWord (u w : View) : Prop :=
  returnsWord floatR w ∧
    (Datum.ofRat ((u.word intA : ℤ).bmod 65536)).Rounds (Half.ofWord (w.word floatR))

theorem roundsWord_of_packsWord {u w : View} (h : packsWord u w) : roundsWord u w := by
  obtain ⟨hreturns, hpacked⟩ := h
  have hnonneg : (0 : ℚ) ≤ u.word intA := Nat.cast_nonneg _
  have hexact : Datum.ofRat (u.word intA) = .finite false (u.word intA) := by
    rw [Datum.ofRat, decide_eq_false (not_lt.2 hnonneg), abs_of_nonneg hnonneg]
  exact ⟨hreturns, hexact ▸ hpacked.rounds fun _ => rfl⟩

theorem roundsSignedWord_of_packsSignedWord {u w : View} (h : packsSignedWord u w) :
    roundsSignedWord u w := by
  obtain ⟨hreturns, hpacked⟩ := h
  have hexact := ofRat_word (u.word_lt intA) one_pos
  rw [div_one, div_one] at hexact
  refine ⟨hreturns, hexact ▸ hpacked.rounds fun hzero => ?_⟩
  rw [signOf, decide_eq_false_iff_not]
  exact fun hhigh => magnitude_ne_zero (u.word_lt intA) (by omega) hzero

/-- Floating-point numbers compare as what they stand for, are the nearest ones to the integers and
fixed-point numbers that they are made of, and become these again by truncation and saturation. -/
theorem floats_converted :
    Answers .floatCompare compares ∧
      Answers .floatOfU16 roundsWord ∧ Answers .floatOfI16 roundsSignedWord ∧
        Answers .floatOfFixed roundsFixed ∧
      Answers .floatToU16 (truncatesTo intR 0 65535 1) ∧
        Answers .floatToI16 (truncatesTo intR (-32768) 32767 1) ∧
      Answers .floatToFixed (truncatesTo fixR (-32768) 32767 16) :=
  ⟨arithmetic_answers (by decide) fun _ _ h => h, arithmetic_answers (by decide) fun _ _ h =>
    roundsWord_of_packsWord h,
    arithmetic_answers (by decide) fun _ _ h => roundsSignedWord_of_packsSignedWord h,
    arithmetic_answers (by decide) fun _ _ h => h, arithmetic_answers (by decide) fun _ _ h => h,
    arithmetic_answers (by decide) fun _ _ h => h, arithmetic_answers (by decide) fun _ _ h => h⟩

/-- The two zeros compare as equal. -/
theorem zeros_compare :
    Returns .floatCompare (loaded floatA 0x8000 floatB 0) fun _ w => w.a = 0 := by
  refine floats_converted.1.returns fun u w hu h => ?_
  have hfirst : u.word floatA = 0x8000 := by rw [View.word, hu]; rfl
  have hsecond : u.word floatB = 0 := by rw [View.word, hu]; rfl
  rw [compares, hfirst, hsecond,
    compare_isZero (by decide) (by decide) (by decide) (by decide)] at h
  exact h

end Breadbin.Routine
