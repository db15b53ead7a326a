import Breadbin.Proofs.Routine.Division
import Breadbin.Proofs.Routine.Results

/-!
# Quotients of floating-point numbers

The routine that divides returns the quotient as it should be rounded.  The mantissas are divided by
restoring division to fifteen bits, and a remainder makes the lowest bit stick.
-/

namespace Breadbin.Routine

open Assembly Machine Numeric ZeroPage Writer LinkedCode

/-! ## Restoring division -/

/-- After `i` rounds of the division of `m` by `n` the quotient is `q`, and `r` is twice the
remainder. -/
structure Restored (m n i q r : ℕ) : Prop where
  value : m * 2 ^ i = 2 * q * n + r
  small : r < 2 * n

namespace Restored

variable {m n i q r : ℕ}

theorem start (h : m < 2 * n) : Restored m n 0 0 m := ⟨by simp, h⟩

/-- A round in which the divisor does not go into the remainder. -/
theorem skip (h : Restored m n i q r) (hless : r < n) : Restored m n (i + 1) (2 * q) (2 * r) := by
  refine ⟨?_, by omega⟩
  rw [pow_succ, ← Nat.mul_assoc, h.value]
  ring

/-- A round in which the divisor goes into the remainder. -/
theorem subtract (h : Restored m n i q r) (hle : n ≤ r) :
    Restored m n (i + 1) (2 * q + 1) (2 * (r - n)) := by
  have hsmall := h.small
  refine ⟨?_, by omega⟩
  obtain ⟨d, rfl⟩ := Nat.exists_eq_add_of_le hle
  rw [pow_succ, ← Nat.mul_assoc, h.value, Nat.add_sub_cancel_left]
  ring

/-- The quotient has as many bits as there were rounds. -/
theorem lt (h : Restored m n i q r) (hm : m < 2 * n) : q < 2 ^ i := by
  have hless : 2 * n * q < 2 * n * 2 ^ i := by
    calc 2 * n * q ≤ 2 * q * n + r := by rw [Nat.mul_right_comm]; exact Nat.le_add_right _ _
      _ = m * 2 ^ i := h.value.symm
      _ < 2 * n * 2 ^ i := Nat.mul_lt_mul_of_pos_right hm (Nat.two_pow_pos i)
  exact Nat.lt_of_mul_lt_mul_left hless

/-- The quotient, with a lowest bit that is set if there is a remainder. -/
def stuck (q r : ℕ) : ℕ := if r = 0 then q else q + if q % 2 = 0 then 1 else 0

/-- The quotient as a number. -/
theorem div_eq (h : Restored m n (i + 1) q r) (hn : n ≠ 0) :
    (m * 2 ^ i / n : ℚ) = q + r / (2 * n) := by
  have hn' : (n : ℚ) ≠ 0 := by exact_mod_cast hn
  have hvalue : (m * 2 ^ (i + 1) : ℚ) = 2 * q * n + r := by exact_mod_cast h.value
  rw [pow_succ] at hvalue
  field_simp
  linarith

/-- The quotient of two mantissas after fifteen rounds. -/
theorem near (h : Restored m n 15 q r) (hm : 8192 ≤ m ∧ m < 16384) (hn : 8192 ≤ n ∧ n < 16384) :
    Near 2 (stuck q r) (m * 2 ^ 14 / n) ∧ 8192 ≤ stuck q r ∧ stuck q r < 32768 := by
  have hq : q < 2 ^ 15 := h.lt (by omega)
  have hlow : 8192 ≤ q := by
    by_contra hless
    have := h.value
    have := h.small
    have : 2 * q * n ≤ 2 * 8191 * n := Nat.mul_le_mul_right n (by omega)
    omega
  refine ⟨?_, ?_, ?_⟩
  · rw [h.div_eq (by omega), stuck]
    split_ifs with hr heven
    · left
      simp [hr]
    all_goals
      have hpos : (0 : ℚ) < 2 * n := by exact_mod_cast (by omega : 0 < 2 * n)
      have hfraction : (0 : ℚ) < r / (2 * n) :=
        div_pos (by exact_mod_cast Nat.pos_of_ne_zero hr) hpos
      have hfraction' : (r / (2 * n) : ℚ) < 1 := (div_lt_one hpos).2 (by exact_mod_cast h.small)
      refine .inr ⟨q / 2, by omega, by omega, ?_, ?_⟩
      · have : (2 * (q / 2 : ℕ) : ℚ) ≤ q := by exact_mod_cast (by omega : 2 * (q / 2) ≤ q)
        linarith
      · have : (q + 1 : ℚ) ≤ 2 * (q / 2 : ℕ) + 2 := by
          exact_mod_cast (by omega : q + 1 ≤ 2 * (q / 2) + 2)
        linarith
  · unfold stuck
    split_ifs <;> omega
  · unfold stuck
    split_ifs <;> omega

end Restored

/-! ## The quotient of two mantissas -/

/-- The mantissas of the operands, `m` being that of the first, with their exponents. -/
structure Dividing (u v : View) (m : ℕ) (k l : ℤ) : Prop where
  place : v.zp (work + 1) = .ofInt k
  place' : v.zp (work + 2) = .ofInt l
  first : IsUnpacked (sizeOf floatA u) m k
  second : IsUnpacked (sizeOf floatB u) (v.word floatB) l
  normal : 8192 ≤ m ∧ m < 16384
  normal' : 8192 ≤ v.word floatB ∧ v.word floatB < 16384

/-- The quotient of the mantissas and the difference of the exponents, with the bias, give the
quotient of the numbers. -/
theorem Dividing.value {u v : View} {m : ℕ} {k l : ℤ} (h : Dividing u v m k l) :
    (m * 2 ^ 14 / v.word floatB : ℚ) * 2 ^ (k - l + 14 - 28) =
      sizeOf floatA u / sizeOf floatB u := by
  have hn : (v.word floatB : ℚ) ≠ 0 := by
    exact_mod_cast (by have := h.normal'; omega : v.word floatB ≠ 0)
  rw [← h.first.value, ← h.second.value,
    show k - l + 14 - 28 = (k - 28) - (l - 28) - 14 by
      ring, zpow_sub₀ (by norm_num) _ 14, zpow_sub₀ (by norm_num) (k - 28)]
  field_simp

/-- The difference of two exponents, with the bias. -/
theorem difference_exponents (v : View) :
    ∃ w, execAll v [.instr .lda (.zeroPage (work + 1)), .instr .sec .implied,
      .instr .sbc (.zeroPage (work + 2)), .instr .clc .implied, .instr .adc (.immediate 14),
        .instr .sta (.zeroPage (work + 1))] = some w ∧
      w.zp = Function.update v.zp (work + 1) (v.zp (work + 1) - v.zp (work + 2) + 14) := by
  refine ⟨_, rfl, congrArg (Function.update v.zp (work + 1)) (UInt8.toNat_inj.1 ?_)⟩
  have := (v.zp (work + 1)).toNat_lt
  have := (v.zp (work + 2)).toNat_lt
  rw [UInt8.toNat_add, UInt8.toNat_sub]
  simp
  omega

/-- The bytes that the division of the mantissas changes. -/
abbrev quotientSlots : List UInt8 := [floatR, floatR + 1, floatA, floatA + 1]

/-- Lines that change no more than the quotient and the remainder. -/
theorem frame_quotient {v w : View} {ls : List Line} (hexec : execAll v ls = some w)
    (hlevel : ls.all isLevel = true)
    (hslots : ls.flatMap slots ⊆ quotientSlots) : v.Frame 0 quotientSlots w :=
  (execAll_frame hexec hlevel).mono (Nat.le_refl 0) hslots

namespace Assertion

/-- The operands are being divided; `p` tells how far. -/
def divided (p : ℕ → View → ℕ → Prop) : Assertion :=
  fun b u v => ∃ m k l, Dividing u v m k l ∧ p b v m

/-- The division is in its course: Y counts the rounds that are left, with `i` of them already
done. -/
def restoring (i : ℕ) (r : View → ℕ) : Assertion := divided fun b v m =>
  Restored m (v.word floatB) (15 - v.y.toNat + i) (v.word floatR) (r v) ∧ 1 ≤ v.y.toNat ∧
    v.y.toNat ≤ 15 ∧ v.y.toNat ≤ b

variable {p p' : ℕ → View → ℕ → Prop} {b b' : ℕ} {u v w : View}

/-- Lines that only change the quotient and the remainder. -/
theorem divided.frame (h : divided p b u v) (hframe : v.Frame 0 quotientSlots w)
    (hp : ∀ m, 8192 ≤ m ∧ m < 16384 → 8192 ≤ v.word floatB ∧ v.word floatB < 16384 →
      w.word floatB = v.word floatB → p b v m → p' b' w m) : divided p' b' u w := by
  obtain ⟨m, k, l, hdividing, hpv⟩ := h
  have hB : w.word floatB = v.word floatB := hframe.word (by decide) (by decide)
  refine ⟨m, k, l, ?_, hp m hdividing.normal hdividing.normal' hB hpv⟩
  exact {
    place := (hframe.zp _ (by decide)).trans hdividing.place
    place' := (hframe.zp _ (by decide)).trans hdividing.place'
    first := hdividing.first
    second := hB ▸ hdividing.second
    normal := hdividing.normal
    normal' := hB ▸ hdividing.normal' }

end Assertion

/-- The quotient of the magnitudes of the operands. -/
abbrev ratio (u : View) : ℚ := sizeOf floatA u / sizeOf floatB u

namespace Flows

variable {t : Target} {α : Type} {size : Nat} {back : Back} {ahead : Ahead} {rest : Writer α}

/-- The quotient of the mantissas is developed to fifteen bits. -/
theorem restore (h : Flows (conduct t) t .floatDiv (size - 120) [] ahead 0
      ((Assertion.magnitude .div ratio).also
        (.divided fun _ v m => Restored m (v.word floatB) 15 (v.word floatR) (v.word floatA)))
      rest) :
    Flows (conduct t) t .floatDiv size back ahead 0 ((Assertion.magnitude .div ratio).also .factors)
      (imm .lda 0 >>= fun _ => zp .sta floatR >>= fun _ => zp .sta (floatR + 1) >>= fun _ =>
        imm .ldy 15 >>= fun _ =>
      Writer.here >>= fun loop => Writer.label >>= fun skip =>
        Writer.shiftLeftWord floatR >>= fun _ =>
      Writer.compareWord floatA floatB >>= fun _ => Writer.branch .bcc skip >>= fun _ =>
      Writer.subWord floatA floatA floatB >>= fun _ => zp .inc floatR >>= fun _ =>
        Writer.bind skip >>= fun _ =>
      Writer.shiftLeftWord floatA >>= fun _ => op .dey >>= fun _ => Writer.branch .bne loop >>=
        fun _ => rest) := by
  let entered : Assertion := .restoring 0 fun v => v.word floatA
  let doubled : Assertion := .restoring 1 fun v => 2 * v.word floatA
  refine .turn (R := fun _ u v => entered 15 u v) rfl (fun b u v _ hv => ?_) ?_
  · obtain ⟨k, l, hk, hl, hA, hB, hnormalA, hnormalB⟩ := hv
    exact ⟨_, rfl, v.word floatA, k, l, ⟨hk, hl, hA, hB, hnormalA, hnormalB⟩,
      .start (by omega : v.word floatA < 2 * v.word floatB),
      Nat.le_of_ble_eq_true rfl, Nat.le_refl 15, Nat.le_refl 15⟩
  refine .renew (Q := (Assertion.magnitude .div ratio).also entered) (.here fun loop => ?_)
    fun b u v hv => ⟨15, hv⟩
  refine .label ((Assertion.magnitude .div ratio).also doubled) fun skip => ?_
  refine .turn (R := fun b u w => ∃ v, entered b u v ∧ v.Frame 0 quotientSlots w ∧ w.y = v.y ∧
    w.word floatA = v.word floatA ∧
    w.word floatR = 2 * v.word floatR % 65536 ∧
    w.carry = decide (v.word floatB ≤ v.word floatA)) rfl (fun b u v _ hv => ?_) ?_
  · obtain ⟨v₁, hexec, hword, -, -, hy⟩ := shiftLeft_word v floatR
    obtain ⟨w, hexec', hcarry, hy', hzp⟩ := compare_word v₁ floatA floatB
    have hframe := frame_quotient hexec rfl (by decide)
    have hall := execAll_trans hexec hexec'
    have hframe' := frame_quotient hall rfl (by decide)
    have hA : v₁.word floatA = v.word floatA :=
      (execAll_frame hexec rfl).word (by decide) (by decide)
    have hB : v₁.word floatB = v.word floatB := hframe.word (by decide) (by decide)
    refine ⟨w, hall, v, hv, hframe', hy'.trans hy, ?_, ?_, ?_⟩
    · rw [View.word, hzp]
      exact hA
    · rw [View.word, hzp]
      exact hword
    · rw [hcarry, hA, hB]
  refine .branch (Q := (Assertion.magnitude .div ratio).also fun b u w => ∃ v, entered b u v ∧
    v.Frame 0 quotientSlots w ∧
    w.y = v.y ∧ w.word floatA = v.word floatA ∧ w.word floatR = 2 * v.word floatR % 65536 ∧
    v.word floatB ≤ v.word floatA)
    (fun b u w hw htaken => ?_) (fun b u w hw hskipped => ?_) ?_
  · obtain ⟨hmagnitude, v, hv, hframe, hy, hA, hR, hcarry⟩ := hw
    have hless : v.word floatA < v.word floatB := by simpa [View.takes?, hcarry] using htaken
    refine ⟨hmagnitude, hv.frame hframe fun m hm hn hB hround => ?_⟩
    obtain ⟨hrestored, hy1, hy15, hyb⟩ := hround
    have hbits := hrestored.lt (by omega)
    have hpow : 2 ^ (15 - v.y.toNat + 0) ≤ 2 ^ 14 := Nat.pow_le_pow_right (by decide) (by omega)
    refine ⟨?_, hy ▸ hy1, hy ▸ hy15, hy ▸ hyb⟩
    show Restored m (w.word floatB) (15 - w.y.toNat + 1) (w.word floatR) (2 * w.word floatA)
    rw [hy, hA, hB, hR, Nat.mod_eq_of_lt (by omega)]
    exact hrestored.skip hless
  · obtain ⟨hmagnitude, v, hv, hframe, hy, hA, hR, hcarry⟩ := hw
    exact ⟨hmagnitude, v, hv, hframe, hy, hA, hR, by simpa [View.takes?, hcarry] using hskipped⟩
  refine .turn (R := doubled) rfl (fun b u w _ hw => ?_) (.bind ?_)
  · obtain ⟨v, hv, hframe, hy, hA, hR, hle⟩ := hw
    have hB : w.word floatB = v.word floatB := hframe.word (by decide) (by decide)
    obtain ⟨w₁, hexec, hword, hy₁⟩ :=
      minus_word w (x := floatA) (y := floatA) (z := floatB) (by decide) (by decide)
      (by rw [hA, hB]; exact hle)
    have hframe₁ := execAll_frame hexec rfl
    have hR₁ : w₁.word floatR = w.word floatR := hframe₁.word (by decide) (by decide)
    obtain ⟨w₂, hexec', hword', hy₂⟩ := increment_word w₁ (z := floatR) (by omega)
    have hall := execAll_trans hexec hexec'
    have hframe₂ := frame_quotient hall rfl (by decide)
    have hA₂ : w₂.word floatA = w₁.word floatA :=
      (execAll_frame hexec' rfl).word (by decide) (by decide)
    refine ⟨w₂, hall, hv.frame (hframe.trans hframe₂) fun m hm hn hB₂ hround => ?_⟩
    obtain ⟨hrestored, hy1, hy15, hyb⟩ := hround
    have hbits := hrestored.lt (by omega)
    have hpow : 2 ^ (15 - v.y.toNat + 0) ≤ 2 ^ 14 := Nat.pow_le_pow_right (by decide) (by omega)
    have hy' : w₂.y = v.y := hy₂.trans (hy₁.trans hy)
    refine ⟨?_, hy' ▸ hy1, hy' ▸ hy15, hy' ▸ hyb⟩
    show Restored m (w₂.word floatB) (15 - w₂.y.toNat + 1) (w₂.word floatR) (2 * w₂.word floatA)
    rw [hy', hB₂, hword', hR₁, hR, hA₂, hword, hA, hB, Nat.mod_eq_of_lt (by omega)]
    exact hrestored.subtract hle
  refine .turn (R := .restoring 1 fun v => v.word floatA) rfl (fun b u v _ hv => ?_) ?_
  · obtain ⟨w, hexec, hword, -, -, hy⟩ := shiftLeft_word v floatA
    have hR : w.word floatR = v.word floatR :=
      (execAll_frame hexec rfl).word (by decide) (by decide)
    refine ⟨w, hexec, hv.frame (frame_quotient hexec rfl (by decide)) fun m hm hn hB hround => ?_⟩
    obtain ⟨hrestored, hrounds⟩ := hround
    have hsmall : 2 * v.word floatA < 2 * v.word floatB := hrestored.small
    refine ⟨?_, hy ▸ hrounds⟩
    show Restored m (w.word floatB) (15 - w.y.toNat + 1) (w.word floatR) (w.word floatA)
    rw [hy, hB, hR, hword, Nat.mod_eq_of_lt (by omega)]
    exact hrestored
  refine .piece (R := .divided fun b v m =>
    Restored m (v.word floatB) (15 - v.y.toNat) (v.word floatR) (v.word floatA) ∧
    v.y.toNat < b ∧ v.y.toNat < 15 ∧ v.zero = decide (v.y.toNat = 0)) rfl (fun b u v _ hv => ?_) ?_
  · have hexec : execAll v [.instr .dey .implied] = some (v.setY (v.y - 1)) := rfl
    refine ⟨_, hexec, hv.frame (frame_quotient hexec rfl (by decide)) fun m hm hn hB hround => ?_⟩
    obtain ⟨hrestored, hy1, hy15, hyb⟩ := hround
    have hnext : (v.y - 1).toNat = v.y.toNat - 1 := toNat_sub_one (by omega)
    refine ⟨?_, ?_, ?_, ?_⟩
    · show Restored m (v.word floatB) (15 - (v.y - 1).toNat) (v.word floatR) (v.word floatA)
      rw [hnext, show 15 - (v.y.toNat - 1) = 15 - v.y.toNat + 1 by omega]
      exact hrestored
    · show (v.y - 1).toNat < b
      omega
    · show (v.y - 1).toNat < 15
      omega
    · show (v.y - 1 == 0) = decide ((v.y - 1).toNat = 0)
      rw [Bool.eq_iff_iff, beq_iff_eq, eq_zero_iff, decide_eq_true_eq]
  refine .branchBack (fun b u v hv htaken => ?_) (fun b u v hv hskipped => ?_)
    (.forget (.fit h ?_) (List.nil_subset _))
  · obtain ⟨hmagnitude, m, k, l, hdividing, hrestored, hyb, hy15, hzero⟩ := hv
    have hleft : v.y.toNat ≠ 0 := by simpa [View.takes?, hzero] using htaken
    exact ⟨_, hyb, hmagnitude, m, k, l, hdividing, hrestored, Nat.pos_of_ne_zero hleft,
      hy15.le, Nat.le_refl _⟩
  · obtain ⟨hmagnitude, m, k, l, hdividing, hrestored, hyb, hy15, hzero⟩ := hv
    have hdone : v.y.toNat = 0 := by simpa [View.takes?, hzero] using hskipped
    rw [hdone] at hrestored
    exact ⟨hmagnitude, m, k, l, hdividing, hrestored⟩
  · simp only [Nat.sub_sub]
    exact Nat.sub_le_sub_left (by decide) _

/-- The quotient of the mantissas, with a lowest bit that sticks, is packed. -/
theorem packQuotient (h : Flows (conduct t) t .floatDiv (size - 200) [] ahead 0 .never rest) :
    Flows (conduct t) t .floatDiv size back ahead 0
      ((Assertion.magnitude .div ratio).also
        (.divided fun _ v m => Restored m (v.word floatB) 15 (v.word floatR) (v.word floatA)))
      (Writer.label >>= fun exact => Writer.label >>= fun pack =>
        Writer.testWord floatA >>= fun _ =>
      Writer.branch .beq exact >>= fun _ => zp .lda floatR >>= fun _ => imm .ora 0x01 >>= fun _ =>
        zp .sta floatR >>= fun _ =>
      Writer.bind exact >>= fun _ => zp .lda (work + 1) >>= fun _ => op .sec >>= fun _ =>
        zp .sbc (work + 2) >>= fun _ =>
      op .clc >>= fun _ => imm .adc 14 >>= fun _ => zp .sta (work + 1) >>= fun _ =>
        zp .lda (floatR + 1) >>= fun _ =>
      imm .and overflowBit >>= fun _ => Writer.branch .beq pack >>= fun _ =>
        Writer.shiftRightSticky floatR >>= fun _ =>
      zp .inc (work + 1) >>= fun _ => Writer.bind pack >>= fun _ => Writer.tailCall .floatPack >>=
        fun _ => rest) := by
  refine .label ((Assertion.magnitude .div ratio).also
    (.divided fun _ v m => ∃ q r, Restored m (v.word floatB) 15 q r ∧
    v.word floatR = Restored.stuck q r)) fun exact => .label (.packable .div) fun pack => ?_
  refine .turn (R := fun b u w =>
    (Assertion.divided fun _ v m => Restored m (v.word floatB) 15 (v.word floatR) (v.word floatA)) b
      u w ∧ w.zero = decide (w.word floatA = 0)) rfl (fun b u v _ hv => ?_) ?_
  · obtain ⟨w, hexec, hzero, hzp⟩ := test_word v floatA
    have hword (a : UInt8) : w.word a = v.word a := by rw [View.word, hzp]; rfl
    refine ⟨w, hexec, hv.frame (frame_quotient hexec rfl (by decide)) fun m _ _ _ hrestored =>
      ?_, ?_⟩
    · rwa [hword, hword, hword]
    · rw [hzero, hword]
  refine .branch (Q := (Assertion.magnitude .div ratio).also (.divided fun _ v m =>
      Restored m (v.word floatB) 15 (v.word floatR) (v.word floatA) ∧ v.word floatA ≠ 0))
    (fun b u v hv htaken => ?_) (fun b u v hv hskipped => ?_) ?_
  · obtain ⟨hmagnitude, ⟨m, k, l, hdividing, hrestored⟩, hzero⟩ := hv
    have hnone : v.word floatA = 0 := by simpa [View.takes?, hzero] using htaken
    exact ⟨hmagnitude, m, k, l, hdividing, _, _, hrestored, by rw [Restored.stuck, if_pos hnone]⟩
  · obtain ⟨hmagnitude, ⟨m, k, l, hdividing, hrestored⟩, hzero⟩ := hv
    exact ⟨hmagnitude, m, k, l, hdividing, hrestored, by simpa [View.takes?, hzero] using hskipped⟩
  refine .turn (R := .divided fun _ v m => ∃ q r, Restored m (v.word floatB) 15 q r ∧
    v.word floatR = Restored.stuck q r) rfl
    (fun b u v _ hv => ?_) (.bind ?_)
  · let w := (v.setA (v.zp floatR ||| 1)).store floatR (v.zp floatR ||| 1)
    have hexec : execAll v [.instr .lda (.zeroPage floatR), .instr .ora (.immediate 1),
        .instr .sta (.zeroPage floatR)] = some w :=
      rfl
    refine ⟨w, hexec, hv.frame (frame_quotient hexec rfl (by decide)) fun m _ _ hB hround => ?_⟩
    obtain ⟨hrestored, hsome⟩ := hround
    refine ⟨_, _, hB ▸ hrestored, ?_⟩
    have hlow : v.word floatR = (v.zp floatR).toNat + 256 * (v.zp (floatR + 1)).toNat := rfl
    show (v.zp floatR ||| 1).toNat + 256 * (v.zp (floatR + 1)).toNat = _
    rw [toNat_or_one, Restored.stuck, if_neg hsome, hlow]
    split_ifs <;> omega
  refine .exec (Q := fun n u v => Assertion.raised .div n u v ∧
    v.zero = decide (v.word floatR < 16384)) rfl
    (fun b u v hv => ?_) ?_
  · obtain ⟨⟨hexact, hsign⟩, m, k, l, hdividing, q, r, hrestored, hword⟩ := hv
    obtain ⟨w, hexec, hzp⟩ := difference_exponents v
    have hsmall := hdividing.first.small
    have hlarge := hdividing.first.large
    have hsmall' := hdividing.second.small
    have hlarge' := hdividing.second.large
    have hR : w.word floatR = v.word floatR := View.word_congr (by rw [hzp]; rfl) (by rw [hzp]; rfl)
    have hraised : Assertion.raised .div b u w := by
      refine ⟨signsDiffer u, k - l + 14, m * 2 ^ 14 / v.word floatB, ?_, ?_,
        ?_, by omega, by omega, ?_⟩
      · rw [hdividing.value]
        exact hexact
      · rw [hzp]
        exact hsign
      · rw [hzp, Function.update_self, hdividing.place, hdividing.place', ← ofInt_sub,
          show (14 : UInt8) = .ofInt 14 from rfl, ← UInt8.ofInt_add]
      · rw [hR, hword]
        exact hrestored.near hdividing.normal hdividing.normal'
    obtain ⟨w', hexec', hrest⟩ := raised_flag hraised
    have hall := execAll_trans hexec hexec'
    exact ⟨w', hall, hrest⟩
  refine .bringBack rfl (.bind ?_)
  refine .tailCall (by decide) trivially (fun n u v w hp hw => calculates_of_packable hp hw)
    (.forget (.fit h ?_) (List.nil_subset _))
  simp only [Nat.sub_sub]
  exact Nat.sub_le_sub_left (by decide) _

end Flows

theorem floatDiv_conducted {t : Target} : Conducted t .floatDiv := by
  refine .last ?_
  simp only [body, floatDiv, bind_assoc]
  refine .label (.undefined .div) fun nan => ?_
  refine .label (.known fun u => Numbers u ∧ Special (u.word floatA)) fun infiniteA => ?_
  refine .label (.known fun u =>
    ((Numbers u ∧ ¬Special (u.word floatA)) ∧ ¬Special (u.word floatB)) ∧ IsZero (u.word floatB))
    fun zeroB => ?_
  refine .label (.signed .div .infinite) fun infinite =>
    .label (.signed .div (.finite · 0)) fun zero => ?_
  refine .enter rfl (fun u hu => (mul_nan (u.word_lt _) (u.word_lt _) hu).2) ?_
  refine .whenSpecial (.inl rfl) (fun n u v hv hA => hv.also hA)
    (.whenSpecial (.inr rfl) (fun n u v hv hB => hv.signed ?_) ?_)
  · obtain ⟨⟨-, hnB⟩, hA⟩ := hv.2
    exact special_div (u.word_lt _) (u.word_lt _) hA hB hnB
  refine .whenZero (.inr rfl) (fun n u v hv hzB => hv.also hzB)
    (.whenZero (.inl rfl) (fun n u v hv hzA => hv.signed ?_) ?_)
  · obtain ⟨⟨⟨-, hA⟩, hB⟩, hzB⟩ := hv.2
    rw [exactly, div_finite (u.word_lt _) (u.word_lt _) hA hB hzB,
      scale_eq_zero_iff.2 hzA, zero_div]
    rfl
  refine .unpackBoth rfl (fun u hordinary => ?_) (.restore (.packQuotient (.bind ?_)))
  · obtain ⟨⟨⟨⟨_, hA⟩, hB⟩, hzB⟩, hzA⟩ := hordinary
    exact ⟨hA, hzA, hB, hzB, div_finite (u.word_lt _) (u.word_lt _) hA hB hzB⟩
  refine .whenSpecial (.inr rfl) (fun n u v hv hB => ?_) ?_
  · obtain ⟨⟨hnA, hnB⟩, hA⟩ := hv.2
    exact (div_special (u.word_lt _) (u.word_lt _) hA hnA hnB).trans (if_pos hB)
  refine .weaken (Q := .signed .div .infinite) (.jump (.bind ?_)) fun n u v hv => hv.signed ?_
  swap
  · obtain ⟨⟨⟨hnA, hnB⟩, hA⟩, hB⟩ := hv.2
    exact (div_special (u.word_lt _) (u.word_lt _) hA hnA hnB).trans (if_neg hB)
  refine .whenZero (.inl rfl) (fun n u v hv hzA => ?_) ?_
  · obtain ⟨⟨⟨-, hA⟩, -⟩, hzB⟩ := hv.2
    exact (div_isZero (u.word_lt _) (u.word_lt _) hA hzB).trans (if_pos hzA)
  refine .weaken (Q := .signed .div .infinite) (.leave rfl fun _ => .done (by decide) _)
    fun n u v hv => hv.signed ?_
  obtain ⟨⟨⟨⟨-, hA⟩, -⟩, hzB⟩, hzA⟩ := hv.2
  exact (div_isZero (u.word_lt _) (u.word_lt _) hA hzB).trans (if_neg hzA)

end Breadbin.Routine
