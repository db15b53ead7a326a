import Breadbin.Proofs.Routine.Unpacking

/-!
# Packing a number

The last step of every calculation with floating-point numbers.  A mantissa whose exponent is too
small is shifted, then it is rounded, and sign, exponent and fraction are put together.
-/

namespace Breadbin.Routine

open Assembly Machine Numeric ZeroPage Writer LinkedCode

/-! ## Bytes -/

theorem isNegative_ofInt {k : ℤ} (hk : -128 ≤ k) (hk' : k < 128) :
    isNegative (.ofInt k) = decide (k < 0) := by
  rw [isNegative, toNat_ofInt, decide_eq_decide]
  omega

theorem ofInt_beq_zero {k : ℤ} (hk : -128 ≤ k) (hk' : k < 128) :
    (UInt8.ofInt k == 0) = decide (k = 0) := by
  rw [Bool.eq_iff_iff, beq_iff_eq, eq_zero_iff, toNat_ofInt, decide_eq_true_eq]
  omega

theorem ofInt_toNat {k : ℤ} (hk : 0 ≤ k) (hk' : k < 256) : UInt8.ofInt k = .ofNat k.toNat := by
  apply UInt8.toNat_inj.1
  rw [toNat_ofInt, UInt8.toNat_ofNat']
  omega

theorem signed_ofInt {k : ℤ} (hk : -128 ≤ k) (hk' : k < 128) : Machine.signed (.ofInt k) = k := by
  rw [Machine.signed, isNegative_ofInt hk hk', toNat_ofInt]
  split
  next h =>
    rw [decide_eq_true_eq] at h
    omega
  next h =>
    rw [decide_eq_true_eq] at h
    omega

theorem ofInt_signed (b : UInt8) : .ofInt (Machine.signed b) = b := by
  have := b.toNat_lt
  apply UInt8.toNat_inj.1
  rw [toNat_ofInt, Machine.signed]
  split <;> omega

theorem signed_bounds (b : UInt8) : -128 ≤ Machine.signed b ∧ Machine.signed b < 128 := by
  have := b.toNat_lt
  rw [Machine.signed, isNegative]
  split
  next h =>
    rw [decide_eq_true_eq] at h
    omega
  next h =>
    rw [decide_eq_true_eq] at h
    omega

/-! ## Shifts that stick -/

theorem jammed_succ (m k : ℕ) : jammed m (k + 1) = halved (jammed m k) := by
  induction k generalizing m with
  | zero => rfl
  | succ k ih => exact ih (halved m)

namespace Flows

variable {t : Target} {id : RoutineId} {α : Type} {size : Nat} {back : Back} {ahead : Ahead}
  {P Q R : Assertion} {r : Footing}
  {a : UInt8} {rest : Writer α}

/-- The lowest bit of a byte is set where the carry is. -/
theorem stick [P.RestsOn r] (ha : (conduct t id).opens r a = true)
    (hR : ∀ n u v w, P n u v → Q n u v → v.Frame 0 [a] w → w.x = v.x → w.y = v.y →
      w.zp a = (if v.carry then v.zp a ||| 1 else v.zp a) → R n u w)
    (h : Flows (conduct t) t id (size - 20) back ahead 0 (P.also R) rest) :
    Flows (conduct t) t id size back ahead 0 (P.also Q) (Writer.sticky a >>= fun _ => rest) := by
  simp only [Writer.sticky, bind_assoc]
  refine .label (P.also R) fun skip => ?_
  refine .branch (Q := P.also fun n u v => Q n u v ∧ P n u v ∧
    v.carry = true) (fun n u v hv htaken => ?_) (fun n u v hv hskipped => ?_) ?_
  · have hclear : v.carry = false := by simpa [View.takes?] using htaken
    refine ⟨hv.1, hR n u v v hv.1 hv.2
      ((View.Frame.refl v).mono (Nat.le_refl 0) (List.nil_subset _)) rfl rfl ?_⟩
    rw [hclear]
    rfl
  · exact ⟨hv.1, hv.2, hv.1, by simpa [View.takes?] using hskipped⟩
  refine .turn (R := R) ?_ (fun n u v _ hv => ?_) (.bind (.forget (.fit h ?_) ?_))
  · show (true && (true && ((conduct t id).opens r a && true))) = true
    rw [ha]
    rfl
  · obtain ⟨hq, hp, hcarry⟩ := hv
    refine ⟨_, rfl, hR n u v _ hp hq (.of_eq rfl rfl rfl fun i hi => ?_) rfl rfl ?_⟩
    · exact Function.update_of_ne (by simpa using hi) _ _
    · rw [if_pos hcarry]
      exact Function.update_self ..
  · simp only [Nat.sub_sub]
    exact Nat.le_refl _
  · exact List.subset_cons_self _ _

/-- A word is halved; the lowest bit stays set if a bit is lost. -/
theorem halve [P.RestsOn r] (ha : (conduct t id).opens r a = true)
    (ha' : (conduct t id).opens r (a + 1) = true)
    (hR : ∀ n u v w, P n u v → Q n u v → v.Frame 0 [a, a + 1] w → w.x = v.x → w.y = v.y →
      w.word a = halved (v.word a) → R n u w)
    (h : Flows (conduct t) t id (size - 30) back ahead 0 (P.also R) rest) :
    Flows (conduct t) t id size back ahead 0 (P.also Q)
      (Writer.shiftRightSticky a >>= fun _ => rest) := by
  simp only [Writer.shiftRightSticky, bind_assoc]
  refine .piece (R := fun n u w => ∃ v, P n u v ∧ Q n u v ∧ v.Frame 0 [a, a + 1] w ∧
    w.x = v.x ∧ w.y = v.y ∧
    w.word a = v.word a / 2 ∧ w.carry = decide (v.word a % 2 = 1)) ?_ (fun n u v hp hq => ?_) ?_
  · show ((conduct t id).opens r (a + 1) && ((conduct t id).opens r a && true)) = true
    rw [ha, ha']
    rfl
  · obtain ⟨w, hexec, hword, hcarry, hy⟩ := shiftRight_word v a
    have hframe : v.Frame 0 [a, a + 1] w :=
      (execAll_frame hexec rfl).mono (Nat.le_refl 0) (by simp [slots])
    have hx : w.x = v.x := execAll_x hexec rfl
    exact ⟨w, hexec, v, hp, hq, hframe, hx, hy, hword, hcarry⟩
  refine .stick ha (fun n u w w' _ hv hframe' hx' hy' hlow' => ?_) (.fit h (by omega))
  obtain ⟨v, hp, hq, hframe, hx, hy, hword, hcarry⟩ := hv
  refine hR n u v w' hp hq (hframe.trans (hframe'.mono (Nat.le_refl 0) (by simp)))
    (hx'.trans hx) (hy'.trans hy) ?_
  have hhigh' : w'.zp (a + 1) = w.zp (a + 1) := hframe'.zp _ (by simp)
  have hbit := toNat_or_one (w.zp a)
  rw [View.word] at hword
  rw [View.word, hlow', hhigh', hcarry, halved, apply_ite UInt8.toNat, hbit]
  simp only [decide_eq_true_eq]
  split_ifs <;> omega

end Flows

/-! ## Small exponents -/

/-- The exponent of the number that is packed. -/
def exponentOf (u : View) : ℤ := Machine.signed (u.zp (work + 1))

/-- The exponent of the number that is packed, brought up to one. -/
def placeOf (u : View) : ℤ := max (exponentOf u) 1

/-- The mantissa of the number that is packed, after it has been shifted as far as it has to be. -/
def shiftedOf (u : View) : ℕ := jammed (u.word floatR) (1 - exponentOf u).toNat

namespace Assertion

/-- The mantissa has been shifted by `j` places, and some are left. -/
def sinking (j : ℕ) : Assertion := fun n u v =>
  v.zp (work + 1) = .ofInt (exponentOf u + j) ∧ v.word floatR = jammed (u.word floatR) j ∧
    (1 - exponentOf u).toNat - j ≤ n

/-- The mantissa has been shifted by some places. -/
def denormal : Assertion := fun n u v => ∃ j ≤ (1 - exponentOf u).toNat, sinking j n u v

/-- The mantissa has to be shifted once more. -/
def subnormal : Assertion := fun n u v => ∃ j < (1 - exponentOf u).toNat, sinking j n u v

/-- The mantissa is ready to be rounded. -/
def placed : Assertion := fun _ u v => v.zp (work + 1) = .ofInt (placeOf u) ∧
    v.word floatR = shiftedOf u

/-- The mantissa is being rounded; `p` tells its word by what it was. -/
def rounding (p : ℕ → ℕ → Prop) : Assertion := fun _ u v =>
  v.zp (work + 1) = .ofInt (placeOf u) ∧ p (shiftedOf u) (v.word floatR)

end Assertion

theorem exponentOf_bounds (u : View) : -128 ≤ exponentOf u ∧ exponentOf u < 128 := signed_bounds _

/-- The word is made an eighth of what it was, and the remainder is compared with five. -/
theorem eighth_word (v : View) :
    ∃ w, execAll v [.instr .lda (.zeroPage floatR), .instr .and (.immediate 0x07),
      .instr .sta (.zeroPage (work + 2)), .instr .lsr (.zeroPage (floatR + 1)),
        .instr .ror (.zeroPage floatR),
        .instr .lsr (.zeroPage (floatR + 1)), .instr .ror (.zeroPage floatR),
        .instr .lsr (.zeroPage (floatR + 1)), .instr .ror (.zeroPage floatR),
        .instr .lda (.zeroPage (work + 2)), .instr .cmp (.immediate 5)] = some w ∧
      w.zp (work + 1) = v.zp (work + 1) ∧ w.word floatR = v.word floatR / 8 ∧
        w.a.toNat = v.word floatR % 8 ∧
      w.carry = decide (5 ≤ v.word floatR % 8) := by
  let v₀ := (v.setA (v.zp floatR &&& 0x07)).store (work + 2) (v.zp floatR &&& 0x07)
  obtain ⟨v₁, h₁, hword₁, -⟩ := shiftRight_word v₀ floatR
  obtain ⟨v₂, h₂, hword₂, -⟩ := shiftRight_word v₁ floatR
  obtain ⟨v₃, h₃, hword₃, -⟩ := shiftRight_word v₂ floatR
  have hshifts := execAll_trans h₁ (execAll_trans h₂ h₃)
  have hframe := execAll_frame hshifts rfl
  have hkept : v₃.zp (work + 1) = v.zp (work + 1) := hframe.zp _ (by decide)
  have hrest : v₃.zp (work + 2) = v.zp floatR &&& 0x07 := hframe.zp _ (by decide)
  have hlow := low_eq v floatR
  have hmask := and_0x07 (v.zp floatR)
  have hfirst : execAll v [.instr .lda (.zeroPage floatR), .instr .and (.immediate 0x07),
      .instr .sta (.zeroPage (work + 2))] = some v₀ := rfl
  have hlast (u : View) :
      execAll u [.instr .lda (.zeroPage (work + 2)), .instr .cmp (.immediate 5)] =
      some ((u.setA (u.zp (work + 2))).compare (u.zp (work + 2)) 5) := rfl
  refine ⟨_, execAll_trans hfirst (execAll_trans hshifts (hlast v₃)), hkept, ?_, ?_, ?_⟩
  · show v₃.word floatR = v.word floatR / 8
    rw [hword₃, hword₂, hword₁]
    show v.word floatR / 2 / 2 / 2 = _
    omega
  · show (v₃.zp (work + 2)).toNat = _
    rw [hrest, hmask, hlow]
    omega
  · show decide ((5 : UInt8).toNat ≤ (v₃.zp (work + 2)).toNat) = _
    rw [hrest, hmask, hlow]
    rw [decide_eq_decide]
    show 5 ≤ _ ↔ _
    omega

/-! ## The routine -/

/-- The number that is packed has its leading one in its place. -/
def Packable (u : View) : Prop := 8192 ≤ u.word floatR ∧ u.word floatR < 16384

namespace Assertion

/-- The sign is where it was. -/
abbrev signKept : Assertion := .byte work fun u b => b = u.zp work

/-- Exponent and mantissa give the lower bits of the result when they are added. -/
def rounded : Assertion := fun _ u v => ∃ e : ℕ, 1 ≤ e ∧ e ≤ 128 ∧ v.zp (work + 1) = .ofNat e ∧
  (Packable u → v.word floatR < 2048 ∧ (1024 ≤ v.word floatR ∨ e = 1) ∧
    min infinityBits ((e - 1) * 1024 + v.word floatR) = packed (exponentOf u) (u.word floatR))

/-- The higher byte of the result is in A, without the sign. -/
def composed : Assertion := fun _ u v => Packable u →
  256 * v.a.toNat + (v.zp floatR).toNat = packed (exponentOf u) (u.word floatR)

/-- The number is too large. -/
def infinite : Assertion := fun _ u _ => Packable u →
    packed (exponentOf u) (u.word floatR) = infinityBits

end Assertion

theorem packs_of_word {u w : View} (hword : returnsWord floatR w)
    (h : Packable u → ∀ s, u.zp work = signByte s →
      w.word floatR = signBit s + packed (exponentOf u) (u.word floatR)) :
    packs u w :=
  ⟨hword, fun s hs hlow hhigh => h ⟨hlow, hhigh⟩ s hs⟩

theorem jammed_le (m k : ℕ) : jammed m k ≤ m := by
  induction k generalizing m with
  | zero => exact Nat.le_refl m
  | succ k ih =>
    refine (ih (halved m)).trans ?_
    unfold halved
    split <;> omega

theorem shiftedOf_lt (u : View) : shiftedOf u < 65536 :=
  Nat.lt_of_le_of_lt (jammed_le _ _) (u.word_lt _)

/-- The rounded mantissa, and whether there is a carry out of it. -/
theorem eighth_shiftedOf {u : View} (h : Packable u) :
    shiftedOf u < 16384 ∧ eighth (shiftedOf u) ≤ 2048 ∧
      (1024 ≤ eighth (shiftedOf u) ∨ placeOf u = 1) := by
  have hlt : shiftedOf u < 16384 := jammed_lt h.2 _
  obtain ⟨hle, hge⟩ := eighth_bounds hlt
  refine ⟨hlt, hle, ?_⟩
  rcases le_or_gt (exponentOf u) 1 with hsmall | hlarge
  · exact .inr (max_eq_right hsmall)
  · have hnone : shiftedOf u = u.word floatR := by
      rw [shiftedOf, show (1 - exponentOf u).toNat = 0 by omega]
      rfl
    exact .inl (hge (hnone ▸ h.1))

theorem rounded_of_eighth {n : ℕ} {u v : View} (hexponent : v.zp (work + 1) = .ofInt (placeOf u))
    (hword : v.word floatR = eighth (shiftedOf u))
    (hless : Packable u → eighth (shiftedOf u) < 2048) :
    Assertion.rounded n u v := by
  have hbounds := exponentOf_bounds u
  have hplace : 1 ≤ placeOf u ∧ placeOf u < 128 := by
    rw [placeOf]
    omega
  refine ⟨(placeOf u).toNat, by omega, by omega, ?_, fun hpack => ?_⟩
  · rw [hexponent, ofInt_toNat (by omega) (by omega)]
  · obtain ⟨-, -, hnormal⟩ := eighth_shiftedOf hpack
    rw [hword]
    refine ⟨hless hpack, hnormal.imp_right fun h => by omega, ?_⟩
    rw [packed, show (max (exponentOf u) 1 - 1).toNat =
      (placeOf u).toNat - 1 by rw [placeOf]; omega]
    rfl

/-- The carry out of a mantissa is brought back. -/
theorem rounded_of_carry {n : ℕ} {u v : View} (hexponent : v.zp (work + 1) = .ofInt (placeOf u + 1))
    (hword : v.word floatR = eighth (shiftedOf u) / 2)
    (hcarry : eighth (shiftedOf u) / 2048 % 2 = 1) :
    Assertion.rounded n u v := by
  have hbounds := exponentOf_bounds u
  have hplace : 1 ≤ placeOf u ∧ placeOf u < 128 := by
    rw [placeOf]
    omega
  refine ⟨(placeOf u + 1).toNat, by omega, by omega, ?_, fun hpack => ?_⟩
  · rw [hexponent, ofInt_toNat (by omega) (by omega)]
  · obtain ⟨-, hle, -⟩ := eighth_shiftedOf hpack
    have hfull : eighth (shiftedOf u) = 2048 := by omega
    rw [hword, hfull]
    refine ⟨by decide, .inl (by decide), ?_⟩
    rw [packed, show (max (exponentOf u) 1 - 1).toNat =
      (placeOf u + 1).toNat - 1 - 1 by rw [placeOf]; omega]
    change _ = min infinityBits (_ + eighth (shiftedOf u))
    rw [hfull]
    refine congrArg (min infinityBits) ?_
    generalize hnext : (placeOf u + 1).toNat = e
    have : 2 ≤ e := by omega
    omega

namespace Flows

/-- A mantissa is rounded: it is made an eighth of what it was, and one is added if the rest asks
for it. A carry out of the mantissa is brought back. -/
theorem round {t : Target} {α : Type} {size : Nat} {back : Back} {rest : Writer α}
    (h : Flows (conduct t) t .floatPack (size - 130) [] [] 0
      (Assertion.signKept.also .rounded) rest) :
    Flows (conduct t) t .floatPack size back [] 0 (Assertion.signKept.also .placed)
      (Writer.label >>= fun up =>
      Writer.label >>= fun carry => Writer.label >>= fun rounded =>
      zp .lda floatR >>= fun _ => imm .and 0x07 >>= fun _ => zp .sta (work + 2) >>= fun _ =>
      shiftRightWord floatR >>= fun _ => shiftRightWord floatR >>= fun _ =>
        shiftRightWord floatR >>= fun _ =>
      zp .lda (work + 2) >>= fun _ => imm .cmp 5 >>= fun _ => Writer.branch .bcs up >>= fun _ =>
      imm .cmp 4 >>= fun _ => Writer.branch .bne rounded >>= fun _ =>
      zp .lda floatR >>= fun _ => imm .and 0x01 >>= fun _ => Writer.branch .beq rounded >>= fun _ =>
      Writer.bind up >>= fun _ => zp .inc floatR >>= fun _ => Writer.branch .bne carry >>= fun _ =>
      zp .inc (floatR + 1) >>= fun _ => Writer.bind carry >>= fun _ =>
        zp .lda (floatR + 1) >>= fun _ =>
      imm .and 0x08 >>= fun _ => Writer.branch .beq rounded >>= fun _ =>
        shiftRightWord floatR >>= fun _ =>
      zp .inc (work + 1) >>= fun _ => Writer.bind rounded >>= fun _ => rest) := by
  refine .label (Assertion.signKept.also (.rounding fun m w => w + 1 = eighth m)) fun up => ?_
  refine .label (Assertion.signKept.also (.rounding fun m w => w = eighth m)) fun carry => ?_
  refine .label (Assertion.signKept.also .rounded) fun rounded => ?_
  refine .turn (R := fun n u v => Assertion.rounding (fun m w => w = m / 8) n u v ∧
    v.a.toNat = shiftedOf u % 8 ∧
    v.carry = decide (5 ≤ shiftedOf u % 8)) rfl (fun n u v _ hv => ?_) ?_
  · obtain ⟨hexponent, hshifted⟩ := hv
    obtain ⟨w, hexec, hkept, hword, ha, hcarry⟩ := eighth_word v
    rw [hshifted] at hword ha hcarry
    exact ⟨w, hexec, ⟨hkept.trans hexponent, hword⟩, ha, hcarry⟩
  refine .branch (Q := Assertion.signKept.also fun n u v =>
    Assertion.rounding (fun m w => w = m / 8 ∧ m % 8 < 5) n u v ∧
    v.a.toNat = shiftedOf u % 8) (fun n u v hv htaken => ?_) (fun n u v hv hskipped => ?_) ?_
  · obtain ⟨hsign, ⟨hexponent, hword⟩, -, hcarry⟩ := hv
    have hmore : 5 ≤ shiftedOf u % 8 := by simpa [View.takes?, hcarry] using htaken
    refine ⟨hsign, hexponent, ?_⟩
    show v.word floatR + 1 = eighth (shiftedOf u)
    rw [hword, eighth, if_pos (.inl hmore)]
  · obtain ⟨hsign, ⟨hexponent, hword⟩, ha, hcarry⟩ := hv
    have hless : shiftedOf u % 8 < 5 := by simpa [View.takes?, hcarry] using hskipped
    exact ⟨hsign, ⟨hexponent, hword, hless⟩, ha⟩
  refine .turn (R := fun n u v => Assertion.rounding (fun m w => w = m / 8 ∧ m % 8 < 5) n u v ∧
    v.zero = decide (shiftedOf u % 8 = 4)) rfl (fun n u v _ hv => ?_) ?_
  · obtain ⟨hrounding, ha⟩ := hv
    refine ⟨_, rfl, hrounding, ?_⟩
    show (v.a - 4 == 0) = _
    rw [Bool.eq_iff_iff, beq_iff_eq, eq_zero_iff, UInt8.toNat_sub, decide_eq_true_eq, ha]
    show (256 - 4 + _) % 256 = 0 ↔ _
    omega
  refine .branch (Q :=
    Assertion.signKept.also (.rounding fun m w => w = m / 8 ∧ m % 8 = 4)) (fun n u v hv htaken =>
      ?_)
    (fun n u v hv hskipped => ?_) ?_
  · obtain ⟨hsign, ⟨hexponent, hword, hless⟩, hzero⟩ := hv
    have hne : shiftedOf u % 8 ≠ 4 := by simpa [View.takes?, hzero] using htaken
    have heighth : eighth (shiftedOf u) = shiftedOf u / 8 := by
      rw [eighth, if_neg (by omega), Nat.add_zero]
    refine ⟨hsign, rounded_of_eighth hexponent (by rw [hword, heighth]) fun hpack => ?_⟩
    have := (eighth_shiftedOf hpack).1
    omega
  · obtain ⟨hsign, ⟨hexponent, hword, hless⟩, hzero⟩ := hv
    exact ⟨hsign, hexponent, hword, by simpa [View.takes?, hzero] using hskipped⟩
  -- half of a unit is lost: the even one of the neighbours is taken
  refine .turn (R := fun n u v => Assertion.rounding (fun m w => w = m / 8 ∧ m % 8 = 4) n u v ∧
    v.zero = decide (v.word floatR % 2 = 0)) rfl (fun n u v _ hv => ⟨_, rfl, hv, ?_⟩) ?_
  · show (v.zp floatR &&& 1 == 0) = decide (v.word floatR % 2 = 0)
    have hmask := and_low (v.zp floatR) 1 (by decide)
    have hlow := low_eq v floatR
    change (v.zp floatR &&& 1).toNat = _ at hmask
    rw [Bool.eq_iff_iff, beq_iff_eq, eq_zero_iff, decide_eq_true_eq, hmask]
    omega
  refine .branch (Q :=
    Assertion.signKept.also (.rounding fun m w => w + 1 = eighth m)) (fun n u v hv htaken => ?_)
    (fun n u v hv hskipped => ?_) (.bind ?_)
  · obtain ⟨hsign, ⟨hexponent, hword, hhalf⟩, hzero⟩ := hv
    have heven : v.word floatR % 2 = 0 := by simpa [View.takes?, hzero] using htaken
    have heighth : eighth (shiftedOf u) = shiftedOf u / 8 := by
      rw [eighth, if_neg (by omega), Nat.add_zero]
    refine ⟨hsign, rounded_of_eighth hexponent (by rw [hword, heighth]) fun hpack => ?_⟩
    have := (eighth_shiftedOf hpack).1
    omega
  · obtain ⟨hsign, ⟨hexponent, hword, hhalf⟩, hzero⟩ := hv
    have hodd : v.word floatR % 2 = 1 := by simpa [View.takes?, hzero] using hskipped
    refine ⟨hsign, hexponent, ?_⟩
    show v.word floatR + 1 = eighth (shiftedOf u)
    rw [eighth, if_pos (.inr ⟨hhalf, by omega⟩), hword]
  refine .turn (R := fun n u v => v.zp (work + 1) = .ofInt (placeOf u) ∧
    v.word floatR + (if v.zero then 256 else 0) = eighth (shiftedOf u) ∧
    v.zero = (v.zp floatR == 0)) rfl
    (fun n u v _ hv => ?_) ?_
  · obtain ⟨hexponent, hword⟩ := hv
    refine ⟨_, rfl, hexponent, ?_, ?_⟩
    · rw [← hword]
      show (v.zp floatR + 1).toNat + 256 * (v.zp (floatR + 1)).toNat +
        (if v.zp floatR + 1 == 0 then 256 else 0) = _
      have := (v.zp floatR).toNat_lt
      simp only [beq_iff_eq, eq_zero_iff, View.word, UInt8.toNat_add, UInt8.toNat_one]
      split <;> omega
    · rfl
  refine .branch (Q := Assertion.signKept.also fun n u v => v.zp (work + 1) = .ofInt (placeOf u) ∧
    v.word floatR + 256 = eighth (shiftedOf u)) (fun n u v hv htaken =>
      ?_) (fun n u v hv hskipped => ?_) ?_
  · obtain ⟨hsign, hexponent, hword, -⟩ := hv
    have hzero : v.zero = false := by simpa [View.takes?] using htaken
    rw [hzero] at hword
    exact ⟨hsign, hexponent, hword⟩
  · obtain ⟨hsign, hexponent, hword, -⟩ := hv
    have hzero : v.zero = true := by simpa [View.takes?] using hskipped
    rw [hzero] at hword
    exact ⟨hsign, hexponent, hword⟩
  refine .turn (R := .rounding fun m w => w = eighth m) rfl (fun n u v _ hv => ?_) (.bind ?_)
  · obtain ⟨hexponent, hword⟩ := hv
    refine ⟨_, rfl, hexponent, ?_⟩
    show (v.zp floatR).toNat + 256 * (v.zp (floatR + 1) + 1).toNat = _
    have hlt := shiftedOf_lt u
    have heighth : eighth (shiftedOf u) ≤ shiftedOf u / 8 + 1 := by
      unfold eighth
      split <;> omega
    rw [View.word] at hword
    rw [UInt8.toNat_add, UInt8.toNat_one]
    omega
  refine .turn (R := fun n u v => Assertion.rounding (fun m w => w = eighth m) n u v ∧
    v.zero = decide (v.word floatR / 2048 % 2 = 0)) rfl (fun n u v _ hv => ⟨_, rfl, hv, ?_⟩) ?_
  · show (v.zp (floatR + 1) &&& 0x08 == 0) = decide (v.word floatR / 2048 % 2 = 0)
    rw [and_0x08, high_eq, decide_eq_decide]
    omega
  refine .branch (Q :=
    Assertion.signKept.also (.rounding fun m w => w = eighth m ∧ w / 2048 % 2 = 1))
    (fun n u v hv htaken => ?_) (fun n u v hv hskipped => ?_) ?_
  · obtain ⟨hsign, ⟨hexponent, hword⟩, hzero⟩ := hv
    have hnone : v.word floatR / 2048 % 2 = 0 := by simpa [View.takes?, hzero] using htaken
    refine ⟨hsign, rounded_of_eighth hexponent hword fun hpack => ?_⟩
    have := (eighth_shiftedOf hpack).2.1
    omega
  · obtain ⟨hsign, ⟨hexponent, hword⟩, hzero⟩ := hv
    exact ⟨hsign, hexponent, hword, by simpa [View.takes?, hzero] using hskipped⟩
  refine .turn (R := .rounded) rfl (fun n u v _ hv => ?_)
    (.bind (.forget (.fit h (by omega)) (List.nil_subset _)))
  obtain ⟨hexponent, hword, hcarry⟩ := hv
  obtain ⟨w, hexec, hhalf, -⟩ := shiftRight_word v floatR
  have hkept : w.zp (work + 1) = v.zp (work + 1) := (execAll_frame hexec rfl).zp _ (by decide)
  have hnext : execAll w [.instr .inc (.zeroPage (work + 1))] =
      some ((w.store (work + 1) (w.zp (work + 1) + 1)).flags (w.zp (work + 1) + 1)) := rfl
  refine ⟨_, execAll_trans hexec hnext, rounded_of_carry ?_ ?_ (hword ▸ hcarry)⟩
  · show w.zp (work + 1) + 1 = _
    rw [hkept, hexponent, ofInt_add_one]
  · show w.word floatR = _
    rw [hhalf, hword]

/-- The fields of a rounded number are put together. -/
theorem pack {t : Target} :
    Flows (conduct t) t .floatPack 200 [] [] 0 (Assertion.signKept.also .rounded)
      (Writer.label >>= fun infinite =>
      Writer.label >>= fun subnormal => Writer.label >>= fun sign =>
      zp .lda (work + 1) >>= fun _ => imm .cmp 31 >>= fun _ =>
        Writer.branch .bcs infinite >>= fun _ =>
      zp .lda (floatR + 1) >>= fun _ => imm .and 0x04 >>= fun _ =>
        Writer.branch .beq subnormal >>= fun _ =>
      zp .lda (work + 1) >>= fun _ => op .asl >>= fun _ => op .asl >>= fun _ =>
        zp .sta (work + 2) >>= fun _ =>
      zp .lda (floatR + 1) >>= fun _ => imm .and 0x03 >>= fun _ => zp .ora (work + 2) >>= fun _ =>
      Writer.jump sign >>= fun _ => Writer.bind subnormal >>= fun _ =>
        zp .lda (floatR + 1) >>= fun _ =>
      Writer.bind sign >>= fun _ => zp .ora work >>= fun _ => zp .sta (floatR + 1) >>= fun _ =>
      returnWord floatR >>= fun _ => Writer.bind infinite >>= fun _ =>
        returnSigned exponentBits >>= fun _ =>
      pure ()) := by
  refine .label (Assertion.signKept.also .infinite) fun infinite => ?_
  refine .label (Assertion.signKept.also fun n u v => Assertion.rounded n u v ∧
    v.word floatR / 1024 % 2 = 0) fun subnormal => ?_
  refine .label (Assertion.signKept.also .composed) fun sign => ?_
  refine .turn (R := fun n u v => Assertion.rounded n u v ∧
    v.carry = decide (31 ≤ (v.zp (work + 1)).toNat)) rfl
    (fun n u v _ hv => ⟨_, rfl, hv, rfl⟩) ?_
  refine .branch (Q := Assertion.signKept.also fun n u v => Assertion.rounded n u v ∧
    (v.zp (work + 1)).toNat < 31)
    (fun n u v hv htaken => ?_) (fun n u v hv hskipped => ?_) ?_
  · obtain ⟨hsign, ⟨e, he, he', hexponent, hrounded⟩, hcarry⟩ := hv
    have hlarge : 31 ≤ (v.zp (work + 1)).toNat := by simpa [View.takes?, hcarry] using htaken
    rw [hexponent, UInt8.toNat_ofNat'] at hlarge
    refine ⟨hsign, fun hpack => ?_⟩
    obtain ⟨-, hnormal, hpacked⟩ := hrounded hpack
    rw [← hpacked, infinityBits]
    omega
  · obtain ⟨hsign, hrounded, hcarry⟩ := hv
    exact ⟨hsign, hrounded, by simpa [View.takes?, hcarry] using hskipped⟩
  refine .turn (R := fun n u v => (Assertion.rounded n u v ∧ (v.zp (work + 1)).toNat < 31) ∧
    v.zero = decide (v.word floatR / 1024 % 2 = 0)) rfl (fun n u v _ hv => ⟨_, rfl, hv, ?_⟩) ?_
  · show (v.zp (floatR + 1) &&& 0x04 == 0) = decide (v.word floatR / 1024 % 2 = 0)
    rw [and_0x04, high_eq, decide_eq_decide]
    omega
  refine .branch (Q := Assertion.signKept.also fun n u v =>
    (Assertion.rounded n u v ∧ (v.zp (work + 1)).toNat < 31) ∧
    v.word floatR / 1024 % 2 = 1) (fun n u v hv htaken => ?_) (fun n u v hv hskipped => ?_) ?_
  · obtain ⟨hsign, ⟨hrounded, -⟩, hzero⟩ := hv
    exact ⟨hsign, hrounded, by simpa [View.takes?, hzero] using htaken⟩
  · obtain ⟨hsign, hrounded, hzero⟩ := hv
    exact ⟨hsign, hrounded, by simpa [View.takes?, hzero] using hskipped⟩
  -- the leading one of a normal number is not written
  refine .turn (R := .composed) rfl (fun n u v _ hv => ?_) (.jump (.bind ?_))
  · obtain ⟨⟨⟨e, he, he', hexponent, hrounded⟩, hless⟩, hnormal⟩ := hv
    rw [hexponent, UInt8.toNat_ofNat'] at hless
    let field : UInt8 := .ofNat (2 * (UInt8.ofNat (2 * (v.zp (work + 1)).toNat)).toNat)
    have hfield : field.toNat = 4 * e := by
      show (UInt8.ofNat (2 * (UInt8.ofNat (2 * (v.zp (work + 1)).toNat)).toNat)).toNat = 4 * e
      simp only [hexponent, UInt8.toNat_ofNat']
      omega
    have hmask := and_0x03 (v.zp (floatR + 1))
    have hsum := or_low (x := v.zp (floatR + 1) &&& 3) (y := field) (by omega) (by omega)
    have hhigh := high_eq v floatR
    have hlow := low_eq v floatR
    refine ⟨_, rfl, fun hpack => ?_⟩
    obtain ⟨hlt, -, hpacked⟩ := hrounded hpack
    have hbits : infinityBits = 31744 := rfl
    show 256 * (v.zp (floatR + 1) &&& 3 ||| field).toNat + (v.zp floatR).toNat = _
    rw [← hpacked]
    omega
  -- the exponent of a subnormal number is written as zero
  refine .turn (R := .composed) rfl (fun n u v _ hv => ?_) (.bind ?_)
  · obtain ⟨⟨e, -, -, -, hrounded⟩, hsubnormal⟩ := hv
    refine ⟨_, rfl, fun hpack => ?_⟩
    obtain ⟨hlt, hone, hpacked⟩ := hrounded hpack
    have hbits : infinityBits = 31744 := rfl
    have hhigh := high_eq v floatR
    have hlow := low_eq v floatR
    show 256 * (v.zp (floatR + 1)).toNat + (v.zp floatR).toNat = _
    obtain rfl : e = 1 := by omega
    rw [← hpacked]
    omega
  refine .exec (Q := fun _ u v => packs u v) rfl (fun n u v hv => ?_)
    (.rts (fun _ _ _ h => h) (.bind ?_))
  · obtain ⟨hsign, hcomposed⟩ := hv
    refine ⟨_, rfl, packs_of_word ⟨rfl, rfl⟩ fun hpack s hs => ?_⟩
    have hword := hcomposed hpack
    have hle : packed (exponentOf u) (u.word floatR) ≤ infinityBits := Nat.min_le_left _ _
    have hor : (v.a ||| v.zp work).toNat = v.a.toNat + signBit s / 256 := by
      rw [show v.zp work = signByte s from hsign.trans hs]
      have hbits : infinityBits = 31744 := rfl
      cases s with
      | true => exact or_high v.a 7 (by decide) (by omega)
      | false => simp [signByte, signBit]
    have hsignBit : signBit s % 256 = 0 := by cases s <;> rfl
    show (v.zp floatR).toNat + 256 * (v.a ||| v.zp work).toNat = _
    omega
  refine .exec (Q := fun _ u v => packs u v) rfl (fun n u v hv => ?_)
    (.rts (fun _ _ _ h => h) (.done (by decide) _))
  · obtain ⟨hsign, hinfinite⟩ := hv
    refine ⟨_, rfl, packs_of_word ⟨rfl, rfl⟩ fun hpack s hs => ?_⟩
    have hzp : v.zp work = signByte s := hsign.trans hs
    rw [hinfinite hpack]
    show (0 : UInt8).toNat + 256 * (0x7C ||| Function.update v.zp floatR 0 work).toNat = _
    have hzp' : Function.update v.zp floatR 0 work = signByte s :=
      (Function.update_of_ne (by decide) _ _).trans hzp
    rw [hzp']
    cases s <;> rfl

end Flows

theorem floatPack_conducted {t : Target} : Conducted t .floatPack := by
  refine .last ?_
  simp only [body, floatPack, bind_assoc]
  refine .label (Assertion.signKept.also .denormal) fun denorm => ?_
  refine .label (Assertion.signKept.also .subnormal) fun shift => ?_
  refine .label (Assertion.signKept.also .placed) fun round => ?_
  refine .renew (Q := Assertion.signKept.also .denormal) (.bind ?_) fun n u v huv => ?_
  swap
  · subst huv
    refine ⟨_, rfl, 0, Nat.zero_le _, ?_, rfl, Nat.le_refl _⟩
    show u.zp (work + 1) = .ofInt (exponentOf u + 0)
    rw [Int.add_zero]
    exact (ofInt_signed _).symm
  refine .turn (R := fun n u v => ∃ j ≤ (1 - exponentOf u).toNat, Assertion.sinking j n u v ∧
    v.negative = decide (exponentOf u + j < 0) ∧
    v.zero = decide (exponentOf u + j = 0)) rfl (fun n u v _ hv => ?_) ?_
  · obtain ⟨j, hj, hexponent, hword, hn⟩ := hv
    have hbounds := exponentOf_bounds u
    refine ⟨_, rfl, j, hj, ⟨hexponent, hword, hn⟩, ?_, ?_⟩
    · show isNegative (v.zp (work + 1)) = _
      rw [hexponent, isNegative_ofInt (by omega) (by omega)]
    · show (v.zp (work + 1) == 0) = _
      rw [hexponent, ofInt_beq_zero (by omega) (by omega)]
  refine .branch (Q := Assertion.signKept.also fun n u v => ∃ j ≤ (1 - exponentOf u).toNat,
    Assertion.sinking j n u v ∧
    0 ≤ exponentOf u + j ∧ v.zero = decide (exponentOf u + j = 0)) (fun n u v hv htaken =>
      ?_) (fun n u v hv hskipped => ?_) ?_
  · obtain ⟨hsign, j, hj, hsinking, hnegative, -⟩ := hv
    have : exponentOf u + j < 0 := by simpa [View.takes?, hnegative] using htaken
    exact ⟨hsign, j, by omega, hsinking⟩
  · obtain ⟨hsign, j, hj, hsinking, hnegative, hzero⟩ := hv
    have : 0 ≤ exponentOf u + j := by simpa [View.takes?, hnegative] using hskipped
    exact ⟨hsign, j, hj, hsinking, this, hzero⟩
  refine .branch (Q := Assertion.signKept.also .subnormal) (fun n u v hv htaken =>
    ?_) (fun n u v hv hskipped => ?_) (.bind ?_)
  · obtain ⟨hsign, j, hj, ⟨hexponent, hword, -⟩, hle, hzero⟩ := hv
    have hne : exponentOf u + j ≠ 0 := by simpa [View.takes?, hzero] using htaken
    obtain rfl : j = (1 - exponentOf u).toNat := by omega
    refine ⟨hsign, ?_, hword⟩
    rw [hexponent, placeOf]
    congr 1
    omega
  · obtain ⟨hsign, j, hj, hsinking, hle, hzero⟩ := hv
    have : exponentOf u + j = 0 := by simpa [View.takes?, hzero] using hskipped
    exact ⟨hsign, j, by omega, hsinking⟩
  refine .halve (R := fun n u v => ∃ j < (1 - exponentOf u).toNat,
    v.zp (work + 1) = .ofInt (exponentOf u + j) ∧
    v.word floatR = jammed (u.word floatR) (j + 1) ∧ (1 - exponentOf u).toNat - j ≤ n) rfl rfl
    (fun n u v w _ hv hframe _ _ hword => ?_) ?_
  · obtain ⟨j, hj, hexponent, hjammed, hn⟩ := hv
    refine ⟨j, hj, (hframe.zp _ (by decide)).trans hexponent, ?_, hn⟩
    rw [hword, hjammed, jammed_succ]
  refine .turn (R := fun n u v => ∃ m < n, Assertion.denormal m u v) rfl (fun n u v _ hv => ?_) ?_
  · obtain ⟨j, hj, hexponent, hjammed, hn⟩ := hv
    refine ⟨_, rfl, (1 - exponentOf u).toNat - (j + 1), by
      omega, j + 1, hj, ?_, hjammed, Nat.le_refl _⟩
    show v.zp (work + 1) + 1 = _
    rw [hexponent, ofInt_add_one]
    push_cast
    rw [Int.add_assoc]
  refine .jumpBack (fun n u v hv => ?_) (.bind (.round (.fit .pack (by decide))))
  obtain ⟨hsign, m, hm, hdenormal⟩ := hv
  exact ⟨m, hm, hsign, hdenormal⟩

end Breadbin.Routine
