import Breadbin.Proofs.Routine.Division

/-!
# Division with signs

The signed routines divide magnitudes by the unsigned ones and set the signs of the quotient and the
remainder afterwards.  Division by zero is left to the unsigned routines altogether.
-/

namespace Breadbin.Routine

open Assembly Machine ZeroPage

/-! ## Signs in numbers -/

/-- Changes the sign of a number of `m` values, or leaves it. -/
def negateWhen (m : Nat) (on : Bool) (n : Nat) : Nat := if on then (m - n) % m else n

theorem cast_negateWhen {m n : Nat} (on : Bool) (h : n < m) :
    ((negateWhen m on n : Nat) : Int) = (if on then -(n : Int) else n) % m := by
  cases on with
  | false => simp [negateWhen, Int.emod_eq_of_lt, h]
  | true =>
    simp only [negateWhen, if_true]
    rw [Int.natCast_emod, Int.natCast_sub h.le, Int.sub_eq_add_neg, Int.add_comm,
      Int.add_emod_right]

/-- The magnitude of a number that is read with a sign. -/
def magnitude (m n : Nat) : Nat := negateWhen m (m ≤ 2 * n) n

theorem bmod_eq_magnitude {m n : Nat} (hm : m % 2 = 0) (h : n < m) :
    magnitude m n < m ∧
      (n : Int).bmod m = if m ≤ 2 * n then -(magnitude m n : Int) else magnitude m n := by
  have hmod : (n : Int) % m = n := Int.emod_eq_of_lt (by omega) (by omega)
  rw [Int.bmod, hmod, magnitude, negateWhen]
  by_cases hn : m ≤ 2 * n
  · have : (m - n) % m = m - n := Nat.mod_eq_of_lt (by omega)
    simp only [hn, decide_true, if_true, this]
    exact ⟨by omega, by split <;> omega⟩
  · simp only [hn, decide_false, Bool.false_eq_true, if_false]
    exact ⟨h, by split <;> omega⟩

/-- Magnitudes with their signs set are what division towards zero gives. -/
theorem signed_division {m n d : Nat} (hm : m % 2 = 0) (hn : n < m) (hd : d < m) :
    ((negateWhen m ((m ≤ 2 * n) != (m ≤ 2 * d)) (magnitude m n / magnitude m d) : Nat) : Int) =
        ((n : Int).bmod m).tdiv ((d : Int).bmod m) % m ∧
      ((negateWhen m (m ≤ 2 * n) (magnitude m n % magnitude m d) : Nat) : Int) =
        ((n : Int).bmod m).tmod ((d : Int).bmod m) % m := by
  obtain ⟨hln, hsn⟩ := bmod_eq_magnitude hm hn
  obtain ⟨-, hsd⟩ := bmod_eq_magnitude hm hd
  have hq : magnitude m n / magnitude m d < m := Nat.lt_of_le_of_lt (Nat.div_le_self _ _) hln
  have hr : magnitude m n % magnitude m d < m := Nat.lt_of_le_of_lt (Nat.mod_le _ _) hln
  rw [cast_negateWhen _ hq, cast_negateWhen _ hr, hsn, hsd]
  by_cases hneg : m ≤ 2 * n <;> by_cases hneg' : m ≤ 2 * d <;>
    simp [hneg, hneg', Int.neg_tdiv, Int.tdiv_neg, Int.neg_tmod, Int.tmod_neg, ← Int.ofNat_tmod]

/-- The quotient towards zero of numbers below `m` that are read with a sign. -/
def signedQuotient (m dividend divisor : Nat) : Int :=
  if divisor = 0 then m - 1 else ((dividend : Int).bmod m).tdiv ((divisor : Int).bmod m) % m

/-- The remainder of that division. -/
def signedRemainder (m dividend divisor : Nat) : Int :=
  ((dividend : Int).bmod m).tmod ((divisor : Int).bmod m) % m

theorem signedRemainder_zero {m n : Nat} (h : n < m) : signedRemainder m n 0 = n := by
  rw [signedRemainder, Int.natCast_zero, Int.zero_bmod, Int.tmod_zero, Int.bmod_emod]
  exact Int.emod_eq_of_lt (by omega) (by omega)

theorem magnitude_le {m n : Nat} (h : n < m) : 2 * magnitude m n ≤ m := by
  rw [magnitude, negateWhen]
  split
  next hhigh =>
    rw [decide_eq_true_eq] at hhigh
    rw [Nat.mod_eq_of_lt (by omega)]
    omega
  next hlow =>
    rw [decide_eq_true_eq] at hlow
    omega

theorem magnitude_ne_zero {m n : Nat} (h : n < m) (hn : n ≠ 0) : magnitude m n ≠ 0 := by
  rw [magnitude, negateWhen]
  split
  · rw [Nat.mod_eq_of_lt (by omega)]
    omega
  · exact hn

variable {code : LinkedCode} {a b : Nat}

theorem isNegative_eq (n : UInt8) : isNegative n = decide (256 ≤ 2 * n.toNat) := by
  rw [Bool.eq_iff_iff, decide_eq_true_eq, isNegative, decide_eq_true_eq]
  omega

/-! ## Bytes -/

/-- Replaces a signed byte by its magnitude. -/
def absoluteByteLines (z : UInt8) (positive : LabelId) : List Line :=
  [.instr .lda (.zeroPage z), .instr .bpl (.relative positive), .instr .eor (.immediate 0xFF),
    .instr .clc .implied, .instr .adc (.immediate 1), .instr .sta (.zeroPage z), .bound positive]

/-- Keeps the signs of the quotient and the remainder. -/
def divS8Signs : List Line :=
  [.instr .lda (.zeroPage intA), .instr .sta (.zeroPage (work + 3)), .instr .eor (.zeroPage intB),
    .instr .sta (.zeroPage (work + 2))]

/-- Gives the quotient in A its sign. -/
def divS8Quotient (done : LabelId) : List Line :=
  [.instr .ldx (.zeroPage (work + 2)), .instr .bpl (.relative done), .instr .eor (.immediate 0xFF),
    .instr .clc .implied, .instr .adc (.immediate 1), .instr .sta (.zeroPage intR), .bound done]

/-- Gives the remainder its sign. -/
def divS8Remainder (done : LabelId) : List Line :=
  [.instr .lda (.zeroPage (work + 3)), .instr .bpl (.relative done), .instr .lda (.immediate 0),
    .instr .sec .implied, .instr .sbc (.zeroPage intRemainder),
    .instr .sta (.zeroPage intRemainder),
    .bound done]

/-- The division of signed bytes. -/
def divS8Lines (unsigned proceed first second quotientDone remainderDone : LabelId) : List Line :=
  .instr .lda (.zeroPage intB) :: .instr .bne (.relative proceed) ::
    .instr .jmp (.absolute (.ofLabel unsigned)) :: .bound proceed :: (divS8Signs ++
      (absoluteByteLines intA first ++ (absoluteByteLines intB second ++
        .instr .jsr (.absolute (.ofLabel unsigned)) :: (divS8Quotient quotientDone ++
          (divS8Remainder remainderDone ++ [.instr .lda (.zeroPage intR), .instr .rts .implied])))))

theorem divS8_writes {w : Workspace} {unsigned : LabelId} (h : w.label? .divU8 = some unsigned) :
    ∃ proceed first second quotientDone remainderDone, w.Writes (divS8 w).2
      (divS8Lines unsigned proceed first second quotientDone remainderDone) := by
  have hrequire {v : Workspace} (hv : v.label? .divU8 = some unsigned) :
      v.require .divU8 = (v, unsigned) := Workspace.require_alone (by decide +kernel) hv
  simp only [divS8, absoluteByte, negateA, Writer.tailCall, Writer.call, Writer.bind_apply,
    Writer.zp_apply, Writer.imm_apply, Writer.op_apply, Writer.branch_apply, Writer.jump_apply,
    Writer.callLabel_apply, Writer.bound_apply, Writer.label_apply,
    Writer.require_apply, hrequire, h,
    Workspace.label?_writing, Workspace.label?_labelled, Workspace.writing_writing,
    List.cons_append, List.nil_append, Action.ownArg]
  exact ⟨_, _, _, _, _,
    ((((((((((Workspace.Writes.refl w).labelled []).writing rfl).labelled []).writing
    rfl).labelled []).writing rfl).labelled []).labelled []).writing rfl)⟩

/-- A byte becomes its magnitude. -/
theorem absoluteByte_path {z : UInt8} {positive : LabelId}
    (h : code.Installed a (absoluteByteLines z positive) b) (v : View) :
    ∃ w, code.Path 0 [z] a v b w ∧ (w.zp z).toNat = magnitude 256 (v.zp z).toNat := by
  obtain ⟨b1, hlda, h⟩ := h.cons
  obtain ⟨b2, hbpl, h⟩ := h.cons
  obtain ⟨b3, hnegate, h⟩ := h.split [_, _, _, _]
  obtain ⟨hpositive, h⟩ := h.label
  obtain rfl := h.nil
  have h1 : code.Path 0 [z] a v b1 _ := hlda.path rfl rfl (by simp [slots])
  rw [magnitude, ← isNegative_eq]
  cases hneg : isNegative (v.zp z) with
  | false =>
    exact ⟨_, h1.trans (hbpl.branch_taken hpositive (by simp [View.takes?, hneg])).path, rfl⟩
  | true =>
    refine ⟨_, (h1.trans (hbpl.branch_skipped hpositive (by simp [View.takes?, hneg])).path).trans
      (hnegate.path rfl rfl (by simp [slots])), ?_⟩
    have := (v.zp z).toNat_lt
    simp [negateWhen]
    omega

/-- The quotient gets its sign. -/
theorem divS8Quotient_path {done : LabelId} (h : code.Installed a (divS8Quotient done) b) (v : View)
    (hr : v.zp intR = v.a) :
    ∃ w, code.Path 0 [intR] a v b w ∧
      (w.zp intR).toNat = negateWhen 256 (isNegative (v.zp (work + 2))) v.a.toNat := by
  obtain ⟨b1, hldx, h⟩ := h.cons
  obtain ⟨b2, hbpl, h⟩ := h.cons
  obtain ⟨b3, hnegate, h⟩ := h.split [_, _, _, _]
  obtain ⟨hdone, h⟩ := h.label
  obtain rfl := h.nil
  have h1 : code.Path 0 [intR] a v b1 _ := hldx.path rfl rfl (by decide)
  have := v.a.toNat_lt
  cases hneg : isNegative (v.zp (work + 2)) with
  | false =>
    refine ⟨_, h1.trans (hbpl.branch_taken hdone (by simp [View.takes?, hneg])).path, ?_⟩
    simp [negateWhen, hr]
  | true =>
    refine ⟨_, (h1.trans (hbpl.branch_skipped hdone (by simp [View.takes?, hneg])).path).trans
      (hnegate.path rfl rfl (by decide)), ?_⟩
    simp [negateWhen]
    omega

/-- The remainder gets its sign. -/
theorem divS8Remainder_path {done : LabelId} (h : code.Installed a (divS8Remainder done) b)
    (v : View) :
    ∃ w, code.Path 0 [intRemainder] a v b w ∧
      (w.zp intRemainder).toNat =
        negateWhen 256 (isNegative (v.zp (work + 3))) (v.zp intRemainder).toNat := by
  obtain ⟨b1, hlda, h⟩ := h.cons
  obtain ⟨b2, hbpl, h⟩ := h.cons
  obtain ⟨b3, hnegate, h⟩ := h.split [_, _, _, _]
  obtain ⟨hdone, h⟩ := h.label
  obtain rfl := h.nil
  have h1 : code.Path 0 [intRemainder] a v b1 _ := hlda.path rfl rfl (by decide)
  have := (v.zp intRemainder).toNat_lt
  cases hneg : isNegative (v.zp (work + 3)) with
  | false =>
    refine ⟨_, h1.trans (hbpl.branch_taken hdone (by simp [View.takes?, hneg])).path, ?_⟩
    simp [negateWhen]
  | true =>
    refine ⟨_, (h1.trans (hbpl.branch_skipped hdone (by simp [View.takes?, hneg])).path).trans
      (hnegate.path rfl rfl (by decide)), ?_⟩
    simp [negateWhen]
    omega

/-- What the division of signed bytes changes. -/
def divS8Slots : List UInt8 := [work + 2, work + 3, intA, intB] ++ divU8Slots

/-- The quotient and the remainder of two signed bytes. -/
def signedByteDivision : LinkedCode.Behaviour where
  depth := 2
  slots := divS8Slots
  ends v w := (w.a.toNat : Int) = signedQuotient 256 (v.zp intA).toNat (v.zp intB).toNat ∧
    ((w.zp intRemainder).toNat : Int) = signedRemainder 256 (v.zp intA).toNat (v.zp intB).toNat
  level h := h

/-- **The routine divides signed bytes.** -/
theorem divS8_behaves {unsigned proceed first second quotientDone remainderDone : LabelId}
    {target : Nat}
    (h : code.Installed a (divS8Lines unsigned proceed first second quotientDone remainderDone) b)
    (hunsigned : code.At unsigned target) (hdivides : code.Behaves target byteDivision) :
    code.Behaves a signedByteDivision := by
  intro v
  obtain ⟨b1, hlda, h⟩ := h.cons
  obtain ⟨b2, hbne, h⟩ := h.cons
  obtain ⟨b3, hjmp, h⟩ := h.cons
  obtain ⟨hproceed, h⟩ := h.label
  obtain ⟨b4, hsigns, h⟩ := h.split _
  obtain ⟨b5, hfirst, h⟩ := h.split _
  obtain ⟨b6, hsecond, h⟩ := h.split _
  obtain ⟨b7, hjsr, h⟩ := h.cons
  obtain ⟨b8, hquotient, h⟩ := h.split _
  obtain ⟨b9, hremainder, h⟩ := h.split _
  obtain ⟨b10, hend, hrts⟩ := h.cons
  have hltA := (v.zp intA).toNat_lt
  have hltB := (v.zp intB).toNat_lt
  obtain ⟨v1, h1, htest, hz1⟩ :
      ∃ w, code.Path 2 divS8Slots a v b1 w ∧ w.zero = (v.zp intB == 0) ∧ w.zp = v.zp :=
    ⟨_, hlda.path rfl rfl (by decide), rfl, rfl⟩
  by_cases hd : v.zp intB = 0
  · -- the unsigned routine ends the whole
    have htail : code.Path 2 divS8Slots a v target v1 :=
      (h1.trans (hbne.branch_skipped hproceed (by simp [View.takes?, htest, hd])).path).trans
        (hjmp.jump hunsigned).path
    obtain ⟨w, hreturns, hframe, hquot, -, hrem⟩ := hdivides v1
    refine ⟨w, htail.returns hreturns,
      htail.frame.trans (hframe.mono (by decide) (by decide)), ?_, ?_⟩
    · rw [hquot, hz1, hd]
      simp [quotient, signedQuotient]
    · rw [hrem, hz1, hd, UInt8.toNat_zero, signedRemainder_zero hltA, Nat.mod_zero]
  · have hne : (v.zp intB).toNat ≠ 0 := mt eq_zero_iff.2 hd
    have htaken := hbne.branch_taken (v := v1) hproceed (by simp [View.takes?, htest, hd])
    obtain ⟨v2, h2, hA2, hB2, hr2, hq2⟩ :
        ∃ w, code.Path 2 divS8Slots a v b4 w ∧ w.zp intA = v.zp intA ∧ w.zp intB = v.zp intB ∧
          w.zp (work + 3) = v.zp intA ∧ w.zp (work + 2) = v.zp intA ^^^ v.zp intB :=
      ⟨_, (h1.trans htaken.path).trans (hsigns.path rfl rfl (by decide)), by simp +decide [hz1],
        by simp +decide [hz1], by simp +decide [hz1], by simp +decide [hz1]⟩
    obtain ⟨v3, h3, hA3⟩ := absoluteByte_path hfirst v2
    obtain ⟨v4, h4, hB4⟩ := absoluteByte_path hsecond v3
    obtain ⟨v5, h5, hq5, hr5, hrem5⟩ := hdivides.call hunsigned hjsr (by decide) v4
    obtain ⟨v6, h6, hq6⟩ := divS8Quotient_path hquotient v5 hr5
    obtain ⟨v7, h7, hrem7⟩ := divS8Remainder_path hremainder v6
    have hpath : code.Path 2 divS8Slots a v b10 _ :=
      (((((h2.trans (h3.mono (by decide) (by decide))).trans
        (h4.mono (by decide) (by decide))).trans
        (h5.mono (by decide) (by decide))).trans (h6.mono (by decide) (by decide))).trans
        (h7.mono (by decide) (by decide))).trans (hend.path rfl rfl (by decide))
    have hA : (v4.zp intA).toNat = magnitude 256 (v.zp intA).toNat := by
      rw [h4.frame.zp _ (by decide), hA3, hA2]
    have hB : (v4.zp intB).toNat = magnitude 256 (v.zp intB).toNat := by
      rw [hB4, h3.frame.zp _ (by decide), hB2]
    have hsign : v5.zp (work + 2) = v.zp intA ^^^ v.zp intB := by
      rw [h5.frame.zp _ (by decide), h4.frame.zp _ (by decide), h3.frame.zp _ (by decide), hq2]
    have hsign' : v6.zp (work + 3) = v.zp intA := by
      rw [h6.frame.zp _ (by decide), h5.frame.zp _ (by decide), h4.frame.zp _ (by decide),
        h3.frame.zp _ (by decide), hr2]
    have hdivision := signed_division (by decide) hltA hltB
    refine ⟨_, ⟨b10, b, hpath.reaches, hrts⟩, hpath.frame, ?_, ?_⟩
    · rw [signedQuotient, if_neg hne, ← hdivision.1]
      change ((v7.zp intR).toNat : Int) = _
      rw [h7.frame.zp _ (by decide), hq6, hsign, hq5, hA, hB, isNegative_xor, isNegative_eq,
        isNegative_eq, quotient, if_neg (magnitude_ne_zero hltB hne)]
    · rw [signedRemainder, ← hdivision.2]
      change ((v7.zp intRemainder).toNat : Int) = _
      rw [hrem7, hsign', h6.frame.zp _ (by decide), hrem5, hA, hB, isNegative_eq]

/-! ## Words -/

/-- Changes the sign of a word when a byte is negative. -/
def negateWordLines (sign z : UInt8) (positive : LabelId) : List Line :=
  [.instr .lda (.zeroPage sign), .instr .bpl (.relative positive), .instr .sec .implied,
    .instr .lda (.immediate 0), .instr .sbc (.zeroPage z), .instr .sta (.zeroPage z),
    .instr .lda (.immediate 0), .instr .sbc (.zeroPage (z + 1)), .instr .sta (.zeroPage (z + 1)),
    .bound positive]

/-- Keeps the signs of the quotient and the remainder. -/
def divS16Signs : List Line :=
  [.instr .lda (.zeroPage (intA + 1)), .instr .sta (.zeroPage (work + 1)),
    .instr .eor (.zeroPage (intB + 1)), .instr .sta (.zeroPage work)]

/-- The division of signed words. -/
def divS16Lines (unsigned proceed first second quotientDone remainderDone : LabelId) : List Line :=
  .instr .lda (.zeroPage intB) :: .instr .ora (.zeroPage (intB + 1)) ::
    .instr .bne (.relative proceed) :: .instr .jmp
      (.absolute (.ofLabel unsigned)) :: .bound proceed ::
      (divS16Signs ++ (negateWordLines (intA + 1) intA first ++
        (negateWordLines (intB + 1) intB second ++ .instr .jsr (.absolute (.ofLabel unsigned)) ::
          (negateWordLines work intR quotientDone ++
            (negateWordLines (work + 1) intRemainder remainderDone ++
              ([.instr .lda (.zeroPage intR), .instr .ldx (.zeroPage (intR + 1))] ++
                [.instr .rts .implied]))))))

theorem divS16_writes {w : Workspace} {unsigned : LabelId} (h : w.label? .divU16 = some unsigned) :
    ∃ proceed first second quotientDone remainderDone, w.Writes (divS16 w).2
      (divS16Lines unsigned proceed first second quotientDone remainderDone) := by
  have hrequire {v : Workspace} (hv : v.label? .divU16 = some unsigned) :
      v.require .divU16 = (v, unsigned) := Workspace.require_alone (by decide +kernel) hv
  simp only [divS16, Writer.testWord, Writer.absoluteWord, Writer.negateWord, Writer.returnWord,
    Writer.tailCall, Writer.call, Writer.bind_apply, Writer.zp_apply, Writer.imm_apply,
    Writer.op_apply, Writer.branch_apply, Writer.jump_apply, Writer.callLabel_apply,
    Writer.bound_apply, Writer.label_apply, Writer.require_apply, hrequire, h,
    Workspace.label?_writing,
    Workspace.label?_labelled, Workspace.writing_writing, List.cons_append, List.nil_append,
    Action.ownArg]
  exact ⟨_, _, _, _, _,
    ((((((((((Workspace.Writes.refl w).labelled []).writing rfl).labelled []).writing
    rfl).labelled []).writing rfl).labelled []).labelled []).writing rfl)⟩

/-- A word gets its sign. -/
theorem negateWord_path {sign z : UInt8} {positive : LabelId}
    (h : code.Installed a (negateWordLines sign z positive) b) (v : View) :
    ∃ w, code.Path 0 [z, z + 1] a v b w ∧
      w.word z = negateWhen 65536 (isNegative (v.zp sign)) (v.word z) := by
  obtain ⟨b1, hlda, h⟩ := h.cons
  obtain ⟨b2, hbpl, h⟩ := h.cons
  obtain ⟨b3, hnegate, h⟩ := h.split [_, _, _, _, _, _, _]
  obtain ⟨hpositive, h⟩ := h.label
  obtain rfl := h.nil
  obtain ⟨v1, h1, hneg1, hz1⟩ :
      ∃ w, code.Path 0 [z, z + 1] a v b1 w ∧ w.negative = isNegative (v.zp sign) ∧ w.zp = v.zp :=
    ⟨_, hlda.path rfl rfl (by simp [slots]), rfl, rfl⟩
  have hword : v1.word z = v.word z := View.word_congr (by rw [hz1]) (by rw [hz1])
  cases hneg : isNegative (v.zp sign) with
  | false =>
    exact ⟨v1, h1.trans (hbpl.branch_taken hpositive (by simp [View.takes?, hneg1, hneg])).path,
      hword⟩
  | true =>
    obtain ⟨w, hexec, hw⟩ := negate_word v1 z
    refine ⟨w, (h1.trans
      (hbpl.branch_skipped hpositive (by simp [View.takes?, hneg1, hneg])).path).trans
      (hnegate.path hexec rfl (by simp [slots])), ?_⟩
    rw [hw, hword, negateWhen, if_pos rfl]

theorem isNegative_high (v : View) (z : UInt8) :
    isNegative (v.zp (z + 1)) = decide (65536 ≤ 2 * v.word z) := by
  have := (v.zp z).toNat_lt
  rw [Bool.eq_iff_iff, decide_eq_true_eq, isNegative, decide_eq_true_eq, View.word]
  omega

/-- What the division of signed words changes. -/
def divS16Slots : List UInt8 := [work, work + 1, intA, intA + 1, intB, intB + 1] ++ divU16Slots

/-- The quotient and the remainder of two signed words. -/
def signedWordDivision : LinkedCode.Behaviour where
  depth := 2
  slots := divS16Slots
  ends v w := ((w.a.toNat + 256 * w.x.toNat : Nat) : Int) =
    signedQuotient 65536 (v.word intA) (v.word intB) ∧
    (w.word intRemainder : Int) = signedRemainder 65536 (v.word intA) (v.word intB)
  level h := h

/-- **The routine divides signed words.** -/
theorem divS16_behaves {unsigned proceed first second quotientDone remainderDone : LabelId}
    {target : Nat}
    (h : code.Installed a (divS16Lines unsigned proceed first second quotientDone remainderDone) b)
    (hunsigned : code.At unsigned target) (hdivides : code.Behaves target wordDivision) :
    code.Behaves a signedWordDivision := by
  intro v
  obtain ⟨b1, htest, h⟩ := h.split [_, _]
  obtain ⟨b2, hbne, h⟩ := h.cons
  obtain ⟨b3, hjmp, h⟩ := h.cons
  obtain ⟨hproceed, h⟩ := h.label
  obtain ⟨b4, hsigns, h⟩ := h.split _
  obtain ⟨b5, hfirst, h⟩ := h.split _
  obtain ⟨b6, hsecond, h⟩ := h.split _
  obtain ⟨b7, hjsr, h⟩ := h.cons
  obtain ⟨b8, hquotient, h⟩ := h.split _
  obtain ⟨b9, hremainder, h⟩ := h.split _
  obtain ⟨b10, hend, hrts⟩ := h.split _
  have hltA := v.word_lt intA
  have hltB := v.word_lt intB
  obtain ⟨v1, hexec, hzero1, hz1⟩ := test_word v intB
  have h1 : code.Path 2 divS16Slots a v b1 v1 := htest.path hexec rfl (by decide)
  have hwords (z : UInt8) : v1.word z = v.word z := View.word_congr (by rw [hz1]) (by rw [hz1])
  by_cases hd : v.word intB = 0
  · -- the unsigned routine ends the whole
    have htail : code.Path 2 divS16Slots a v target v1 :=
      (h1.trans (hbne.branch_skipped hproceed (by simp [View.takes?, hzero1, hd])).path).trans
        (hjmp.jump hunsigned).path
    obtain ⟨w, hreturns, hframe, hquot, -, hrem⟩ := hdivides v1
    refine ⟨w, htail.returns hreturns,
      htail.frame.trans (hframe.mono (by decide) (by decide)), ?_, ?_⟩
    · rw [hquot, hwords, hwords, hd]
      simp [quotient, signedQuotient]
    · rw [hrem, hwords, hwords, hd, signedRemainder_zero hltA, Nat.mod_zero]
  · have htaken := hbne.branch_taken (v := v1) hproceed (by simp [View.takes?, hzero1, hd])
    obtain ⟨v2, h2, hz2, hr2, hq2⟩ :
        ∃ w, code.Path 2 divS16Slots a v b4 w ∧ (∀ z, z ∉ [work, work + 1] → w.zp z = v.zp z) ∧
          w.zp (work + 1) = v.zp (intA + 1) ∧ w.zp work = v.zp (intA + 1) ^^^ v.zp (intB + 1) := by
      refine ⟨_, (h1.trans htaken.path).trans (hsigns.path rfl rfl (by decide)), ?_, ?_, ?_⟩
      · intro z hz
        simp only [List.mem_cons, List.not_mem_nil, or_false, not_or] at hz
        simp [Function.update_of_ne, hz.1, hz.2, hz1]
      · simp +decide [hz1]
      · simp +decide [hz1]
    have hA2 : v2.word intA = v.word intA := View.word_congr (hz2 _ (by decide)) (hz2 _ (by decide))
    have hB2 : v2.word intB = v.word intB := View.word_congr (hz2 _ (by decide)) (hz2 _ (by decide))
    obtain ⟨v3, h3, hA3⟩ := negateWord_path hfirst v2
    obtain ⟨v4, h4, hB4⟩ := negateWord_path hsecond v3
    obtain ⟨v5, h5, -, hq5, hr5⟩ := hdivides.call hunsigned hjsr (by decide) v4
    obtain ⟨v6, h6, hq6⟩ := negateWord_path hquotient v5
    obtain ⟨v7, h7, hr7⟩ := negateWord_path hremainder v6
    have hpath : code.Path 2 divS16Slots a v b10 _ :=
      (((((h2.trans (h3.mono (by decide) (by decide))).trans
        (h4.mono (by decide) (by decide))).trans
        (h5.mono (by decide) (by decide))).trans (h6.mono (by decide) (by decide))).trans
        (h7.mono (by decide) (by decide))).trans (hend.path rfl rfl (by decide))
    have hA : v4.word intA = magnitude 65536 (v.word intA) := by
      rw [h4.frame.word (by decide) (by decide), hA3, isNegative_high, hA2, magnitude]
    have hB : v4.word intB = magnitude 65536 (v.word intB) := by
      rw [hB4, isNegative_high, h3.frame.word (by decide) (by decide), hB2, magnitude]
    have hsign : v5.zp work = v.zp (intA + 1) ^^^ v.zp (intB + 1) := by
      rw [h5.frame.zp _ (by decide), h4.frame.zp _ (by decide), h3.frame.zp _ (by decide), hq2]
    have hsign' : v6.zp (work + 1) = v.zp (intA + 1) := by
      rw [h6.frame.zp _ (by decide), h5.frame.zp _ (by decide), h4.frame.zp _ (by decide),
        h3.frame.zp _ (by decide), hr2]
    have hdivision := signed_division (by decide) hltA hltB
    refine ⟨_, ⟨b10, b, hpath.reaches, hrts⟩, hpath.frame, ?_, ?_⟩
    · rw [signedQuotient, if_neg hd, ← hdivision.1]
      change (v7.word intR : Int) = _
      rw [h7.frame.word (by decide) (by decide), hq6, hsign, hq5, hA, hB, isNegative_xor,
        isNegative_high, isNegative_high, quotient, if_neg (magnitude_ne_zero hltB hd)]
    · rw [signedRemainder, ← hdivision.2]
      change (v7.word intRemainder : Int) = _
      rw [hr7, hsign', h6.frame.word (by decide) (by decide), hr5, hA, hB, isNegative_high]

end Breadbin.Routine
