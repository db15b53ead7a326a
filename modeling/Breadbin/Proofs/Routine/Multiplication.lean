import Mathlib.Algebra.Group.Nat.Defs
import Breadbin.Proofs.Machine.Word
import Breadbin.Proofs.Routine.Writing
import Breadbin.Routine.Integer

/-!
# Multiplication

Both routines shift the multiplier right and the multiplicand left, and add the multiplicand where
the multiplier has a bit.  What has been added plus the product of what is left stays the same.
-/

namespace Breadbin.Routine

open Assembly Machine ZeroPage

/-- One bit of the multiplier. -/
theorem mul_step (m sum multiplier multiplicand : Nat) :
    ((sum + multiplier % 2 * multiplicand) % m + multiplier / 2 * (2 * multiplicand % m)) % m =
      (sum + multiplier * multiplicand) % m := by
  have hsplit : multiplier * multiplicand =
      multiplier % 2 * multiplicand + multiplier / 2 * (2 * multiplicand) := by
    conv => lhs; rw [← Nat.mod_add_div multiplier 2, Nat.add_mul]
    rw [Nat.mul_comm 2 (multiplier / 2), Nat.mul_assoc]
  rw [hsplit, ← Nat.add_assoc, Nat.add_mod, Nat.mod_mod, Nat.mul_mod, Nat.mod_mod, ← Nat.mul_mod,
    ← Nat.add_mod]

/-! ## Bytes -/

/-- Bytes to multiply, and a cleared sum. -/
def mul8Setup : List Line :=
  [.instr .lda (.zeroPage intA), .instr .sta (.zeroPage (work + 1)), .instr .lda (.zeroPage intB),
    .instr .sta (.zeroPage work), .instr .lda (.immediate 0), .instr .ldx (.immediate 8)]

/-- The multiplication of bytes behind its start. -/
def mul8Loop (loop skip : LabelId) : List Line :=
  [.instr .lsr (.zeroPage work), .instr .bcc (.relative skip), .instr .clc .implied,
    .instr .adc (.zeroPage (work + 1)), .bound skip, .instr .asl (.zeroPage (work + 1)),
    .instr .dex .implied, .instr .bne (.relative loop)]

/-- The multiplication of bytes. -/
def mul8Lines (loop skip : LabelId) : List Line :=
  mul8Setup ++ .bound loop :: (mul8Loop loop skip ++
    [.instr .sta (.zeroPage intR), .instr .rts .implied])

theorem mul8_writes (w : Workspace) : ∃ loop skip, w.Writes (mul8 w).2 (mul8Lines loop skip) := by
  simp only [mul8, Writer.bind_apply, Writer.zp_apply, Writer.imm_apply, Writer.op_apply,
    Writer.branch_apply, Writer.bound_apply, Writer.label_apply, Writer.here_apply,
    Workspace.writing_writing,
    List.cons_append, List.nil_append, Action.ownArg]
  exact ⟨_, _, ((((((Workspace.Writes.refl w).writing rfl).labelled []).writing rfl).labelled
    []).writing rfl)⟩

variable {code : LinkedCode} {a b : Nat}

/-- One round adds the multiplicand if the multiplier is odd, and shifts both. -/
theorem mul8_round {loop skip : LabelId} (h : code.Installed a (mul8Loop loop skip) b)
    (hloop : code.At loop a) (v : View) :
    ∃ w, code.Path 0 [work, work + 1] a v (if w.x = 0 then b else a) w ∧ w.x = v.x - 1 ∧
      w.a.toNat = (v.a.toNat + (v.zp work).toNat % 2 * (v.zp (work + 1)).toNat) % 256 ∧
      (w.zp work).toNat = (v.zp work).toNat / 2 ∧
      (w.zp (work + 1)).toNat = 2 * (v.zp (work + 1)).toNat % 256 := by
  obtain ⟨b1, hlsr, h⟩ := h.cons
  obtain ⟨b2, hbcc, h⟩ := h.cons
  obtain ⟨b3, hadd, h⟩ := h.split [_, _]
  obtain ⟨hskip, h⟩ := h.label
  obtain ⟨b4, hshift, hbne⟩ := h.split [_, _]
  have hlt := (v.zp work).toNat_lt
  obtain ⟨v1, h1, hcarry, hx1, ha1, hw1, hm1⟩ :
      ∃ w, code.Path 0 [work, work + 1] a v b1 w ∧ w.carry = decide ((v.zp work).toNat % 2 = 1) ∧
        w.x = v.x ∧ w.a = v.a ∧ (w.zp work).toNat = (v.zp work).toNat / 2 ∧
        w.zp (work + 1) = v.zp (work + 1) :=
    ⟨_, hlsr.path rfl rfl (by decide), rfl, rfl, rfl, by simp; omega, rfl⟩
  -- the multiplicand is added only on one way, but both ways meet at the shift
  obtain ⟨v2, h2, hx2, ha2, hw2, hm2⟩ :
      ∃ w, code.Path 0 [work, work + 1] b1 v1 b3 w ∧ w.x = v.x ∧
        w.a.toNat = (v.a.toNat + (v.zp work).toNat % 2 * (v.zp (work + 1)).toNat) % 256 ∧
        w.zp work = v1.zp work ∧ w.zp (work + 1) = v.zp (work + 1) := by
    rcases Nat.mod_two_eq_zero_or_one (v.zp work).toNat with heven | hodd
    · refine ⟨v1, (hbcc.branch_taken hskip (by simp [View.takes?, hcarry, heven])).path,
        hx1, ?_, rfl, hm1⟩
      have := v.a.toNat_lt
      rw [ha1, heven]
      omega
    · refine ⟨_, (hbcc.branch_skipped hskip (by simp [View.takes?, hcarry, hodd])).path.trans
        (hadd.path rfl rfl (by decide)), hx1, ?_, rfl, hm1⟩
      simp [ha1, hm1, hodd]
  obtain ⟨v3, h3, hzero, hx3, ha3, hw3, hm3⟩ :
      ∃ w, code.Path 0 [work, work + 1] b3 v2 b4 w ∧ w.zero = (w.x == 0) ∧ w.x = v2.x - 1 ∧
        w.a = v2.a ∧ w.zp work = v2.zp work ∧
        (w.zp (work + 1)).toNat = 2 * (v2.zp (work + 1)).toNat % 256 :=
    ⟨_, hshift.path rfl rfl (by decide), rfl, rfl, rfl, rfl, by simp⟩
  refine ⟨v3, ((h1.trans h2).trans h3).trans (hbne.again hloop hzero), ?_, ?_, ?_, ?_⟩
  · rw [hx3, hx2]
  · rw [ha3, ha2]
  · rw [hw3, hw2, hw1]
  · rw [hm3, hm2]

/-- The rounds add the product of what is left. -/
theorem mul8_rounds {loop skip : LabelId} (h : code.Installed a (mul8Loop loop skip) b)
    (hloop : code.At loop a) (v : View) (hx : v.x = 8) :
    ∃ w, code.Path 0 [work, work + 1] a v b w ∧
      w.a.toNat = (v.a.toNat + (v.zp work).toNat * (v.zp (work + 1)).toNat) % 256 := by
  let Inv (n : Nat) (w : View) : Prop := (w.zp work).toNat < 2 ^ n ∧
    (w.a.toNat + (w.zp work).toNat * (w.zp (work + 1)).toNat) % 256 =
      (v.a.toNat + (v.zp work).toNat * (v.zp (work + 1)).toNat) % 256
  obtain ⟨w, hpath, hbits, hsum⟩ := LinkedCode.Path.countdown View.x Inv
    (fun n u ⟨hbits, hsum⟩ => by
      obtain ⟨w, hpath, hx', ha, hw, hm⟩ := mul8_round h hloop u
      refine ⟨w, hpath, hx', ?_, ?_⟩
      · rw [Nat.pow_succ] at hbits
        omega
      · rw [ha, hw, hm, mul_step, hsum])
    7 v (by rw [hx]; rfl) ⟨(v.zp work).toNat_lt, rfl⟩
  refine ⟨w, hpath, ?_⟩
  have hzero : (w.zp work).toNat = 0 := by simpa using hbits
  rw [← hsum, hzero, Nat.zero_mul, Nat.add_zero, Nat.mod_eq_of_lt w.a.toNat_lt]

/-- The product is in A and in its slot. -/
theorem mul8_returns {loop skip : LabelId} (h : code.Installed a (mul8Lines loop skip) b)
    (v : View) :
    ∃ w, code.Returns a v w ∧ v.Frame 0 [work, work + 1, intR] w ∧ w.a = w.zp intR ∧
      (w.zp intR).toNat = (v.zp intA).toNat * (v.zp intB).toNat % 256 := by
  obtain ⟨b1, hsetup, h⟩ := h.split _
  obtain ⟨hloop, h⟩ := h.label
  obtain ⟨b2, hbody, h⟩ := h.split _
  obtain ⟨b3, hsta, hrts⟩ := h.cons
  obtain ⟨v1, h1, ha1, hx1, hw1, hm1⟩ :
      ∃ w, code.Path 0 [work, work + 1, intR] a v b1 w ∧ w.a = 0 ∧ w.x = 8 ∧ w.zp work = v.zp intB ∧
        w.zp (work + 1) = v.zp intA :=
    ⟨_, hsetup.path rfl rfl (by decide), rfl, rfl, rfl, rfl⟩
  obtain ⟨v2, h2, ha2⟩ := mul8_rounds hbody hloop v1 hx1
  have h3 : code.Path 0 [work, work + 1, intR] b2 v2 b3 _ := hsta.path rfl rfl (by decide)
  have hpath := (h1.trans (h2.mono (Nat.le_refl 0) (by decide))).trans h3
  refine ⟨_, ⟨b3, b, hpath.reaches, hrts⟩, hpath.frame, rfl, ?_⟩
  change v2.a.toNat = _
  rw [ha2, ha1, hw1, hm1, UInt8.toNat_zero, Nat.zero_add, Nat.mul_comm]

/-- The product of two bytes. -/
def byteProduct : LinkedCode.Behaviour where
  depth := 0
  slots := [work, work + 1, intR]
  ends v w := w.a.toNat = (v.zp intA).toNat * (v.zp intB).toNat % 256
  level h := h

/-- **The routine multiplies bytes.** -/
theorem mul8_behaves {loop skip : LabelId} (h : code.Installed a (mul8Lines loop skip) b) :
    code.Behaves a byteProduct := by
  intro v
  obtain ⟨w, hreturns, hframe, ha, hproduct⟩ := mul8_returns h v
  exact ⟨w, hreturns, hframe, (congrArg UInt8.toNat ha).trans hproduct⟩

/-! ## Words -/

/-- Words to multiply, and a cleared sum. -/
def mul16Setup : List Line :=
  [.instr .lda (.zeroPage intA), .instr .sta (.zeroPage work),
    .instr .lda (.zeroPage (intA + 1)), .instr .sta (.zeroPage (work + 1)),
    .instr .lda (.zeroPage intB), .instr .sta (.zeroPage (work + 2)),
    .instr .lda (.zeroPage (intB + 1)), .instr .sta (.zeroPage (work + 2 + 1)),
    .instr .lda (.immediate 0), .instr .sta (.zeroPage intR), .instr .sta (.zeroPage (intR + 1)),
    .instr .ldy (.immediate 16)]

/-- The multiplication of words behind its start. -/
def mul16Loop (loop skip : LabelId) : List Line :=
  [.instr .lsr (.zeroPage (work + 2 + 1)), .instr .ror (.zeroPage (work + 2)),
    .instr .bcc (.relative skip), .instr .clc .implied, .instr .lda (.zeroPage intR),
    .instr .adc (.zeroPage work), .instr .sta (.zeroPage intR), .instr .lda (.zeroPage (intR + 1)),
    .instr .adc (.zeroPage (work + 1)), .instr .sta (.zeroPage (intR + 1)), .bound skip,
    .instr .asl (.zeroPage work), .instr .rol (.zeroPage (work + 1)), .instr .dey .implied,
    .instr .bne (.relative loop)]

/-- The multiplication of words. -/
def mul16Lines (loop skip : LabelId) : List Line :=
  mul16Setup ++ .bound loop :: (mul16Loop loop skip ++
    [.instr .lda (.zeroPage intR), .instr .ldx (.zeroPage (intR + 1)), .instr .rts .implied])

theorem mul16_writes (w : Workspace) :
    ∃ loop skip, w.Writes (mul16 w).2 (mul16Lines loop skip) := by
  simp only [mul16, Writer.moveWord, Writer.shiftRightWord, Writer.shiftLeftWord, Writer.addWord,
    Writer.returnWord, Writer.bind_apply, Writer.zp_apply, Writer.imm_apply, Writer.op_apply,
    Writer.branch_apply, Writer.bound_apply, Writer.label_apply, Writer.here_apply,
    Workspace.writing_writing, List.cons_append, List.nil_append, Action.ownArg]
  exact ⟨_, _, ((((((Workspace.Writes.refl w).writing rfl).labelled []).writing rfl).labelled
    []).writing rfl)⟩

/-- What the multiplication of words changes. -/
def mul16Slots : List UInt8 := [work, work + 1, work + 2, work + 2 + 1, intR, intR + 1]

/-- One round adds the multiplicand if the multiplier is odd, and shifts both. -/
theorem mul16_round {loop skip : LabelId} (h : code.Installed a (mul16Loop loop skip) b)
    (hloop : code.At loop a) (v : View) :
    ∃ w, code.Path 0 mul16Slots a v (if w.y = 0 then b else a) w ∧ w.y = v.y - 1 ∧
      w.word intR = (v.word intR + v.word (work + 2) % 2 * v.word work) % 65536 ∧
      w.word (work + 2) = v.word (work + 2) / 2 ∧ w.word work = 2 * v.word work % 65536 := by
  obtain ⟨b1, hshift, h⟩ := h.split [_, _]
  obtain ⟨b2, hbcc, h⟩ := h.cons
  obtain ⟨b3, hadd, h⟩ := h.split [_, _, _, _, _, _, _]
  obtain ⟨hskip, h⟩ := h.label
  obtain ⟨b4, hdouble, hbne⟩ := h.split [_, _, _]
  obtain ⟨v1, hexec, hw1, hcarry, hy1⟩ := shiftRight_word v (work + 2)
  have h1 : code.Path 0 mul16Slots a v b1 v1 := hshift.path hexec rfl (by decide)
  have hframe := execAll_frame hexec rfl
  have hr1 : v1.word intR = v.word intR := hframe.word (by decide) (by decide)
  have hm1 : v1.word work = v.word work := hframe.word (by decide) (by decide)
  -- the multiplicand is added only on one way, but both ways meet at the shift
  obtain ⟨v2, h2, hy2, hr2, hw2, hm2⟩ :
      ∃ w, code.Path 0 mul16Slots b1 v1 b3 w ∧ w.y = v.y ∧
        w.word intR = (v.word intR + v.word (work + 2) % 2 * v.word work) % 65536 ∧
        w.word (work + 2) = v1.word (work + 2) ∧ w.word work = v.word work := by
    rcases Nat.mod_two_eq_zero_or_one (v.word (work + 2)) with heven | hodd
    · refine ⟨v1, (hbcc.branch_taken hskip (by simp [View.takes?, hcarry, heven])).path,
        hy1, ?_, rfl, hm1⟩
      have := v.word_lt intR
      rw [hr1, heven]
      omega
    · obtain ⟨w, hexec, hsum, hy⟩ := add_word v1 (y := intR) (z := work) (by decide)
      have hframe := execAll_frame hexec rfl
      refine ⟨w, (hbcc.branch_skipped hskip (by simp [View.takes?, hcarry, hodd])).path.trans
        (hadd.path hexec rfl (by decide)), hy.trans hy1, ?_, hframe.word (by decide) (by decide),
        (hframe.word (by decide) (by decide)).trans hm1⟩
      rw [hsum, hr1, hm1, hodd, Nat.one_mul]
  obtain ⟨b4', hdouble, hdey⟩ := hdouble.split [_, _]
  obtain ⟨v3, hexec, hm3, -, -, hy3⟩ := shiftLeft_word v2 work
  have hframe := execAll_frame hexec rfl
  have h3 : code.Path 0 mul16Slots b3 v2 b4' v3 := hdouble.path hexec rfl (by decide)
  obtain ⟨v4, h4, hzero, hy4, hwords⟩ :
      ∃ w, code.Path 0 mul16Slots b4' v3 b4 w ∧ w.zero = (w.y == 0) ∧ w.y = v3.y - 1 ∧
        ∀ z, w.word z = v3.word z :=
    ⟨_, hdey.path rfl rfl (by decide), rfl, rfl, fun _ => View.word_congr rfl rfl⟩
  refine ⟨v4, (((h1.trans h2).trans h3).trans h4).trans (hbne.again hloop hzero), ?_, ?_, ?_, ?_⟩
  · rw [hy4, hy3, hy2]
  · rw [hwords, hframe.word (by decide) (by decide), hr2]
  · rw [hwords, hframe.word (by decide) (by decide), hw2, hw1]
  · rw [hwords, hm3, hm2]

/-- The rounds add the product of what is left. -/
theorem mul16_rounds {loop skip : LabelId} (h : code.Installed a (mul16Loop loop skip) b)
    (hloop : code.At loop a) (v : View) (hy : v.y = 16) :
    ∃ w, code.Path 0 mul16Slots a v b w ∧
      w.word intR = (v.word intR + v.word (work + 2) * v.word work) % 65536 := by
  let Inv (n : Nat) (w : View) : Prop := w.word (work + 2) < 2 ^ n ∧
    (w.word intR + w.word (work + 2) * w.word work) % 65536 =
      (v.word intR + v.word (work + 2) * v.word work) % 65536
  obtain ⟨w, hpath, hbits, hsum⟩ := LinkedCode.Path.countdown View.y Inv
    (fun n u ⟨hbits, hsum⟩ => by
      obtain ⟨w, hpath, hy', hr, hw, hm⟩ := mul16_round h hloop u
      refine ⟨w, hpath, hy', ?_, ?_⟩
      · rw [Nat.pow_succ] at hbits
        omega
      · rw [hr, hw, hm, mul_step, hsum])
    15 v (by rw [hy]; rfl) ⟨v.word_lt _, rfl⟩
  refine ⟨w, hpath, ?_⟩
  have hzero : w.word (work + 2) = 0 := by simpa using hbits
  rw [← hsum, hzero, Nat.zero_mul, Nat.add_zero, Nat.mod_eq_of_lt (w.word_lt _)]

/-- The product is in A and X, and in its slot. -/
theorem mul16_returns {loop skip : LabelId} (h : code.Installed a (mul16Lines loop skip) b)
    (v : View) :
    ∃ w, code.Returns a v w ∧ v.Frame 0 mul16Slots w ∧ (w.a = w.zp intR ∧ w.x = w.zp (intR + 1)) ∧
      w.word intR = v.word intA * v.word intB % 65536 := by
  obtain ⟨b1, hsetup, h⟩ := h.split _
  obtain ⟨hloop, h⟩ := h.label
  obtain ⟨b2, hbody, h⟩ := h.split _
  obtain ⟨b3, hload, hrts⟩ := h.split [_, _]
  obtain ⟨v1, h1, hr1, hy1, hw1, hm1⟩ :
      ∃ w, code.Path 0 mul16Slots a v b1 w ∧ w.word intR = 0 ∧ w.y = 16 ∧
        w.word (work + 2) = v.word intB ∧ w.word work = v.word intA := by
    refine ⟨_, hsetup.path rfl rfl (by decide), ?_, rfl, View.word_congr rfl rfl,
      View.word_congr rfl rfl⟩
    simp +decide [View.word]
  obtain ⟨v2, h2, hr2⟩ := mul16_rounds hbody hloop v1 hy1
  have hpath := (h1.trans h2).trans (hload.path (v := v2) rfl rfl (by decide))
  refine ⟨_, ⟨b3, b, hpath.reaches, hrts⟩, hpath.frame, ⟨rfl, rfl⟩, ?_⟩
  change v2.word intR = _
  rw [hr2, hr1, hw1, hm1, Nat.zero_add, Nat.mul_comm]

/-- The product of two words. -/
def wordProduct : LinkedCode.Behaviour where
  depth := 0
  slots := mul16Slots
  ends v w := w.a.toNat + 256 * w.x.toNat = v.word intA * v.word intB % 65536
  level h := h

/-- **The routine multiplies words.** -/
theorem mul16_behaves {loop skip : LabelId} (h : code.Installed a (mul16Lines loop skip) b) :
    code.Behaves a wordProduct := by
  intro v
  obtain ⟨w, hreturns, hframe, ⟨ha, hx⟩, hproduct⟩ := mul16_returns h v
  refine ⟨w, hreturns, hframe, ?_⟩
  show w.a.toNat + 256 * w.x.toNat = _
  rw [ha, hx]
  exact hproduct

end Breadbin.Routine
