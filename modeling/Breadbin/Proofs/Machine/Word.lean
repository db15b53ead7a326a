import Breadbin.Proofs.Machine.Frame

/-!
# Words in the zero page

Arithmetic on words goes byte by byte, the carry between the two.  Each sequence here does one
operation on a word.
-/

namespace Breadbin.Machine

open Assembly LinkedCode

/-- The word in a slot. -/
def View.word (v : View) (z : UInt8) : Nat := (v.zp z).toNat + 256 * (v.zp (z + 1)).toNat

theorem View.word_congr {v w : View} {y z : UInt8} (hlo : w.zp y = v.zp z)
    (hhi : w.zp (y + 1) = v.zp (z + 1)) : w.word y = v.word z := by
  rw [word, word, hlo, hhi]

theorem View.word_lt (v : View) (z : UInt8) : v.word z < 65536 := by
  have := (v.zp z).toNat_lt
  have := (v.zp (z + 1)).toNat_lt
  rw [word]
  omega

/-- A frame keeps the words outside. -/
theorem View.Frame.word {v w : View} {d : Nat} {zs : List UInt8} (h : v.Frame d zs w) {z : UInt8}
    (hz : z ∉ zs) (hz' : z + 1 ∉ zs) : w.word z = v.word z :=
  word_congr (h.zp z hz) (h.zp (z + 1) hz')

@[simp] theorem succ_ne (z : UInt8) : z + 1 ≠ z := by
  revert z
  refine forall_byte ?_
  decide +kernel

@[simp] theorem ne_succ (z : UInt8) : z ≠ z + 1 := (succ_ne z).symm

variable (v : View) (z : UInt8)

/-- Halving a word; the carry is the bit that is lost. -/
theorem shiftRight_word :
    ∃ w, execAll v [.instr .lsr (.zeroPage (z + 1)), .instr .ror (.zeroPage z)] = some w ∧
      w.word z = v.word z / 2 ∧ w.carry = decide (v.word z % 2 = 1) ∧ w.y = v.y := by
  have := (v.zp z).toNat_lt
  have := (v.zp (z + 1)).toNat_lt
  refine ⟨_, rfl, ?_, ?_, by simp⟩
  · rcases Nat.mod_two_eq_zero_or_one (v.zp (z + 1)).toNat with h | h <;>
      simp [View.word, h] <;> omega
  · rw [Bool.eq_iff_iff, decide_eq_true_eq, View.word]
    simp
    omega

/-- Halving a word and taking the carry in; the carry is the bit that is lost. -/
theorem rotateRight_word :
    ∃ w, execAll v [.instr .ror (.zeroPage (z + 1)), .instr .ror (.zeroPage z)] = some w ∧
      w.word z = v.word z / 2 + 32768 * bit v.carry ∧
        w.carry = decide (v.word z % 2 = 1) ∧ w.x = v.x := by
  have := (v.zp z).toNat_lt
  have := (v.zp (z + 1)).toNat_lt
  refine ⟨_, rfl, ?_, ?_, by simp⟩
  · rcases Nat.mod_two_eq_zero_or_one (v.zp (z + 1)).toNat with h | h <;> cases v.carry <;>
      simp [View.word, h] <;> omega
  · rw [Bool.eq_iff_iff, decide_eq_true_eq, View.word]
    simp
    omega

/-- Doubling a word; the carry is the bit that is lost. -/
theorem shiftLeft_word :
    ∃ w, execAll v [.instr .asl (.zeroPage z), .instr .rol (.zeroPage (z + 1))] = some w ∧
      w.word z = 2 * v.word z % 65536 ∧ w.carry = decide (65536 ≤ 2 * v.word z) ∧ w.a = v.a ∧
      w.y = v.y := by
  have := (v.zp z).toNat_lt
  have := (v.zp (z + 1)).toNat_lt
  refine ⟨_, rfl, ?_, ?_, by simp, by simp⟩
  · by_cases h : 128 ≤ (v.zp z).toNat <;> simp [View.word, isNegative, h] <;> omega
  · rw [Bool.eq_iff_iff, decide_eq_true_eq, View.word]
    simp [isNegative]
    omega

/-- Doubling a word and taking the carry in; the carry is the bit that is lost. -/
theorem rotateLeft_word :
    ∃ w, execAll v [.instr .rol (.zeroPage z), .instr .rol (.zeroPage (z + 1))] = some w ∧
      w.word z = (2 * v.word z + bit v.carry) % 65536 ∧ w.carry = decide (32768 ≤ v.word z) ∧
      w.y = v.y := by
  have := (v.zp z).toNat_lt
  have := (v.zp (z + 1)).toNat_lt
  refine ⟨_, rfl, ?_, ?_, by simp⟩
  · cases v.carry <;> by_cases h : 128 ≤ (v.zp z).toNat <;>
      simp [View.word, isNegative, h] <;> omega
  · rw [Bool.eq_iff_iff, decide_eq_true_eq, View.word]
    simp [isNegative]
    omega

/-- Copying a word. -/
theorem move_word {y : UInt8} (h : z + 1 ≠ y) :
    ∃ w, execAll v [.instr .lda (.zeroPage z), .instr .sta (.zeroPage y),
      .instr .lda (.zeroPage (z + 1)), .instr .sta (.zeroPage (y + 1))] = some w ∧
        w.word y = v.word z := by
  refine ⟨_, rfl, View.word_congr ?_ ?_⟩
  · simp
  · simp [h]

/-- The zero flag tells whether a word is zero. -/
theorem test_word :
    ∃ w, execAll v [.instr .lda (.zeroPage z), .instr .ora (.zeroPage (z + 1))] = some w ∧
      w.zero = decide (v.word z = 0) ∧ w.zp = v.zp := by
  refine ⟨_, rfl, ?_, by simp⟩
  rw [Bool.eq_iff_iff, decide_eq_true_eq, View.word]
  simp [eq_zero_iff]

/-- Changing the sign of a word. -/
theorem negate_word :
    ∃ w, execAll v [.instr .sec .implied, .instr .lda (.immediate 0), .instr .sbc (.zeroPage z),
        .instr .sta (.zeroPage z), .instr .lda (.immediate 0), .instr .sbc (.zeroPage (z + 1)),
        .instr .sta (.zeroPage (z + 1))] = some w ∧
      w.word z = (65536 - v.word z) % 65536 := by
  have := (v.zp z).toNat_lt
  have := (v.zp (z + 1)).toNat_lt
  refine ⟨_, rfl, ?_⟩
  by_cases h : 255 ≤ 255 - (v.zp z).toNat <;> simp [View.word, h] <;> omega

/-- The sum of two words takes the place of the first. -/
theorem add_word {y z : UInt8} (h : z + 1 ≠ y) :
    ∃ w, execAll v [.instr .clc .implied, .instr .lda (.zeroPage y), .instr .adc (.zeroPage z),
        .instr .sta (.zeroPage y), .instr .lda (.zeroPage (y + 1)), .instr .adc (.zeroPage (z + 1)),
        .instr .sta (.zeroPage (y + 1))] = some w ∧
      w.word y = (v.word y + v.word z) % 65536 ∧ w.y = v.y := by
  have := (v.zp z).toNat_lt
  have := (v.zp (z + 1)).toNat_lt
  have := (v.zp y).toNat_lt
  have := (v.zp (y + 1)).toNat_lt
  refine ⟨_, rfl, ?_, by simp⟩
  by_cases hcarry : 256 ≤ (v.zp y).toNat + (v.zp z).toNat <;>
    simp [View.word, hcarry, h] <;> omega

/-- The difference of two words, if there is no borrow. -/
theorem subtract_word {y z : UInt8} (h : z + 1 ≠ y) (hcarry : v.carry = true) :
    ∃ w, execAll v [.instr .lda (.zeroPage y), .instr .sbc (.zeroPage z), .instr .sta (.zeroPage y),
        .instr .lda (.zeroPage (y + 1)), .instr .sbc (.zeroPage (z + 1)),
        .instr .sta (.zeroPage (y + 1))] = some w ∧
      w.word y = (v.word y + 65536 - v.word z) % 65536 ∧ w.y = v.y := by
  have := (v.zp z).toNat_lt
  have := (v.zp (z + 1)).toNat_lt
  have := (v.zp y).toNat_lt
  have := (v.zp (y + 1)).toNat_lt
  refine ⟨_, rfl, ?_, by simp⟩
  by_cases hlow : 256 ≤ (v.zp y).toNat + (255 - (v.zp z).toNat) + 1 <;>
    simp [View.word, hcarry, hlow, h] <;> omega

/-- The sum of two words takes the place of a third one. -/
theorem plus_word {x y z : UInt8} (hy : y + 1 ≠ x) (hz : z + 1 ≠ x) :
    ∃ w, execAll v [.instr .clc .implied, .instr .lda (.zeroPage y), .instr .adc (.zeroPage z),
        .instr .sta (.zeroPage x), .instr .lda (.zeroPage (y + 1)), .instr .adc (.zeroPage (z + 1)),
        .instr .sta (.zeroPage (x + 1))] = some w ∧
      w.word x = (v.word y + v.word z) % 65536 ∧ w.carry = decide (65536 ≤ v.word y + v.word z) ∧
        w.x = v.x := by
  have := (v.zp z).toNat_lt
  have := (v.zp (z + 1)).toNat_lt
  have := (v.zp y).toNat_lt
  have := (v.zp (y + 1)).toNat_lt
  refine ⟨_, rfl, ?_, ?_, by simp⟩
  · by_cases hcarry : 256 ≤ (v.zp y).toNat + (v.zp z).toNat <;>
      simp [View.word, hcarry, hy, hz] <;> omega
  · rw [Bool.eq_iff_iff, decide_eq_true_eq, View.word, View.word]
    by_cases hcarry : 256 ≤ (v.zp y).toNat + (v.zp z).toNat <;> simp [hcarry, hy, hz] <;> omega

/-- The difference of two words, the second of which is not larger, takes the place of a third
one. -/
theorem minus_word {x y z : UInt8} (hy : y + 1 ≠ x) (hz : z + 1 ≠ x) (h : v.word z ≤ v.word y) :
    ∃ w, execAll v [.instr .sec .implied, .instr .lda (.zeroPage y), .instr .sbc (.zeroPage z),
        .instr .sta (.zeroPage x), .instr .lda (.zeroPage (y + 1)), .instr .sbc (.zeroPage (z + 1)),
        .instr .sta (.zeroPage (x + 1))] = some w ∧
      w.word x = v.word y - v.word z ∧ w.y = v.y := by
  have := (v.zp y).toNat_lt
  have := (v.zp (y + 1)).toNat_lt
  have := (v.zp z).toNat_lt
  have := (v.zp (z + 1)).toNat_lt
  refine ⟨_, rfl, ?_, by simp⟩
  rw [View.word, View.word] at h
  by_cases hlow : 256 ≤ (v.zp y).toNat + (255 - (v.zp z).toNat) + 1 <;>
    simp [View.word, hlow, hy, hz] <;> omega

/-- The carry tells whether the first word is not below the second. -/
theorem compare_word (y z : UInt8) :
    ∃ w, execAll v [.instr .lda (.zeroPage y), .instr .cmp (.zeroPage z),
        .instr .lda (.zeroPage (y + 1)), .instr .sbc (.zeroPage (z + 1))] = some w ∧
      w.carry = decide (v.word z ≤ v.word y) ∧ w.y = v.y ∧ w.zp = v.zp := by
  have := (v.zp z).toNat_lt
  have := (v.zp (z + 1)).toNat_lt
  have := (v.zp y).toNat_lt
  have := (v.zp (y + 1)).toNat_lt
  refine ⟨_, rfl, ?_, by simp, by simp⟩
  rw [Bool.eq_iff_iff, decide_eq_true_eq, View.word, View.word]
  by_cases hlow : (v.zp z).toNat ≤ (v.zp y).toNat <;> simp [hlow] <;> omega

/-! ## Double words -/

/-- The number in two words. -/
def View.double (v : View) (hi lo : UInt8) : Nat := 65536 * v.word hi + v.word lo

/-- Halving a double word; the carry is the bit that is lost. -/
theorem shiftRight_double {hi lo : UInt8}
    (h : hi ≠ lo ∧ hi ≠ lo + 1 ∧ hi + 1 ≠ lo ∧ hi + 1 ≠ lo + 1) :
    ∃ w, execAll v [.instr .lsr (.zeroPage (hi + 1)), .instr .ror (.zeroPage hi),
      .instr .ror (.zeroPage (lo + 1)), .instr .ror (.zeroPage lo)] = some w ∧
      w.double hi lo = v.double hi lo / 2 ∧ w.carry = decide (v.double hi lo % 2 = 1) ∧
        w.x = v.x := by
  obtain ⟨u, hexec, hhi, hcarry, -⟩ := shiftRight_word v hi
  obtain ⟨w, hexec', hlo, hcarry', hx⟩ := rotateRight_word u lo
  have hframe := execAll_frame hexec rfl
  have hframe' := execAll_frame hexec' rfl
  have hkeptLo : u.word lo = v.word lo :=
    hframe.word (by simp [slots]; tauto) (by simp [slots]; tauto)
  have hkeptHi : w.word hi = u.word hi :=
    hframe'.word (by simp [slots]; tauto) (by simp [slots]; tauto)
  have hux : u.x = v.x := execAll_x hexec rfl
  have hhalf := v.word_lt lo
  refine ⟨w, execAll_trans hexec hexec', ?_, ?_, hx.trans hux⟩
  · rw [View.double, View.double, hkeptHi, hhi, hlo, hkeptLo, hcarry]
    by_cases hodd : v.word hi % 2 = 1 <;> simp [hodd, bit] <;> omega
  · rw [hcarry', hkeptLo, View.double, decide_eq_decide]
    omega

/-- Halving a double word and taking the carry in; the carry is the bit that is lost. -/
theorem rotateRight_double {hi lo : UInt8}
    (h : hi ≠ lo ∧ hi ≠ lo + 1 ∧ hi + 1 ≠ lo ∧ hi + 1 ≠ lo + 1) :
    ∃ w, execAll v [.instr .ror (.zeroPage (hi + 1)), .instr .ror (.zeroPage hi),
      .instr .ror (.zeroPage (lo + 1)), .instr .ror (.zeroPage lo)] = some w ∧
      2 * w.double hi lo + bit w.carry = v.double hi lo + 4294967296 * bit v.carry ∧ w.x = v.x := by
  obtain ⟨u, hexec, hhi, hcarry, hux⟩ := rotateRight_word v hi
  obtain ⟨w, hexec', hlo, hcarry', hx⟩ := rotateRight_word u lo
  have hframe := execAll_frame hexec rfl
  have hframe' := execAll_frame hexec' rfl
  have hkeptLo : u.word lo = v.word lo :=
    hframe.word (by simp [slots]; tauto) (by simp [slots]; tauto)
  have hkeptHi : w.word hi = u.word hi :=
    hframe'.word (by simp [slots]; tauto) (by simp [slots]; tauto)
  refine ⟨w, execAll_trans hexec hexec', ?_, hx.trans hux⟩
  rw [View.double, View.double, hkeptHi, hhi, hcarry', hlo, hkeptLo, hcarry]
  by_cases hodd : v.word hi % 2 = 1 <;> by_cases hodd' : v.word lo % 2 = 1 <;>
    simp [hodd, hodd', bit] <;> omega

end Breadbin.Machine
