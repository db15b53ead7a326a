import Breadbin.Proofs.Numeric.Integers
import Breadbin.Proofs.Routine.Arithmetic

/-!
# Products and quotients of fixed-point numbers

The routines that multiply and divide fixed-point numbers work with magnitudes: a double word is
shifted back by four places, or twenty-four bits are divided.  A magnitude that does not fit
saturates.
-/

namespace Breadbin.Routine

open Assembly Machine Numeric ZeroPage Writer LinkedCode

/-! ## Numbers -/

/-- Sixteenths and their magnitude. -/
theorem units_fixedOf {n : ℕ} (hn : n < 65536) :
    decide ((fixedOf n).units < 0) = decide (65536 ≤ 2 * n) ∧
        (fixedOf n).units.natAbs = magnitude 65536 n := by
  rw [fixedOf, Fixed.units_ofWord hn, decide_eq_decide, magnitude, negateWhen]
  simp only [decide_eq_true_eq]
  split <;> split <;> omega

/-- Whether a product or a quotient of fixed-point numbers is negative. -/
def fixedSign (u : View) : Bool := isNegative (u.zp (fixA + 1) ^^^ u.zp (fixB + 1))

/-- The magnitude of an operand. -/
abbrev sixteenths (a : UInt8) (u : View) : ℕ := magnitude 65536 (u.word a)

theorem mul_sixteenths (u : View) : (fixedOf (u.word fixA)).mul (fixedOf (u.word fixB)) =
    .ofMagnitude (fixedSign u) (sixteenths fixB u * sixteenths fixA u / 16) := by
  obtain ⟨hA, hA'⟩ := units_fixedOf (u.word_lt fixA)
  obtain ⟨hB, hB'⟩ := units_fixedOf (u.word_lt fixB)
  rw [Fixed.mul, hA, hB, hA', hB', fixedSign, isNegative_xor, isNegative_high, isNegative_high,
    Nat.mul_comm (sixteenths fixB u)]

theorem div_sixteenths {u : View} (h : u.word fixB ≠ 0) :
    (fixedOf (u.word fixA)).div (fixedOf (u.word fixB)) =
    .ofMagnitude (fixedSign u) (16 * sixteenths fixA u / sixteenths fixB u) := by
  obtain ⟨hA, hA'⟩ := units_fixedOf (u.word_lt fixA)
  obtain ⟨hB, hB'⟩ := units_fixedOf (u.word_lt fixB)
  have hne : (fixedOf (u.word fixB)).units ≠ 0 := fun hzero => by
    rw [hzero] at hB'
    exact magnitude_ne_zero (u.word_lt fixB) h hB'.symm
  rw [Fixed.div, if_neg hne, hA, hB, hA', hB', fixedSign, isNegative_xor, isNegative_high,
    isNegative_high, Nat.mul_comm 16]

theorem div_zero_sixteenths {u : View} (h : u.word fixB = 0) :
    (fixedOf (u.word fixA)).div (fixedOf (u.word fixB)) =
    .ofMagnitude (isNegative (u.zp (fixA + 1))) 32768 := by
  obtain ⟨hA, -⟩ := units_fixedOf (u.word_lt fixA)
  have hzero : (fixedOf (u.word fixB)).units = 0 := by
    rw [h]
    rfl
  rw [Fixed.div, if_pos hzero, hA, isNegative_high]

/-! ## The ends of the routines -/

/-- A constant is stored in a slot. -/
theorem set_word (v : View) (z : UInt8) (n : UInt16) :
    ∃ w, execAll v [.instr .lda (.immediate n.toUInt8), .instr .sta (.zeroPage z),
      .instr .lda (.immediate (n >>> 8).toUInt8), .instr .sta (.zeroPage (z + 1))] = some w ∧
        w.word z = n.toNat := by
  have := n.toNat_lt
  refine ⟨_, rfl, ?_⟩
  simp [View.word, UInt16.toNat_shiftRight, Nat.shiftRight_eq_div_pow]
  omega

/-- A routine that returns a fixed-point number. -/
structure Calculates (t : Target) (id : RoutineId) (op : Fixed → Fixed → Fixed) : Prop where
  low : (conduct t id).opens {} fixR = true
  high : (conduct t id).opens {} (fixR + 1) = true
  index : (conduct t id).setsX {} = true
  ends : (conduct t id).ends = calculatesFixed op

theorem fixedMul_calculates {t : Target} : Calculates t .fixedMul .mul := ⟨rfl, rfl, rfl, rfl⟩

theorem fixedDiv_calculates {t : Target} : Calculates t .fixedDiv .div := ⟨rfl, rfl, rfl, rfl⟩

namespace Assertion

variable (op : Fixed → Fixed → Fixed) (sign : UInt8)

/-- The result has the sign that is kept in a slot, and its magnitude is in the slot of the
result. -/
def sized : Assertion := fun _ u v => v.word fixR < 32768 ∧
  op (fixedOf (u.word fixA)) (fixedOf (u.word fixB)) =
    .ofMagnitude (isNegative (v.zp sign)) (v.word fixR)

/-- The result saturates by the sign that is kept in a slot. -/
def oversized : Assertion := fun _ u v =>
  op (fixedOf (u.word fixA)) (fixedOf (u.word fixB)) =
    ⟨if isNegative (v.zp sign) then 0x8000 else 0x7FFF⟩

/-- The result is in its slot. -/
def computed : Assertion :=
  fun _ u v => v.word fixR = (op (fixedOf (u.word fixA)) (fixedOf (u.word fixB))).raw.toNat

end Assertion

namespace Flows

variable {t : Target} {id : RoutineId} {α : Type} {size : Nat} {back : Back} {ahead : Ahead}
  {op : Fixed → Fixed → Fixed} {sign : UInt8}
  {rest : Writer α}

theorem returnComputed (hid : Calculates t id op)
    (h : Flows (conduct t) t id (size - 15) back ahead 0 .never rest) :
    Flows (conduct t) t id size back ahead 0 (.computed op)
      (returnWord fixR >>= fun _ => rest) := by
  refine .exec (Q := fun _ u v => calculatesFixed op u v)
    ?_ (fun n u v hv => ⟨_, rfl, ⟨rfl, rfl⟩, hv⟩) (.rts (fun n u v hv => ?_) (.fit h ?_))
  · show (true && ((true && (conduct t id).setsX {}) && true)) = true
    rw [hid.index]
    rfl
  · rw [hid.ends]
    exact hv
  · simp only [Nat.sub_sub]
    exact Nat.le_refl _

/-- A magnitude is returned with its sign. -/
theorem signedResult (hid : Calculates t id op)
    (h : ∀ back, Flows (conduct t) t id (size - 60) back ahead 0 .never rest) :
    Flows (conduct t) t id size back ahead 0 (.sized op sign)
      (Routine.signedResult fixR sign >>= fun _ => rest) := by
  simp only [Routine.signedResult, bind_assoc]
  refine .label (Assertion.free.also (.computed op)) fun positive => ?_
  refine .weaken (Q := Assertion.free.also (.sized op sign))
    (.negateIf hid.low hid.high (fun n u v w _ hv _ hnegated => ?_) fun _ => ?_)
    fun _ _ _ hv => ⟨trivial, hv⟩
  · obtain ⟨hsmall, hop⟩ := hv
    rw [Assertion.computed, hop, Fixed.toNat_ofMagnitude _ hsmall, hnegated]
    rfl
  refine .weaken (Q := .computed op) (.returnComputed hid (.fit (h _) ?_)) fun _ _ _ hv => hv.2
  simp only [Nat.sub_sub]
  exact Nat.le_refl _

/-- The largest or the smallest number is returned. -/
theorem saturate (hid : Calculates t id op)
    (h : ∀ back, Flows (conduct t) t id (size - 80) back ahead 0 .never rest) :
    Flows (conduct t) t id size back ahead 0 (.oversized op sign)
      (Routine.saturate fixR sign >>= fun _ => rest) := by
  simp only [Routine.saturate, bind_assoc]
  let limited (n : UInt16) : Assertion := .given fun u =>
    op (fixedOf (u.word fixA)) (fixedOf (u.word fixB)) = ⟨n⟩
  refine .label (limited 0x8000) fun negative => ?_
  refine .exec (Q := fun n u v => Assertion.oversized op sign n u v ∧
    v.negative = isNegative (v.zp sign)) rfl
    (fun n u v hv => ⟨_, rfl, hv, rfl⟩) ?_
  refine .branch (Q := limited 0x7FFF) (fun n u v hv htaken => ?_) (fun n u v hv hskipped => ?_) ?_
  · have hnegative : isNegative (v.zp sign) = true := by simpa [View.takes?, hv.2] using htaken
    exact hv.1.trans (by rw [hnegative]; rfl)
  · have hpositive : isNegative (v.zp sign) = false := by simpa [View.takes?, hv.2] using hskipped
    exact hv.1.trans (by rw [hpositive]; rfl)
  have hopens : (true &&
      ((conduct t id).opens {} fixR && (true && ((conduct t id).opens {} (fixR + 1) && true)))) =
          true := by
    rw [hid.low, hid.high]
    rfl
  have hset (limit : UInt16) (n : ℕ) (u v : View) (hv : limited limit n u v) :
      ∃ w, execAll v [.instr .lda (.immediate limit.toUInt8), .instr .sta (.zeroPage fixR),
        .instr .lda (.immediate (limit >>> 8).toUInt8),
        .instr .sta (.zeroPage (fixR + 1))] = some w ∧
        Assertion.computed op n u w := by
    obtain ⟨w, hexec, hword⟩ := set_word v fixR limit
    exact ⟨w, hexec, hword.trans (congrArg (fun f : Fixed => f.raw.toNat) (Eq.symm hv))⟩
  refine .run (Q := .computed op) hopens (hset _) (.returnComputed hid (.bind ?_))
  refine .run (Q := .computed op) hopens (hset _) (.returnComputed hid (.fit (h _) ?_))
  simp only [Nat.sub_sub]
  exact Nat.sub_le_sub_left (by decide) _

end Flows

namespace Assertion

/-- The sign of the result is kept. -/
abbrev fixedSigned (sign : UInt8) : Assertion :=
  .byte sign fun u b => b = u.zp (fixA + 1) ^^^ u.zp (fixB + 1)

/-- The operands are as they were. -/
def fixedWords : Assertion := fun _ u v => v.word fixA = u.word fixA ∧ v.word fixB = u.word fixB

/-- The operands are replaced by their magnitudes. -/
def fixedSizes : Assertion := fun _ u v => v.word fixA = sixteenths fixA u ∧
    v.word fixB = sixteenths fixB u

end Assertion

section Ends

variable {op : Fixed → Fixed → Fixed} {sign : UInt8} {n m : ℕ} {u v : View}

theorem oversized_of_large
    (hop : op (fixedOf (u.word fixA)) (fixedOf (u.word fixB)) = .ofMagnitude (fixedSign u) m)
    (hsign : Assertion.fixedSigned sign n u v) (hm : 32768 ≤ m) :
    Assertion.oversized op sign n u v := by
  have hsign : v.zp sign = u.zp (fixA + 1) ^^^ u.zp (fixB + 1) := hsign
  rw [Assertion.oversized, hop, Fixed.ofMagnitude_large _ hm, hsign]
  rfl

theorem sized_of_small
    (hop : op (fixedOf (u.word fixA)) (fixedOf (u.word fixB)) = .ofMagnitude (fixedSign u) m)
    (hsign : Assertion.fixedSigned sign n u v) (hword : v.word fixR = m) (hm : m < 32768) :
    Assertion.sized op sign n u v := by
  have hsign : v.zp sign = u.zp (fixA + 1) ^^^ u.zp (fixB + 1) := hsign
  rw [Assertion.sized, hword, hsign]
  exact ⟨hm, hop⟩

end Ends

/-- The operands are replaced by their magnitudes. -/
theorem Flows.magnitudes {t : Target} {id : RoutineId} {α : Type} {size : Nat} {back : Back}
    {ahead : Ahead} {P : Assertion} {r : Footing}
    {rest : Writer α} [P.RestsOn r] (hA : (conduct t id).opens r fixA = true)
    (hA' : (conduct t id).opens r (fixA + 1) = true)
    (hB : (conduct t id).opens r fixB = true) (hB' : (conduct t id).opens r (fixB + 1) = true)
    (h : ∀ back, Flows (conduct t) t id (size - 90) back ahead 0 (P.also .fixedSizes) rest) :
    Flows (conduct t) t id size back ahead 0 (P.also .fixedWords)
      (Writer.absoluteWord fixA >>= fun _ => Writer.absoluteWord fixB >>= fun _ => rest) := by
  refine .absoluteWord
    (R := fun _ u v => v.word fixA = sixteenths fixA u ∧ v.word fixB = u.word fixB) hA hA'
    (fun n u v w _ hv hframe hmagnitude => ?_) fun _ => ?_
  · exact ⟨hmagnitude.trans (congrArg (magnitude 65536) hv.1),
      (hframe.word (by decide) (by decide)).trans hv.2⟩
  refine .absoluteWord hB hB' (fun n u v w _ hv hframe hmagnitude => ?_) fun _ => .fit (h _) ?_
  · exact ⟨(hframe.word (by decide) (by decide)).trans hv.1,
      hmagnitude.trans (congrArg (magnitude 65536) hv.2)⟩
  · simp only [Nat.sub_sub]
    exact Nat.le_refl _

/-! ## Multiplication -/

/-- The product of the magnitudes is shifted back by four places. -/
theorem fixedMul_conducted {t : Target} : Conducted t .fixedMul := by
  refine .last ?_
  simp only [body, fixedMul, bind_assoc]
  let P : Assertion := .fixedSigned work
  let product (u : View) : ℕ := sixteenths fixB u * sixteenths fixA u
  refine .exec (Q := P.also .fixedWords) rfl (fun n u v huv => huv ▸ ⟨_, rfl, rfl, rfl, rfl⟩) ?_
  refine .magnitudes rfl rfl rfl rfl fun _ => ?_
  refine .multiplyWide (R := fun _ u v => v.double fixR fixB = product u)
    ⟨by decide, by decide, by decide⟩ rfl rfl rfl rfl rfl (fun b c u v w _ hv _ hdouble => ?_) ?_
  · rw [hdouble, hv.1, hv.2]
  -- with X places to go the double word is the product, shifted by the other ones
  let shifted (i : ℕ) : Since := fun u v => v.double fixR fixB / 2 ^ i = product u / 16
  refine .turn (R := fun _ u v => shifted v.x.toNat u v ∧ 1 ≤ v.x.toNat)
    rfl (fun n u v _ hv => ⟨_, rfl, ?_, Nat.le_of_ble_eq_true rfl⟩)
    (.rounds fun shift => ?_)
  · show v.double fixR fixB / 2 ^ 4 = _
    rw [hv]
    rfl
  refine .turn (R := .turned shifted) rfl (fun b u v _ hv => ?_)
    (.nextRound rfl (fun i u v w hzp h => ?_) ?_)
  · obtain ⟨hshifted, hpos, hb⟩ := hv
    obtain ⟨w, hexec, hdouble, -, hx⟩ := @shiftRight_double v fixR fixB (by decide)
    refine ⟨w, hexec, ?_, hx ▸ hpos, hx ▸ hb⟩
    show w.double fixR fixB / 2 ^ (w.x.toNat - 1) = _
    rw [hdouble, hx, ← hshifted, Nat.div_div_eq_div_mul, ← pow_succ', Nat.sub_add_cancel hpos]
  · show w.double fixR fixB / 2 ^ i = _
    rw [View.double, View.word, View.word, hzp]
    exact h
  refine .label (.oversized .mul work) fun saturated => ?_
  refine .run (Q := P.also fun _ u v => v.double fixR fixB = product u / 16 ∧
    v.zero = decide (v.word fixR = 0)) rfl
    (fun n u v hv => ?_) ?_
  · obtain ⟨hsign, hproduct⟩ := hv
    obtain ⟨w, hexec, hzero, hzp⟩ := test_word v fixR
    have hword (z : UInt8) : w.word z = v.word z :=
      View.word_congr (congrFun hzp _) (congrFun hzp _)
    refine ⟨w, hexec, (congrFun hzp work).trans hsign, ?_, by rw [hword, hzero]⟩
    rw [View.double, hword, hword]
    exact (Nat.div_one _).symm.trans hproduct
  refine .branch (Q := P.also fun _ u v => v.word fixB = product u / 16) (fun n u v hv htaken =>
    ?_) (fun n u v hv hskipped => ?_) ?_
  · obtain ⟨hsign, hproduct, hzero⟩ := hv
    have hmore : v.word fixR ≠ 0 := by simpa [View.takes?, hzero] using htaken
    rw [View.double] at hproduct
    exact oversized_of_large (mul_sixteenths u) hsign (show 32768 ≤ product u / 16 by omega)
  · obtain ⟨hsign, hproduct, hzero⟩ := hv
    have hnone : v.word fixR = 0 := by simpa [View.takes?, hzero] using hskipped
    rw [View.double, hnone] at hproduct
    exact ⟨hsign, by omega⟩
  refine .exec (Q := P.also fun _ u v => v.word fixB = product u / 16 ∧
    v.negative = decide (32768 ≤ v.word fixB)) rfl
    (fun n u v hv => ⟨_, rfl, hv.1, hv.2, ?_⟩) ?_
  · show isNegative (v.zp (fixB + 1)) = decide (32768 ≤ v.word fixB)
    rw [isNegative_high, decide_eq_decide]
    omega
  refine .branch (Q := P.also fun _ u v => v.word fixB = product u / 16 ∧
    v.word fixB < 32768) (fun n u v hv htaken => ?_)
    (fun n u v hv hskipped => ⟨hv.1, hv.2.1, by simpa [View.takes?, hv.2.2] using hskipped⟩) ?_
  · obtain ⟨hsign, hproduct, hnegative⟩ := hv
    have hmore : 32768 ≤ v.word fixB := by simpa [View.takes?, hnegative] using htaken
    exact oversized_of_large (mul_sixteenths u) hsign (show 32768 ≤ product u / 16 by omega)
  refine .run (Q := .sized .mul work) rfl (fun n u v hv => ?_)
    (.signedResult fixedMul_calculates fun _ => .bind ?_)
  · obtain ⟨hsign, hproduct, hless⟩ := hv
    obtain ⟨w, hexec, hword⟩ := move_word v fixB (y := fixR) (by decide)
    have hsign' : Assertion.fixedSigned work n u w :=
      ((execAll_frame hexec rfl).zp work (by decide)).trans hsign
    exact ⟨w, hexec,
      sized_of_small (mul_sixteenths u) hsign' (hword.trans hproduct) (hproduct ▸ hless)⟩
  exact .saturate fixedMul_calculates fun _ => .done (by decide) _

/-! ## Division -/

/-- What is left of the dividend, with the quotient behind it. -/
def dividendOf (v : View) : ℕ := v.word work + 65536 * (v.zp (work + 2)).toNat

theorem dividendOf_lt (v : View) : dividendOf v < 2 ^ 24 := by
  have := v.word_lt work
  have := (v.zp (work + 2)).toNat_lt
  rw [dividendOf]
  omega

/-- The dividend is doubled; the carry is the bit that is lost. -/
theorem double_dividend (v : View) :
    ∃ w, execAll v [.instr .asl (.zeroPage work), .instr .rol (.zeroPage (work + 1)),
      .instr .rol (.zeroPage (work + 2))] = some w ∧
      dividendOf w = 2 * dividendOf v % 2 ^ 24 ∧ w.carry = decide (2 ^ 24 ≤ 2 * dividendOf v) ∧
        w.x = v.x := by
  obtain ⟨u, hexec, hword, hcarry, -⟩ := shiftLeft_word v work
  have hframe := execAll_frame hexec rfl
  have htop : u.zp (work + 2) = v.zp (work + 2) := hframe.zp _ (by decide)
  have hx : u.x = v.x := execAll_x hexec rfl
  have := v.word_lt work
  have := (v.zp (work + 2)).toNat_lt
  obtain ⟨w, hexec', hzp, hcarry', hx'⟩ : ∃ w,
      execAll u [.instr .rol (.zeroPage (work + 2))] = some w ∧
      w.zp = Function.update u.zp (work + 2) (.ofNat (2 * (v.zp (work + 2)).toNat + bit u.carry)) ∧
      w.carry = decide (128 ≤ (v.zp (work + 2)).toNat) ∧ w.x = u.x := by
    refine ⟨_, rfl, ?_, ?_, rfl⟩
    · simp [htop]
    · simp [htop, isNegative]
  have hlow : w.word work = u.word work := View.word_congr (by rw [hzp]; rfl) (by rw [hzp]; rfl)
  have hhigh : (w.zp (work + 2)).toNat = (2 * (v.zp (work + 2)).toNat + bit u.carry) % 256 := by
    rw [hzp, Function.update_self, UInt8.toNat_ofNat']
  refine ⟨w, execAll_trans hexec hexec', ?_, ?_, hx'.trans hx⟩
  · rw [dividendOf, dividendOf, hlow, hhigh, hword, hcarry]
    by_cases hover : 65536 ≤ 2 * v.word work <;> simp [hover, bit] <;> omega
  · rw [hcarry', dividendOf, decide_eq_decide]
    omega

/-- The dividend is doubled, and what goes out of it comes into the remainder, which is doubled as
well. -/
theorem double_remainder (v : View) :
    ∃ w, execAll v [.instr .asl (.zeroPage work), .instr .rol (.zeroPage (work + 1)),
      .instr .rol (.zeroPage (work + 2)), .instr .rol (.zeroPage (work + 3)),
        .instr .rol (.zeroPage (work + 4))] = some w ∧
      dividendOf w = 2 * dividendOf v % 2 ^ 24 ∧
      w.word (work + 3) + 65536 * bit w.carry = 2 * v.word (work + 3) + 2 * dividendOf v / 2 ^ 24 ∧
      w.word fixB = v.word fixB ∧ w.x = v.x := by
  obtain ⟨u, hexec, hdividend, hcarry, hx⟩ := double_dividend v
  have hframe := execAll_frame hexec rfl
  have hrest : u.word (work + 3) = v.word (work + 3) := hframe.word (by decide) (by decide)
  obtain ⟨w, hexec', hword, hcarry', -⟩ := rotateLeft_word u (work + 3)
  have hframe' := execAll_frame hexec' rfl
  have hx' : w.x = u.x := execAll_x hexec' rfl
  have hkept : dividendOf w = dividendOf u := by
    rw [dividendOf, dividendOf, hframe'.word (by decide) (by decide), hframe'.zp _ (by decide)]
  have := v.word_lt (work + 3)
  have := dividendOf_lt v
  refine ⟨w, execAll_trans hexec hexec', hkept.trans hdividend, ?_, ?_, hx'.trans hx⟩
  · rw [hword, hcarry', hrest, hcarry]
    by_cases hover : 2 ^ 24 ≤ 2 * dividendOf v <;> by_cases hover' : 32768 ≤ v.word (work + 3) <;>
      simp only [hover, hover', bit, decide_true, decide_false, Bool.toNat_true,
        Bool.toNat_false] <;> omega
  · exact (hframe'.word (by decide) (by decide)).trans (hframe.word (by decide) (by decide))

/-- The quotient and the remainder that come out. -/
def dividedOf (u : View) : ℕ × ℕ :=
  (16 * sixteenths fixA u / sixteenths fixB u, 16 * sixteenths fixA u % sixteenths fixB u)

/-- What the rounds that are left make of a dividend and a remainder. -/
def divides (i : ℕ) (u : View) (s : ℕ × ℕ) : Prop :=
  (divRound (2 ^ 24) (sixteenths fixB u))^[i] s = dividedOf u

namespace Assertion

/-- The dividend has to be doubled `i` times more. -/
def widening (i : ℕ) : Since :=
  fun u v => dividendOf v * 2 ^ i = 16 * sixteenths fixA u ∧ v.word (work + 3) = 0 ∧
  v.word fixB = sixteenths fixB u

/-- There are `i` rounds to go. -/
def dividing (i : ℕ) : Since := fun u v => divides i u (dividendOf v, v.word (work + 3)) ∧
  v.word (work + 3) < sixteenths fixB u ∧ v.word fixB = sixteenths fixB u

/-- The dividend has been doubled and `r` is the remainder, from which the divisor has to be taken
if it is not below it. -/
structure Trying (r i : ℕ) (u v : View) : Prop where
  even : dividendOf v % 2 = 0
  divisor : v.word fixB = sixteenths fixB u
  less : r < 2 * sixteenths fixB u
  fits : sixteenths fixB u ≤ r → divides i u (dividendOf v + 1, r - sixteenths fixB u)
  unfit : r < sixteenths fixB u → divides i u (dividendOf v, r)

/-- The divisor has to be taken from the remainder, the last bit of which may be lost. -/
def subtracting : Assertion := fun n u v => ∃ r, v.carry = true ∧ v.word (work + 3) = r % 65536 ∧
    sixteenths fixB u ≤ r ∧
  Trying r (v.x.toNat - 1) u v ∧ 1 ≤ v.x.toNat ∧ v.x.toNat ≤ n

end Assertion

/-- A round doubles the dividend and the remainder. -/
theorem Assertion.dividing.double {i : ℕ} {u v w : View} (h : dividing (i + 1) u v)
    (hdividend : dividendOf w = 2 * dividendOf v % 2 ^ 24)
    (hdivisor : w.word fixB = v.word fixB) :
    Trying (2 * v.word (work + 3) + 2 * dividendOf v / 2 ^ 24) i u w := by
  obtain ⟨hdivides, hless, hB⟩ := h
  have := dividendOf_lt v
  rw [divides, Function.iterate_succ_apply, divRound] at hdivides
  refine ⟨by omega, hdivisor.trans hB, by omega, fun hfits => ?_, fun hunfit => ?_⟩
  · simp only [if_pos hfits] at hdivides
    rw [divides, hdividend]
    exact hdivides
  · simp only [if_neg (Nat.not_le.2 hunfit)] at hdivides
    rw [divides, hdividend]
    exact hdivides

/-- The divisor is taken from the remainder, and the quotient has a one. -/
theorem subtract_divisor (v : View) (hcarry : v.carry = true) (heven : dividendOf v % 2 = 0) :
    ∃ w, execAll v [.instr .lda (.zeroPage (work + 3)), .instr .sbc (.zeroPage fixB),
      .instr .sta (.zeroPage (work + 3)), .instr .lda (.zeroPage (work + 4)),
        .instr .sbc (.zeroPage (fixB + 1)), .instr .sta (.zeroPage (work + 4)),
        .instr .inc (.zeroPage work)] = some w ∧
      w.word (work + 3) = (v.word (work + 3) + 65536 - v.word fixB) % 65536 ∧
        dividendOf w = dividendOf v + 1 ∧
      w.word fixB = v.word fixB ∧ w.x = v.x := by
  obtain ⟨u, hexec, hrest, -⟩ := subtract_word v (y := work + 3) (z := fixB) (by decide) hcarry
  have hframe := execAll_frame hexec rfl
  have hdividend : dividendOf u = dividendOf v := by
    rw [dividendOf, dividendOf, hframe.word (by decide) (by decide), hframe.zp _ (by decide)]
  have hx : u.x = v.x := execAll_x hexec rfl
  have hword : u.word work % 2 = 0 := by
    rw [← hdividend, dividendOf] at heven
    omega
  obtain ⟨w, hexec', hnext, -⟩ := increment_word u hword
  have hframe' := execAll_frame hexec' rfl
  have hx' : w.x = u.x := execAll_x hexec' rfl
  refine ⟨w, execAll_trans hexec hexec', (hframe'.word (by decide) (by decide)).trans hrest, ?_,
    (hframe'.word (by decide) (by decide)).trans (hframe.word (by decide) (by decide)),
    hx'.trans hx⟩
  rw [← hdividend, dividendOf, dividendOf, hnext, hframe'.zp _ (by decide)]
  omega

/-- A round in which the divisor has been taken, or is not below the remainder. -/
theorem Assertion.Trying.next {n : ℕ} {u v : View}
    (h : Trying (v.word (work + 3)) (v.x.toNat - 1) u v)
    (hless : v.word (work + 3) < sixteenths fixB u) (hpos : 1 ≤ v.x.toNat) (hn : v.x.toNat ≤ n) :
    turned dividing n u v :=
  ⟨⟨h.unfit hless, hless, h.divisor⟩, hpos, hn⟩

/-- What is stored before the division starts. -/
theorem dividend_ready (v : View) :
    ∃ w, execAll v [.instr .lda (.zeroPage fixA), .instr .sta (.zeroPage work),
      .instr .lda (.zeroPage (fixA + 1)), .instr .sta (.zeroPage (work + 1)),
        .instr .lda (.immediate 0), .instr .sta (.zeroPage (work + 2)),
        .instr .sta (.zeroPage (work + 3)), .instr .sta (.zeroPage (work + 4)),
          .instr .ldx (.immediate 4)] = some w ∧
      dividendOf w = v.word fixA ∧ w.word (work + 3) = 0 ∧ w.word fixB = v.word fixB ∧ w.x = 4 := by
  refine ⟨_, rfl, ?_, rfl, rfl, rfl⟩
  simp +decide [dividendOf, View.word]

/-- The magnitude of the dividend, shifted left by four places, is divided in twenty-four rounds. -/
theorem fixedDiv_conducted {t : Target} : Conducted t .fixedDiv := by
  refine .last ?_
  simp only [body, fixedDiv, bind_assoc]
  let P : Assertion := (Assertion.fixedSigned (work + 5)).also (.given fun u => u.word fixB ≠ 0)
  refine .label (P.also .fixedWords) fun proceed => ?_
  refine .exec (Q := (Assertion.fixedSigned (work + 5)).also fun n u v =>
    Assertion.fixedWords n u v ∧
    v.zp (fixA + 1) = u.zp (fixA + 1) ∧
    v.zero = decide (u.word fixB = 0)) rfl (fun n u v huv => ?_) ?_
  · subst huv
    refine ⟨_, rfl, rfl, ⟨rfl, rfl⟩, rfl, ?_⟩
    show (u.zp fixB ||| u.zp (fixB + 1) == 0) = _
    rw [Bool.eq_iff_iff, beq_iff_eq, decide_eq_true_eq, or_eq_zero_iff, eq_zero_iff,
      eq_zero_iff, View.word]
    omega
  refine .branch (Q := .oversized .div (fixA + 1)) (fun n u v hv htaken =>
    ?_) (fun n u v hv hskipped => ?_)
    (.saturate fixedDiv_calculates fun _ => .bind ?_)
  · obtain ⟨hsign, hwords, -, hzero⟩ := hv
    have hne : u.word fixB ≠ 0 := by simpa [View.takes?, hzero] using htaken
    exact ⟨⟨hsign, hne⟩, hwords⟩
  · obtain ⟨-, -, hhigh, hzero⟩ := hv
    have hnone : u.word fixB = 0 := by simpa [View.takes?, hzero] using hskipped
    rw [Assertion.oversized, div_zero_sixteenths hnone,
      Fixed.ofMagnitude_large _ (Nat.le_refl _), hhigh]
  refine .magnitudes rfl rfl rfl rfl fun _ => ?_
  refine .turn (R := fun _ u v => Assertion.widening v.x.toNat u v ∧ 1 ≤ v.x.toNat)
    rfl (fun n u v _ hv => ?_)
    (.rounds fun widen => ?_)
  · obtain ⟨w, hexec, hdividend, hrest, hB, hx⟩ := dividend_ready v
    refine ⟨w, hexec, ⟨?_, hrest, hB.trans hv.2⟩, by rw [hx]; decide⟩
    rw [hdividend, hv.1, hx]
    exact Nat.mul_comm _ _
  refine .turn (R := .turned Assertion.widening) rfl (fun n u v _ hv => ?_)
    (.nextRound rfl (fun i u v w hzp h => ?_) ?_)
  · obtain ⟨⟨hvalue, hrest, hB⟩, hpos, hn⟩ := hv
    obtain ⟨w, hexec, hdividend, -, hx⟩ := double_dividend v
    have hframe := execAll_frame hexec rfl
    have hpow : 2 ^ v.x.toNat = 2 * 2 ^ (v.x.toNat - 1) := by
      rw [← pow_succ', Nat.sub_add_cancel hpos]
    have hsmall : sixteenths fixA u < 65536 := (bmod_eq_magnitude (by decide) (u.word_lt fixA)).1
    have hdouble : 2 * dividendOf v ≤ 16 * sixteenths fixA u := by
      rw [← hvalue, hpow, Nat.mul_comm 2]
      exact Nat.mul_le_mul_left _ (Nat.le_mul_of_pos_right 2 (Nat.two_pow_pos _))
    refine ⟨w, hexec,
      ⟨?_, (hframe.word (by decide) (by decide)).trans hrest,
        (hframe.word (by decide) (by decide)).trans hB⟩, hx ▸ hpos, hx ▸ hn⟩
    rw [hdividend, hx, Nat.mod_eq_of_lt (by omega), ← hvalue, hpow]
    ring
  · have hword (z : UInt8) : w.word z = v.word z :=
      View.word_congr (congrFun hzp _) (congrFun hzp _)
    rw [Assertion.widening, dividendOf, hword, hword, hword, hzp]
    exact h
  refine .turn (R := fun _ u v => Assertion.dividing v.x.toNat u v ∧ 1 ≤ v.x.toNat)
    rfl (fun n u v hp hv => ?_)
    (.rounds fun loop => ?_)
  · obtain ⟨hvalue, hrest, hB⟩ := hv
    have hpos : 0 < sixteenths fixB u :=
      Nat.pos_of_ne_zero (magnitude_ne_zero (u.word_lt fixB) hp.2)
    have hvalue : dividendOf v = 16 * sixteenths fixA u := by simpa using hvalue
    refine ⟨_, rfl, ⟨?_, hrest ▸ hpos, hB⟩, Nat.le_of_ble_eq_true rfl⟩
    show (divRound (2 ^ 24) (sixteenths fixB u))^[24] (dividendOf v, v.word (work + 3)) =
      dividedOf u
    rw [hrest, divRound_divides 24 hpos (dividendOf_lt v), hvalue]
    rfl
  refine .label (P.also .subtracting) fun subtract =>
    .label (P.also (.turned Assertion.dividing)) fun next => ?_
  refine .turn (R := fun n u v => ∃ r, v.word (work + 3) + 65536 * bit v.carry = r ∧
    Assertion.Trying r (v.x.toNat - 1) u v ∧
    1 ≤ v.x.toNat ∧ v.x.toNat ≤ n) rfl (fun n u v _ hv => ?_) ?_
  · obtain ⟨hdividing, hpos, hn⟩ := hv
    obtain ⟨w, hexec, hdividend, hrest, hB, hx⟩ := double_remainder v
    rw [← Nat.sub_add_cancel hpos] at hdividing
    exact ⟨w, hexec, _, hrest, hx ▸ hdividing.double hdividend hB, hx ▸ hpos, hx ▸ hn⟩
  refine .branch (Q := P.also fun n u v =>
    Assertion.Trying (v.word (work + 3)) (v.x.toNat - 1) u v ∧ 1 ≤ v.x.toNat ∧ v.x.toNat ≤ n)
    (fun n u v hv htaken => ?_) (fun n u v hv hskipped => ?_) ?_
  · obtain ⟨hp, r, hr, htrying, hrounds⟩ := hv
    have hset : v.carry = true := by simpa [View.takes?] using htaken
    have := v.word_lt (work + 3)
    have hsmall : 2 * sixteenths fixB u ≤ 65536 := magnitude_le (u.word_lt fixB)
    rw [hset] at hr
    simp only [bit, Bool.toNat_true] at hr
    exact ⟨hp, r, hset, by omega, by omega, htrying, hrounds⟩
  · obtain ⟨hp, r, hr, htrying, hrounds⟩ := hv
    have hclear : v.carry = false := by simpa [View.takes?] using hskipped
    rw [hclear] at hr
    obtain rfl : r = v.word (work + 3) := by simpa [bit] using hr.symm
    exact ⟨hp, htrying, hrounds⟩
  refine .piece (R := fun n u v =>
    (Assertion.Trying (v.word (work + 3)) (v.x.toNat - 1) u v ∧ 1 ≤ v.x.toNat ∧ v.x.toNat ≤ n) ∧
    v.carry = decide (sixteenths fixB u ≤ v.word (work + 3))) rfl (fun n u v _ hv => ?_) ?_
  · obtain ⟨htrying, hrounds⟩ := hv
    obtain ⟨w, hexec, hcarry, -, hzp⟩ := compare_word v (work + 3) fixB
    have hword (z : UInt8) : w.word z = v.word z :=
      View.word_congr (congrFun hzp _) (congrFun hzp _)
    have hdividend : dividendOf w = dividendOf v := by rw [dividendOf, dividendOf, hword, hzp]
    have hx : w.x = v.x := execAll_x hexec rfl
    rw [htrying.divisor] at hcarry
    refine ⟨w, hexec, ⟨⟨?_, ?_, ?_, ?_, ?_⟩, hx ▸ hrounds⟩, by rw [hcarry, hword]⟩
    · rw [hdividend]
      exact htrying.even
    · rw [hword]
      exact htrying.divisor
    · rw [hword]
      exact htrying.less
    · rw [hdividend, hword, hx]
      exact htrying.fits
    · rw [hdividend, hword, hx]
      exact htrying.unfit
  refine .branch (Q := P.also .subtracting) (fun n u v hv htaken =>
    ?_) (fun n u v hv hskipped => ?_) (.bind ?_)
  · obtain ⟨hp, ⟨htrying, hpos, hn⟩, hcarry⟩ := hv
    have hless : v.word (work + 3) < sixteenths fixB u := by
      simpa [View.takes?, hcarry] using htaken
    exact ⟨hp, htrying.next hless hpos hn⟩
  · obtain ⟨hp, ⟨htrying, hrounds⟩, hcarry⟩ := hv
    have hset : v.carry = true := by simpa [View.takes?] using hskipped
    have := v.word_lt (work + 3)
    rw [hcarry, decide_eq_true_eq] at hset
    exact ⟨hp, _, by rw [hcarry, decide_eq_true hset], by omega, hset, htrying, hrounds⟩
  refine .turn (R := .turned Assertion.dividing) rfl (fun n u v _ hv => ?_)
    (.bind (.nextRound rfl (fun i u v w hzp h => ?_) ?_))
  · obtain ⟨r, hcarry, hrest, hfits, htrying, hpos, hn⟩ := hv
    obtain ⟨w, hexec, hrest', hdividend, hB, hx⟩ := subtract_divisor v hcarry htrying.even
    have hless := htrying.less
    have hsmall : 2 * sixteenths fixB u ≤ 65536 := magnitude_le (u.word_lt fixB)
    have hleft : w.word (work + 3) = r - sixteenths fixB u := by
      rw [hrest', hrest, htrying.divisor]
      omega
    refine ⟨w, hexec, ⟨?_, by omega, hB.trans htrying.divisor⟩, hx ▸ hpos, hx ▸ hn⟩
    rw [hdividend, hleft, hx]
    exact htrying.fits hfits
  · have hword (z : UInt8) : w.word z = v.word z :=
      View.word_congr (congrFun hzp _) (congrFun hzp _)
    rw [Assertion.dividing, dividendOf, hword, hword, hword, hzp]
    exact h
  refine .label (.oversized .div (work + 5)) fun saturated => ?_
  let quotient (u : View) : ℕ := 16 * sixteenths fixA u / sixteenths fixB u
  refine .exec (Q := P.also fun _ u v => dividendOf v = quotient u ∧
    v.zero = decide (v.zp (work + 2) = 0)) rfl (fun n u v hv => ?_) ?_
  · obtain ⟨hp, hdivides, -⟩ := hv
    exact ⟨_, rfl, hp, congrArg Prod.fst hdivides, rfl⟩
  refine .branch (Q := P.also fun _ u v => v.word work = quotient u) (fun n u v hv htaken =>
    ?_) (fun n u v hv hskipped => ?_) ?_
  · obtain ⟨hp, hquotient, hzero⟩ := hv
    have hmore : v.zp (work + 2) ≠ 0 := by simpa [View.takes?, hzero] using htaken
    rw [Ne, eq_zero_iff] at hmore
    rw [dividendOf] at hquotient
    exact oversized_of_large (div_sixteenths hp.2) hp.1 (show 32768 ≤ quotient u by omega)
  · obtain ⟨hp, hquotient, hzero⟩ := hv
    have hnone : v.zp (work + 2) = 0 := by simpa [View.takes?, hzero] using hskipped
    rw [dividendOf, hnone] at hquotient
    exact ⟨hp, by simpa using hquotient⟩
  refine .exec (Q := P.also fun _ u v => v.word work = quotient u ∧
    v.negative = decide (32768 ≤ v.word work)) rfl
    (fun n u v hv => ⟨_, rfl, hv.1, hv.2, ?_⟩) ?_
  · show isNegative (v.zp (work + 1)) = decide (32768 ≤ v.word work)
    rw [isNegative_high, decide_eq_decide]
    omega
  refine .branch (Q := P.also fun _ u v => v.word work = quotient u ∧
    v.word work < 32768) (fun n u v hv htaken => ?_)
    (fun n u v hv hskipped => ⟨hv.1, hv.2.1, by simpa [View.takes?, hv.2.2] using hskipped⟩) ?_
  · obtain ⟨hp, hquotient, hnegative⟩ := hv
    have hmore : 32768 ≤ v.word work := by simpa [View.takes?, hnegative] using htaken
    exact oversized_of_large (div_sixteenths hp.2) hp.1 (show 32768 ≤ quotient u by omega)
  refine .run (Q := .sized .div (work + 5)) rfl (fun n u v hv => ?_)
    (.signedResult fixedDiv_calculates fun _ => .bind ?_)
  · obtain ⟨hp, hquotient, hless⟩ := hv
    obtain ⟨w, hexec, hword⟩ := move_word v work (y := fixR) (by decide)
    have hsign' : Assertion.fixedSigned (work + 5) n u w :=
      ((execAll_frame hexec rfl).zp _ (by decide)).trans hp.1
    exact ⟨w, hexec, sized_of_small (div_sixteenths hp.2) hsign' (hword.trans hquotient)
      (lt_of_eq_of_lt hquotient.symm hless)⟩
  exact .saturate fixedDiv_calculates fun _ => .done (by decide) _

end Breadbin.Routine
