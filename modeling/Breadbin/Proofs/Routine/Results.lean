import Breadbin.Proofs.Routine.Packing

/-!
# Results

How the routines that add, subtract, multiply and divide floating-point numbers end: they return one
of the operands, a zero or an infinity with a sign, or what is no number, or have a mantissa packed.
-/

namespace Breadbin.Routine

open Assembly Machine Numeric ZeroPage Writer LinkedCode

variable (op : Datum → Datum → Datum)

/-- The exact result of an operation. -/
def exactly (u : View) : Datum := op (datumOf (u.word floatA)) (datumOf (u.word floatB))

namespace Assertion

/-- The operands are as they were. -/
abbrev operands : Assertion :=
  (Assertion.word floatA fun u w => w = u.word floatA).also
    (.word floatB fun u w => w = u.word floatB)

/-- The word in a slot is the result. -/
abbrev answer (a : UInt8) : Assertion := .word a fun u w => (exactly op u).Rounds (Half.ofWord w)

/-- The result is no number. -/
abbrev undefined : Assertion := .given fun u => exactly op u = .nan

/-- The result is what `result` gives for the sign that is kept. -/
def signed (result : Bool → Datum) : Assertion :=
  fun _ u v => ∃ s, v.zp work = signByte s ∧ exactly op u = result s

/-- The result is a finite number; the mantissa may stand one place too high. -/
def raised : Assertion := fun _ u v => ∃ s k t, exactly op u = .finite s (t * 2 ^ (k - 28)) ∧
  v.zp work = signByte s ∧ v.zp (work + 1) = .ofInt k ∧ -128 ≤ k ∧ k < 127 ∧
  Near 2 (v.word floatR) t ∧ 8192 ≤ v.word floatR ∧ v.word floatR < 32768

/-- The result is a finite number that is ready to be packed. -/
def packable : Assertion := fun _ u v => ∃ s k t, exactly op u = .finite s (t * 2 ^ (k - 28)) ∧
  v.zp work = signByte s ∧ v.zp (work + 1) = .ofInt k ∧ -128 ≤ k ∧ k < 128 ∧
  Near 4 (v.word floatR) t ∧ 8192 ≤ v.word floatR ∧ v.word floatR < 16384

end Assertion

variable {op}

theorem calculates_of_packable {n : ℕ} {u v w : View} (h : Assertion.packable op n u v)
    (hw : packs v w) :
    calculates op u w := by
  obtain ⟨s, k, t, hexact, hsign, hplace, hk, hk', hnear, hlow, hhigh⟩ := h
  refine ⟨hw.1, ?_⟩
  have hword := hw.2 s hsign hlow hhigh
  rw [hplace, signed_ofInt hk hk'] at hword
  change (exactly op u).Rounds _
  rw [hword, hexact]
  exact rounds_packed s hnear hlow hhigh k

/-- A number is halved, and its exponent counted up. -/
theorem zpow_halve (t : ℚ) (k : ℤ) : t / 2 * 2 ^ (k + 1 - 28) = t * 2 ^ (k - 28) := by
  rw [show k + 1 - 28 = k - 28 + 1 by ring, zpow_add_one₀ (by norm_num)]
  ring

theorem halved_bounds {m : ℕ} (hm : 16384 ≤ m) (hm' : m < 32768) :
    8192 ≤ halved m ∧ halved m < 16384 := by
  unfold halved
  split <;> omega

/-- The bit that tells that a mantissa stands one place too high. -/
theorem raised_flag {n : ℕ} {u v : View} (h : Assertion.raised op n u v) :
    ∃ w, execAll v [.instr .lda (.zeroPage (floatR + 1)), .instr .and (.immediate overflowBit)] =
      some w ∧
      Assertion.raised op n u w ∧ w.zero = decide (w.word floatR < 16384) := by
  refine ⟨_, rfl, h, ?_⟩
  obtain ⟨s, k, t, -, -, -, -, -, -, hlow, hhigh⟩ := h
  show (v.zp (floatR + 1) &&& 0x40 == 0) = decide (v.word floatR < 16384)
  rw [and_0x40, high_eq, decide_eq_decide]
  omega

namespace Flows

variable {t : Target} {id : RoutineId} {α : Type} {size : Nat} {back : Back} {ahead : Ahead}
  {P : Assertion} {rest : Writer α}

/-- A word is returned. -/
theorem returnAnswer {a : UInt8} (hid : conduct t id = calculation op) (ha : a + 1 ≠ floatR)
    (h : Flows (conduct t) t id (size - 35) back ahead 0 .never rest) :
    Flows (conduct t) t id size back ahead 0 (.answer op a)
      (moveWord floatR a >>= fun _ => returnWord floatR >>= fun _ => rest) := by
  refine .exec (Q := fun _ u v => calculates op u v) ?_ (fun n u v hv => ?_)
    (.rts (fun _ _ _ h => ?_) (.fit h ?_))
  · rw [hid]
    rfl
  · obtain ⟨w, hexec, hword⟩ := move_word v a ha
    have hreturn : execAll w
        [.instr .lda (.zeroPage floatR), .instr .ldx (.zeroPage (floatR + 1))] =
        some ((w.setA (w.zp floatR)).setX (w.zp (floatR + 1))) := rfl
    refine ⟨_, execAll_trans hexec hreturn, ⟨rfl, rfl⟩, ?_⟩
    show (exactly op u).Rounds (Half.ofWord (w.word floatR))
    rwa [hword]
  · rw [hid]
    exact h
  · simp only [Nat.sub_sub]
    exact Nat.le_refl _

/-- What is no number is returned. -/
theorem returnNan (hid : conduct t id = calculation op)
    (h : Flows (conduct t) t id (size - 35) back ahead 0 .never rest) :
    Flows (conduct t) t id size back ahead 0 (.undefined op)
      (returnConstant floatR notANumber >>= fun _ => rest) := by
  refine .exec (Q := fun _ u v => calculates op u v) ?_ (fun n u v hv => ⟨_, rfl, ⟨rfl, rfl⟩, ?_⟩)
    (.rts (fun _ _ _ h => ?_) (.fit h ?_))
  · rw [hid]
    rfl
  · have hword : (0x00 : UInt8).toNat + 256 * (0x7E : UInt8).toNat = 0x7E00 := rfl
    have hnan : Half.ofWord 0x7E00 = Half.nan := rfl
    change (exactly op u).Rounds (Half.ofWord ((0x00 : UInt8).toNat + 256 * (0x7E : UInt8).toNat))
    rw [hword, hnan, show exactly op u = .nan from hv]
    exact rounds_nan
  · rw [hid]
    exact h
  · simp only [Nat.sub_sub]
    exact Nat.le_refl _

/-- A word with the sign that is kept is returned. -/
theorem returnSigned {hi : UInt8} {result : Bool → Datum} (hid : conduct t id = calculation op)
    (hhi : hi.toNat < 128)
    (hresult : ∀ s, (result s).Rounds (Half.ofWord (signBit s + 256 * hi.toNat)))
    (h : Flows (conduct t) t id (size - 40) back ahead 0 .never rest) :
    Flows (conduct t) t id size back ahead 0 (.signed op result)
      (Routine.returnSigned hi >>= fun _ => rest) := by
  refine .exec (Q := fun _ u v => calculates op u v) ?_ (fun n u v hv => ⟨_, rfl, ⟨rfl, rfl⟩, ?_⟩)
    (.rts (fun _ _ _ h => ?_) (.fit h ?_))
  · rw [hid]
    rfl
  · obtain ⟨s, hsign, hexact⟩ := hv
    have hor : (hi ||| signByte s).toNat = hi.toNat + signBit s / 256 := by
      cases s with
      | true => exact or_high hi 7 (by decide) hhi
      | false => simp [signByte, signBit]
    have hkept : Function.update v.zp floatR 0 work = signByte s :=
      (Function.update_of_ne (by decide) _ _).trans hsign
    have hword : 0 + 256 * (hi ||| Function.update v.zp floatR 0 work).toNat =
        signBit s + 256 * hi.toNat := by
      rw [hkept, hor]
      cases s <;> simp [signBit]
      omega
    change (exactly op u).Rounds
      (Half.ofWord (0 + 256 * (hi ||| Function.update v.zp floatR 0 work).toNat))
    rw [hword, hexact]
    exact hresult s
  · rw [hid]
    exact h
  · simp only [Nat.sub_sub]
    exact Nat.le_refl _

/-- A mantissa that stands one place too high is brought back; the zero flag tells that it does
not. -/
theorem bringBack {pack : LabelId} [hpack : ahead.Promises pack (.entry (.packable op))]
    (hid : conduct t id = calculation op)
    (h : Flows (conduct t) t id (size - 40) back ahead 0 (.packable op) rest) :
    Flows (conduct t) t id size back ahead
      0 (fun n u v => Assertion.raised op n u v ∧ v.zero = decide (v.word floatR < 16384))
      (Writer.branch .beq pack >>= fun _ => Writer.shiftRightSticky floatR >>= fun _ =>
        zp .inc (work + 1) >>= fun _ =>
      rest) := by
  refine .branch (Q := Assertion.free.also fun n u v => Assertion.raised op n u v ∧
    16384 ≤ v.word floatR) (fun n u v hv htaken => ?_)
    (fun n u v hv hskipped => ?_) ?_
  · obtain ⟨⟨s, k, t, hexact, hsign, hplace, hk, hk', hnear, hlow, hhigh⟩, hzero⟩ := hv
    have hless : v.word floatR < 16384 := by simpa [View.takes?, hzero] using htaken
    exact ⟨s, k, t, hexact, hsign, hplace, hk, by omega, hnear.four, hlow, hless⟩
  · exact ⟨trivial, hv.1, by simpa [View.takes?, hv.2] using hskipped⟩
  refine .halve (R := fun _ u v => ∃ s k t, exactly op u = .finite s (t * 2 ^ (k + 1 - 28)) ∧
    v.zp work = signByte s ∧ v.zp (work + 1) = .ofInt k ∧ -128 ≤ k ∧ k < 127 ∧
    Near 4 (v.word floatR) t ∧ 8192 ≤ v.word floatR ∧
    v.word floatR < 16384) ?_ ?_ (fun n u v w _ hv hframe _ _ hword => ?_) ?_
  · rw [hid]
    rfl
  · rw [hid]
    rfl
  · obtain ⟨⟨s, k, t, hexact, hsign, hplace, hk, hk', hnear, -, hhigh⟩, hlow⟩ := hv
    obtain ⟨hlow', hhigh'⟩ := halved_bounds hlow hhigh
    refine ⟨s, k, t / 2, by rw [hexact, zpow_halve], ?_, ?_, hk, hk', ?_⟩
    · exact (hframe.zp _ (by decide)).trans hsign
    · exact (hframe.zp _ (by decide)).trans hplace
    · rw [hword]
      exact ⟨hnear.four.halve.four, hlow', hhigh'⟩
  refine .piece (R := .packable op) ?_ (fun n u v _ hv => ?_)
    (.fit (h.weaken fun _ _ _ hv => hv.2) ?_)
  · rw [hid]
    rfl
  · obtain ⟨s, k, t, hexact, hsign, hplace, hk, hk', hrest⟩ := hv
    refine ⟨_, rfl, s, k + 1, t, hexact, hsign, ?_, by omega, by omega, hrest⟩
    show v.zp (work + 1) + 1 = _
    rw [hplace, ofInt_add_one]
  · simp only [Nat.sub_sub]
    exact Nat.le_refl _

end Flows

end Breadbin.Routine

/-!
## Factors

What the routines that multiply and divide floating-point numbers have in common: the sign of the
result is the difference of the signs, operands that are no numbers, infinite or zero are sorted
out, and the others are unpacked.
-/

namespace Breadbin.Routine

open Assembly Machine Numeric ZeroPage Writer LinkedCode

/-- The sign of a product or a quotient. -/
def signsDiffer (u : View) : Bool := signOf (u.word floatA) ^^ signOf (u.word floatB)

/-- The magnitude of an operand. -/
abbrev sizeOf (a : UInt8) (u : View) : ℚ := scale (u.word a % 32768)

namespace Assertion

/-- The operands are as they were and have the property `p`; the sign of the result is kept. -/
abbrev known (p : View → Prop) : Assertion :=
  (operands.also (.byte work fun u b => b = signByte (signsDiffer u))).also (.given p)

/-- The result is a finite number with the sign that is kept. -/
abbrev magnitude (op : Datum → Datum → Datum) (x : View → ℚ) : Assertion :=
  (Assertion.given fun u => exactly op u = .finite (signsDiffer u) (x u)).also
    (.byte work fun u b => b = signByte (signsDiffer u))

/-- The operands are unpacked. -/
def factors : Assertion := fun _ u v => ∃ k l, v.zp (work + 1) = .ofInt k ∧
    v.zp (work + 2) = .ofInt l ∧
  IsUnpacked (sizeOf floatA u) (v.word floatA) k ∧ IsUnpacked (sizeOf floatB u) (v.word floatB) l ∧
  (8192 ≤ v.word floatA ∧ v.word floatA < 16384) ∧ 8192 ≤ v.word floatB ∧ v.word floatB < 16384

variable {p : View → Prop} {op : Datum → Datum → Datum} {n : ℕ} {u v : View}

theorem known.word {a : UInt8} (h : known p n u v) (ha : a = floatA ∨ a = floatB) :
    v.word a = u.word a := by
  obtain ⟨⟨⟨hA, hB⟩, -⟩, -⟩ := h
  rcases ha with rfl | rfl
  · exact hA
  · exact hB

theorem known.sign (h : known p n u v) : v.zp work = signByte (signsDiffer u) := h.1.2

theorem known.also {q : View → Prop} (h : known p n u v) (hq : q u) :
    known (fun u => p u ∧ q u) n u v :=
  ⟨h.1, h.2, hq⟩

theorem known.signed {result : Bool → Datum} (h : known p n u v)
    (hop : exactly op u = result (signsDiffer u)) :
    signed op result n u v :=
  ⟨_, h.sign, hop⟩

end Assertion

/-- The operands are numbers, or infinite. -/
def Numbers (u : View) : Prop := ¬IsNan (u.word floatA) ∧ ¬IsNan (u.word floatB)

/-- The sign of a product is the difference of the signs. -/
theorem signs_differ (v : View) (a b : UInt8) :
    (v.zp (a + 1) ^^^ v.zp (b + 1)) &&& 0x80 =
      signByte (signOf (v.word a) ^^ signOf (v.word b)) := by
  have hsign (a : UInt8) : signOf (v.word a) = isNegative (v.zp (a + 1)) := by
    have := high_eq v a
    rw [signOf, isNegative, decide_eq_decide]
    omega
  rw [and_0x80_eq, signByte, hsign, hsign, ← Bool.bne_eq_xor, ← isNegative_xor, isNegative]
  simp only [decide_eq_true_eq]

namespace Flows

variable {op : Datum → Datum → Datum} {t : Target} {id : RoutineId} {α : Type} {size : Nat}
  {back : Back} {ahead ahead₁ ahead₂ ahead₃ : Ahead}
  {p : View → Prop} {R : Assertion} {a : UInt8} {l nan infinite zero : LabelId} {rest : Writer α}

/-- A branch that is taken for an operand that is no number. -/
theorem whenNan [ahead.Promises l (.entry R)] (ha : a = floatA ∨ a = floatB)
    (hR : ∀ n u v, Assertion.known p n u v → IsNan (u.word a) → R n u v)
    (h : Flows (conduct t) t id (size - 40) back ahead 0
      (.known fun u => p u ∧ ¬IsNan (u.word a)) rest) :
    Flows (conduct t) t id size back ahead 0 (.known p) (Routine.branchNan a l >>= fun _ => rest) :=
  .branchNan (fun n u v hv hnan => hR n u v hv (hv.word ha ▸ hnan))
    (h.weaken fun _ _ _ hv => hv.1.also (hv.1.word ha ▸ hv.2))

/-- A branch that is taken for an operand that is infinite. -/
theorem whenSpecial [ahead.Promises l (.entry R)] (ha : a = floatA ∨ a = floatB)
    (hR : ∀ n u v, Assertion.known p n u v → Special (u.word a) → R n u v)
    (h : Flows (conduct t) t id (size - 20) back ahead 0
      (.known fun u => p u ∧ ¬Special (u.word a)) rest) :
    Flows (conduct t) t id size back ahead 0 (.known p)
      (Routine.branchSpecial a l >>= fun _ => rest) :=
  .branchSpecial (fun n u v hv hspecial => hR n u v hv (hv.word ha ▸ hspecial))
    (h.weaken fun _ _ _ hv => hv.1.also (hv.1.word ha ▸ hv.2))

/-- A branch that is taken for an operand that is zero. -/
theorem whenZero [ahead.Promises l (.entry R)] (ha : a = floatA ∨ a = floatB)
    (hR : ∀ n u v, Assertion.known p n u v → IsZero (u.word a) → R n u v)
    (h : Flows (conduct t) t id (size - 20) back ahead 0
      (.known fun u => p u ∧ ¬IsZero (u.word a)) rest) :
    Flows (conduct t) t id size back ahead 0 (.known p)
      (Routine.branchZero a l >>= fun _ => rest) :=
  .branchZero (fun n u v hv hzero => hR n u v hv (hv.word ha ▸ hzero))
    (h.weaken fun _ _ _ hv => hv.1.also (hv.1.word ha ▸ hv.2))

/-- The sign of the result is kept, and what is no number is sorted out. -/
theorem enter [ahead.Promises nan (.entry (.undefined op))] (hid : conduct t id = calculation op)
    (hop : ∀ u : View, IsNan (u.word floatA) ∨ IsNan (u.word floatB) → exactly op u = .nan)
    (h : Flows (conduct t) t id (size - 110) back ahead 0 (.known Numbers) rest) :
    Flows (conduct t) t id size back ahead 0 (fun _ => Eq)
      (zp .lda (floatA + 1) >>= fun _ => zp .eor (floatB + 1) >>= fun _ => imm .and 0x80 >>=
        fun _ => zp .sta work >>= fun _ =>
      Routine.branchNan floatA nan >>= fun _ => Routine.branchNan floatB nan >>=
        fun _ => rest) := by
  refine .exec (Q := .known fun _ => True) ?_ (fun n u v huv => ?_) ?_
  · rw [hid]
    rfl
  · subst huv
    exact ⟨_, rfl, ⟨⟨rfl, rfl⟩, signs_differ u floatA floatB⟩, trivial⟩
  refine .whenNan (.inl rfl) (fun n u v _ hA => hop u (.inl hA)) ?_
  refine .whenNan (.inr rfl) (fun n u v _ hB => hop u (.inr hB))
    (.fit (h.weaken fun _ _ _ hv => ?_) ?_)
  · obtain ⟨hv, ⟨-, hA⟩, hB⟩ := hv
    exact ⟨hv, hA, hB⟩
  · simp only [Nat.sub_sub]
    exact Nat.sub_le_sub_left (by decide) _

/-- The operands are unpacked. -/
theorem unpackBoth {x : View → ℚ} (hid : conduct t id = calculation op)
    (hx : ∀ u, p u → ¬Special (u.word floatA) ∧ ¬IsZero (u.word floatA) ∧ ¬Special (u.word floatB) ∧
      ¬IsZero (u.word floatB) ∧ exactly op u = .finite (signsDiffer u) (x u))
    (h : Flows (conduct t) t id (size - 400) [] ahead 0
      ((Assertion.magnitude op x).also .factors) rest) :
    Flows (conduct t) t id size back ahead 0 (.known p)
      (Routine.unpack floatA (work + 3) (work + 1) >>= fun _ =>
        Routine.unpack floatB (work + 3) (work + 2) >>= fun _ => rest) := by
  refine .weaken (Q := ((Assertion.magnitude op x).also
      (.word floatB fun u w => w = u.word floatB ∧ ¬Special w ∧ ¬IsZero w)).also
      (.word floatA fun u w => w = u.word floatA ∧ ¬Special w ∧ ¬IsZero w)) ?_ fun n u v hv => ?_
  swap
  · obtain ⟨hsA, hzA, hsB, hzB, hexact⟩ := hx u hv.2
    have hA := hv.word (.inl rfl)
    have hB := hv.word (.inr rfl)
    exact ⟨⟨⟨hexact, hv.sign⟩, hB, hB ▸ hsB, hB ▸ hzB⟩, hA, hA ▸ hsA, hA ▸ hzA⟩
  refine .unpack (by decide) (by rw [hid]; rfl) (by rw [hid]; rfl) (by rw [hid]; rfl)
    (by rw [hid]; rfl) ?_
  refine .weaken (Q :=
      ((Assertion.magnitude op x).also (.unpacked floatA (work + 1) (sizeOf floatA))).also
      (.word floatB fun u w => w = u.word floatB ∧ ¬Special w ∧ ¬IsZero w)) ?_
    fun _ _ _ hv => ⟨⟨hv.1.1.1, hv.2⟩, hv.1.1.2⟩
  refine .unpack (by decide) (by rw [hid]; rfl) (by rw [hid]; rfl) (by rw [hid]; rfl)
    (by rw [hid]; rfl)
    (.fit (h.weaken fun n u v hv => ?_) ?_)
  · obtain ⟨⟨⟨hmagnitude, ⟨k, hk, hA⟩, hnormalA⟩, -⟩, ⟨l, hl, hB⟩, hnormalB⟩ := hv
    exact ⟨hmagnitude, k, l, hk, hl, hA, hB, hnormalA, hnormalB⟩
  · simp only [Nat.sub_sub]
    exact Nat.le_refl _

/-- The result is an infinity, a zero or no number. -/
theorem leave [ahead.Keeps infinite (.entry (.signed op .infinite)) ahead₁]
    [ahead₁.Keeps zero (.entry (.signed op (.finite · 0))) ahead₂]
    [ahead₂.Keeps nan (.entry (.undefined op)) ahead₃] {P : Assertion}
    [P.Entails (.signed op .infinite)] (hid : conduct t id = calculation op)
    (h : ∀ back, Flows (conduct t) t id (size - 120) back ahead₃ 0 .never rest) :
    Flows (conduct t) t id size back ahead 0 P
      (Writer.bind infinite >>= fun _ => Routine.returnSigned exponentBits >>= fun _ =>
        Writer.bind zero >>= fun _ =>
      Routine.returnSigned 0 >>= fun _ => Writer.bind nan >>= fun _ =>
        returnConstant floatR notANumber >>= fun _ => rest) := by
  refine .bind (.returnSigned hid (by decide) rounds_infinite (.bind ?_))
  refine .returnSigned hid (by decide) rounds_zero (.bind (.returnNan hid (.fit (h _) ?_)))
  simp only [Nat.sub_sub]
  exact Nat.sub_le_sub_left (by decide) _

end Flows

end Breadbin.Routine
