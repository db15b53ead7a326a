import Breadbin.Proofs.Lowering.Arithmetic

/-!
# The code of comparisons

Values are compared in slots or at addresses behind the stack page.  Unsigned numbers are compared
by the carry of their difference; the difference of signed numbers has the sign of the comparison
unless it overflows, and then the other one.
-/

namespace Breadbin

namespace Machine

/-- A word is the number of its high byte, read with a sign, and its low byte. -/
theorem wordOf_bmod (lo hi : UInt8) :
    ((Cpu.wordOf lo hi).toNat : ℤ).bmod 65536 = 256 * signed hi + lo.toNat := by
  have := lo.toNat_lt
  have := hi.toNat_lt
  rw [LinkedCode.toNat_wordOf, Int.bmod_def, signed, isNegative]
  by_cases hneg : 128 ≤ hi.toNat <;>
    simp only [hneg, decide_true, decide_false, if_true, Bool.false_eq_true, if_false] <;>
    split <;> omega

theorem byte_bmod (n : UInt8) : (n.toUInt16.toNat : ℤ).bmod 256 = signed n := by
  have := n.toNat_lt
  rw [UInt8.toNat_toUInt16, Int.bmod_def, signed, isNegative]
  by_cases hneg : 128 ≤ n.toNat <;>
    simp only [hneg, decide_true, decide_false, if_true, Bool.false_eq_true, if_false] <;>
    split <;> omega

/-- The sign of a difference, turned where the difference overflows, tells which number is less. -/
theorem negative_ne_overflows (m n : UInt8) (c : Bool) :
    (isNegative (UInt8.ofNat (m.toNat + (~~~n).toNat + bit c)) != overflows m (~~~n) c) =
      decide (signed m < signed n + (1 - bit c)) := by
  have := m.toNat_lt
  have := n.toNat_lt
  have hcomplement := toNat_complement n
  rw [Bool.eq_iff_iff, bne_iff_ne, ne_eq, overflows, isNegative,
    UInt8.toNat_ofNat', ← Bool.decide_or, decide_eq_decide, decide_eq_true_eq]
  simp only [signed, isNegative, decide_eq_true_eq, hcomplement]
  by_cases hm : 128 ≤ m.toNat <;> by_cases hn : 128 ≤ n.toNat <;> cases c <;>
    simp only [hm, hn, if_true, if_false, bit, Bool.toNat_true, Bool.toNat_false] <;> omega

end Machine

namespace Lowering

open Assembly Machine ZeroPage

variable {p : Program} {s : Emission} {k : Kind}

/-! ## Places -/

namespace Place

/-- The argument for a byte of a place. -/
def arg (q : Place) (i : UInt8) : Arg :=
  match q with
  | address ref => .absolute (ref.plus i.toUInt16)
  | slot n => .zeroPage (n + i)

/-- The value that a place holds. -/
def Holds (q : Place) (wide : Bool) (bits : UInt16) (v : View) : Prop :=
  ∃ lo, v.operand? (q.arg 0) = some lo ∧
    if wide then ∃ hi, v.operand? (q.arg 1) = some hi ∧ bits = Cpu.wordOf lo hi
      else bits = lo.toUInt16

/-- A slot holds its value. -/
theorem holds_slot (z : UInt8) (wide : Bool) (v : View) :
    (slot z).Holds wide (v.slot wide z) v := by
  refine ⟨v.zp z, by simp [arg, View.operand?], ?_⟩
  cases wide with
  | true => exact ⟨v.zp (z + 1), rfl, rfl⟩
  | false => rfl

end Place

instance (mn : Mnemonic) (q : Place) (i : UInt8) : Straight (emit mn (q.byte i)) where
  lines := [.instr mn (q.arg i)]
  performs _ _ := by cases q <;> rfl
  plain := rfl

/-! ## Less -/

/-- One value is below another one. -/
def Below (k : Kind) (m n : UInt16) : Prop :=
  if k.isSigned then (m.toNat : ℤ).bmod k.modulus < (n.toNat : ℤ).bmod k.modulus
    else m.toNat < n.toNat

instance (k : Kind) (m n : UInt16) : Decidable (Below k m n) := by
  unfold Below
  infer_instance

theorem below_iff (hk : k.isIntegral = true) {m n : UInt16} {x y : ℤ} (hm : k.Denotes m x)
    (hn : k.Denotes n y) :
    Below k m n ↔ x < y := by
  unfold Below
  cases hsigned : k.isSigned with
  | true =>
    have hinteger : k.isInteger = true := by
      cases k <;> first | rfl | cases hk; done | cases hsigned
    rw [if_pos rfl, ← hm.eq_bmod hinteger hsigned, ← hn.eq_bmod hinteger hsigned]
  | false =>
    rw [if_neg (by decide)]
    have hcast {bits : UInt16} {i : ℤ} (h : k.Denotes bits i) : i = bits.toNat := by
      by_cases hbool : k = .bool
      · have hvalue := h.value
        have hlt := h.toNat_lt
        subst hbool
        rw [Kind.modulus_narrow rfl] at hlt
        change (bits.toNat : ℤ) % 256 = i at hvalue
        omega
      · have hunsigned : k.isUnsigned = true := by
          cases k <;> first | rfl | cases hk; done | cases hsigned; done | exact absurd rfl hbool
        exact h.eq_toNat hunsigned
    rw [hcast hm, hcast hn]
    omega

/-- The flags tell whether the value at the first place is below that at the second one. -/
def TellsLess (k : Kind) (a b : Place) : Deed :=
  fun code c d => ∀ v m n, a.Holds k.isWide m v → b.Holds k.isWide n v →
  ∃ w, code.Path 0 [] c v d w ∧ w.takes? (lessBranch k) = some (decide (Below k m n))

/-- The difference of two places, which leaves the carry and the overflow of the highest bytes. -/
def subtract (a b : Place) (wide : Bool) : Lower Unit := do
  emit .lda (a.byte 0)
  emit .cmp (b.byte 0)
  if wide then
    emit .lda (a.byte 1)
    emit .sbc (b.byte 1)

instance (a b : Place) (wide : Bool) : Straight (subtract a b wide) :=
  inferInstanceAs (Straight (do
    emit .lda (a.byte 0)
    emit .cmp (b.byte 0)
    if wide then
      emit .lda (a.byte 1)
      emit .sbc (b.byte 1)))

/-- Turns the sign of the difference if it overflowed. -/
theorem turn_path {code : LinkedCode} {a b : ℕ} {skip : LabelId}
    (h : Lines [.instr .bvc (.relative skip), .instr .eor (.immediate 0x80), .bound skip] code a b)
    (v : View) (hnegative : v.negative = isNegative v.a) :
    ∃ w, code.Path 0 [] a v b w ∧ w.takes? .bmi = some (isNegative v.a != v.overflow) := by
  obtain ⟨m, hbranch, h⟩ := h.cons
  obtain ⟨n, hturn, h⟩ := h.cons
  obtain ⟨hskip, rfl⟩ := h.bound
  cases hoverflow : v.overflow with
  | false =>
    have htaken : v.takes? .bvc = some true := by rw [View.takes?, hoverflow]; rfl
    refine ⟨v, (hbranch.branch_taken hskip htaken).path, ?_⟩
    rw [View.takes?, hnegative, Bool.bne_false]
  | true =>
    have hskipped : v.takes? .bvc = some false := by rw [View.takes?, hoverflow]; rfl
    have hfirst : code.Path 0 [] a v m v := (hbranch.branch_skipped hskip hskipped).path
    refine ⟨_, hfirst.trans (hturn.path rfl rfl (by decide)), ?_⟩
    show some (isNegative (v.a ^^^ 0x80)) = _
    rw [isNegative_xor]
    simp [isNegative]

/-- An instruction that reads an operand, in front of others; the operand is known from an earlier
view with the same memory. -/
theorem execAll_reads {v w : View} {mn : Mnemonic} {arg : Arg} {n : UInt8} {f : UInt8 → View}
    (hn : v.operand? arg = some n) (hzp : w.zp = v.zp) (hmain : w.main = v.main)
    (hexec : w.exec mn arg = (w.operand? arg).map f) (ls : List Line) :
    LinkedCode.execAll w (.instr mn arg :: ls) = LinkedCode.execAll (f n) ls := by
  have hsame : w.operand? arg = v.operand? arg := by
    cases arg <;> simp only [View.operand?, hzp, hmain]
  show (w.exec mn arg).bind _ = _
  rw [hexec, hsame, hn]
  rfl

section

variable {v : View} {a b : Place} {alo ahi blo bhi : UInt8} (halo : v.operand? (a.arg 0) = some alo)
  (hblo : v.operand? (b.arg 0) = some blo)

include halo hblo

theorem subtract_narrow :
    LinkedCode.execAll v (Straight.lines (subtract a b false)) =
      some ((v.setA alo).compare alo blo) := by
  change LinkedCode.execAll v [.instr .lda (a.arg 0), .instr .cmp (b.arg 0)] = _
  rw [execAll_reads (w := v) halo rfl rfl rfl, execAll_reads (w := v.setA alo) hblo rfl rfl rfl]
  rfl

/-- The low bytes are compared and the high ones subtracted. -/
theorem subtract_wide (hahi : v.operand? (a.arg 1) = some ahi)
    (hbhi : v.operand? (b.arg 1) = some bhi) :
    LinkedCode.execAll v (Straight.lines (subtract a b true)) =
      some ((((v.setA alo).compare alo blo).setA ahi).add (~~~bhi)) := by
  change LinkedCode.execAll v
    [.instr .lda (a.arg 0), .instr .cmp (b.arg 0), .instr .lda (a.arg 1), .instr .sbc (b.arg 1)] = _
  rw [execAll_reads (w := v) halo rfl rfl rfl, execAll_reads (w := v.setA alo) hblo rfl rfl rfl]
  change LinkedCode.execAll ((v.setA alo).compare alo blo)
    [.instr .lda (a.arg 1), .instr .sbc (b.arg 1)] = _
  rw [execAll_reads (w := (v.setA alo).compare alo blo) hahi rfl rfl rfl]
  rw [execAll_reads (w := ((v.setA alo).compare alo blo).setA ahi) hbhi rfl rfl rfl]
  rfl

/-- Two bytes are subtracted at once. -/
theorem difference_narrow :
    LinkedCode.execAll v [.instr .lda (a.arg 0), .instr .sec .implied, .instr .sbc (b.arg 0)] =
      some (((v.setA alo).setCarry true).add (~~~blo)) := by
  rw [execAll_reads (w := v) halo rfl rfl rfl]
  change LinkedCode.execAll ((v.setA alo).setCarry true) [.instr .sbc (b.arg 0)] = _
  rw [execAll_reads (w := (v.setA alo).setCarry true) hblo rfl rfl rfl]
  rfl

end

/-- Unsigned values. -/
theorem compareLess_unsigned (hsigned : k.isSigned = false) (a b : Place) :
    Does (compareLess k a b) p s (TellsLess k a b) := by
  have hact : compareLess k a b = subtract a b k.isWide := by
    simp only [compareLess, subtract, hsigned, Bool.not_false, if_true]
  rw [hact]
  refine (Does.straight (subtract a b k.isWide)).mono ?_
  rintro code c d h v m n ⟨alo, halo, hm⟩ ⟨blo, hblo, hn⟩
  have hless : Below k m n ↔ m.toNat < n.toNat := by rw [Below, hsigned]; rfl
  have := alo.toNat_lt
  have := blo.toNat_lt
  simp only [lessBranch, hsigned, Bool.false_eq_true, if_false, hless]
  cases hwide : k.isWide with
  | false =>
    rw [hwide] at h hm hn
    obtain rfl : m = alo.toUInt16 := hm
    obtain rfl : n = blo.toUInt16 := hn
    refine ⟨_, ⟨h.run (subtract_narrow halo hblo), .of_eq rfl rfl rfl fun _ _ => rfl⟩, ?_⟩
    show some (!decide (blo.toNat ≤ alo.toNat)) = _
    rw [UInt8.toNat_toUInt16, UInt8.toNat_toUInt16, ← decide_not]
    simp only [Nat.not_le]
  | true =>
    rw [hwide] at h hm hn
    obtain ⟨ahi, hahi, rfl⟩ := hm
    obtain ⟨bhi, hbhi, rfl⟩ := hn
    have := ahi.toNat_lt
    have := bhi.toNat_lt
    refine ⟨_, ⟨h.run (subtract_wide halo hblo hahi hbhi), .of_eq rfl rfl rfl fun _ _ => rfl⟩, ?_⟩
    show some (!decide (256 ≤ ahi.toNat + (~~~bhi).toNat + bit (decide (blo.toNat ≤ alo.toNat)))) =
      _
    rw [LinkedCode.toNat_wordOf, LinkedCode.toNat_wordOf, toNat_complement, ← decide_not]
    congr 2
    by_cases hcarry : blo.toNat ≤ alo.toNat <;> simp [hcarry] <;> omega

/-- Signed values. -/
theorem compareLess_signed (hsigned : k.isSigned = true) (a b : Place) :
    Does (compareLess k a b) p s (TellsLess k a b) := by
  have hact : compareLess k a b = (if k.isWide then subtract a b true else do
      emit .lda (a.byte 0)
      op .sec
      emit .sbc (b.byte 0)) >>= fun _ => newLabel "lt" >>= fun skip => (do
      branchTo .bvc skip
      imm .eor 0x80
      place skip) := by
    simp only [compareLess, subtract, hsigned, Bool.not_true, Bool.false_eq_true, if_false]
    split <;> simp only [if_true, bind_assoc]
  rw [hact]
  refine ((Does.straight _).bind fun s₁ _ => Does.label fun skip s₂ _ => Does.straight (do
    branchTo .bvc skip; imm .eor 0x80; place skip)).mono ?_
  rintro code c d ⟨e, hsubtract, skip, hturn⟩ v m n ⟨alo, halo, hm⟩ ⟨blo, hblo, hn⟩
  have hless : Below k m n ↔ (m.toNat : ℤ).bmod k.modulus < (n.toNat : ℤ).bmod k.modulus := by
    rw [Below, hsigned]
    rfl
  have := alo.toNat_lt
  have := blo.toNat_lt
  -- behind the subtraction, the sign and the overflow tell which value is less
  obtain ⟨u, hpath, hnegative, hu⟩ : ∃ u, code.Path 0 [] c v e u ∧ u.negative = isNegative u.a ∧
      (isNegative u.a != u.overflow) = decide (Below k m n) := by
    simp only [hless]
    cases hwide : k.isWide with
    | false =>
      rw [hwide] at hsubtract hm hn
      obtain rfl : m = alo.toUInt16 := hm
      obtain rfl : n = blo.toUInt16 := hn
      refine ⟨_, ⟨hsubtract.run (difference_narrow halo hblo), .of_eq rfl rfl rfl fun _ _ => rfl⟩,
        rfl, ?_⟩
      refine (negative_ne_overflows alo blo true).trans ?_
      rw [Kind.modulus_narrow hwide, byte_bmod, byte_bmod]
      simp
    | true =>
      rw [hwide] at hsubtract hm hn
      obtain ⟨ahi, hahi, rfl⟩ := hm
      obtain ⟨bhi, hbhi, rfl⟩ := hn
      refine ⟨_, ⟨hsubtract.run (subtract_wide halo hblo hahi hbhi), .of_eq rfl rfl rfl fun _ _ =>
        rfl⟩, rfl, ?_⟩
      refine (negative_ne_overflows ahi bhi _).trans ?_
      rw [Kind.modulus_wide hwide]
      have hlow := wordOf_bmod alo ahi
      have hlow' := wordOf_bmod blo bhi
      simp only [decide_eq_decide]
      by_cases hcarry : blo.toNat ≤ alo.toNat <;> simp [hcarry] <;> omega
  obtain ⟨w, hpath', hw⟩ := turn_path hturn u hnegative
  refine ⟨w, hpath.trans hpath', ?_⟩
  rw [lessBranch, hsigned, if_pos rfl, hw, hu]

theorem compareLess_does (a b : Place) : Does (compareLess k a b) p s (TellsLess k a b) := by
  cases hsigned : k.isSigned with
  | false => exact compareLess_unsigned hsigned a b
  | true => exact compareLess_signed hsigned a b

/-- The other branch is taken in the other case. -/
theorem takes?_notLessBranch {v : View} {taken : Bool} (h : v.takes? (lessBranch k) = some taken) :
    v.takes? (notLessBranch k) = some !taken :=
  LinkedCode.takes?_of_inverse? (by unfold lessBranch notLessBranch; split <;> rfl) h

/-! ## Equal -/

theorem wordOf_inj {lo hi lo' hi' : UInt8} :
    Cpu.wordOf lo hi = Cpu.wordOf lo' hi' ↔ lo = lo' ∧ hi = hi' := by
  have := lo.toNat_lt
  have := lo'.toNat_lt
  rw [← UInt16.toNat_inj, ← UInt8.toNat_inj, ← UInt8.toNat_inj, LinkedCode.toNat_wordOf,
    LinkedCode.toNat_wordOf]
  omega

/-- The zero flag tells whether two places hold the same value. -/
theorem compareEqual_does (a b : Place) (wide : Bool) :
    Does (compareEqual a b wide) p s fun code c d =>
    ∀ v m n, a.Holds wide m v → b.Holds wide n v → ∃ w, code.Path 0 [] c v d w ∧
      w.zero = decide (m = n) := by
  have hfirst (s : Emission) := Does.straight (p := p) (s := s) (subtract a b false)
  cases wide with
  | false =>
    refine (hfirst s).mono ?_
    rintro code c d h v m n ⟨alo, halo, rfl⟩ ⟨blo, hblo, rfl⟩
    refine ⟨_, ⟨h.run (subtract_narrow halo hblo), .of_eq rfl rfl rfl fun _ _ => rfl⟩, ?_⟩
    refine (sub_beq_zero alo blo).trans ?_
    simp only [Cpu.toUInt16_inj]
  | true =>
    have hact : compareEqual a b true = subtract a b false >>= fun _ => newLabel "ne" >>=
        fun different => (do
        branchTo .bne different; emit .lda (a.byte 1); emit .cmp (b.byte 1); place different) := by
      simp only [compareEqual, subtract, if_true, Bool.false_eq_true, if_false,
        bind_assoc, pure_bind]
    rw [hact]
    refine ((hfirst s).bind fun s₁ _ => Does.label fun different s₂ _ => Does.straight _).mono ?_
    rintro code c d ⟨e, hcompare, different, h⟩ v m n ⟨alo, halo, ahi, hahi, rfl⟩
      ⟨blo, hblo, bhi, hbhi, rfl⟩
    obtain ⟨e₁, hbranch, h⟩ := h.cons
    obtain ⟨e₂, hhigh, hplace⟩ := h.split [_, _]
    obtain ⟨hdifferent, rfl⟩ := hplace.bound
    let u := (v.setA alo).compare alo blo
    have hzero : u.zero = decide (alo = blo) := sub_beq_zero alo blo
    have hlow : code.Path 0 [] c v e u :=
      ⟨hcompare.run (subtract_narrow halo hblo), .of_eq rfl rfl rfl fun _ _ => rfl⟩
    by_cases hsame : alo = blo
    · -- the high bytes decide
      have hskipped : u.takes? .bne = some false := by
        rw [View.takes?, hzero, decide_eq_true hsame]; rfl
      have hrun : LinkedCode.execAll u [.instr .lda (a.arg 1), .instr .cmp (b.arg 1)] =
          some ((u.setA ahi).compare ahi bhi) := by
        rw [execAll_reads (w := u) hahi rfl rfl rfl,
          execAll_reads (w := u.setA ahi) hbhi rfl rfl rfl]
        rfl
      refine ⟨_, hlow.trans ((hbranch.branch_skipped hdifferent hskipped).path.trans
        ⟨hhigh.run hrun, .of_eq rfl rfl rfl fun _ _ => rfl⟩), ?_⟩
      refine (sub_beq_zero ahi bhi).trans ?_
      simp only [wordOf_inj, hsame, true_and]
    · have htaken : u.takes? .bne = some true := by
        rw [View.takes?, hzero, decide_eq_false hsame]; rfl
      refine ⟨u, hlow.trans (hbranch.branch_taken hdifferent htaken).path, hzero.trans ?_⟩
      simp only [wordOf_inj, hsame, false_and]

/-! ## Truth values -/

/-- Whether a branch is taken becomes a truth value. -/
theorem materialize_does (mn : Mnemonic) :
    Does (materialize mn) p s fun code c d => ∀ v taken, v.takes? mn = some taken →
    ∃ w, code.Path 0 [] c v d w ∧ w.value false = Literal.boolBits taken := by
  refine (Does.label fun yes s₁ _ => Does.label fun done s₂ _ => Does.straight (do
    branchTo mn yes; imm .lda 0; branchTo .beq done; place yes; imm .lda 1; place done)).mono ?_
  rintro code c d ⟨yes, done, h⟩ v taken htaken
  obtain ⟨e₁, hbranch, h⟩ := h.cons
  obtain ⟨e₂, hzero, h⟩ := h.cons
  obtain ⟨e₃, hleave, h⟩ := h.cons
  obtain ⟨hyes, h⟩ := h.label
  obtain ⟨e₄, hone, h⟩ := h.cons
  obtain ⟨hdone, rfl⟩ := h.bound
  cases taken with
  | true => exact ⟨_,
      (hbranch.branch_taken hyes htaken).path.trans (hone.path rfl rfl (by decide)), rfl⟩
  | false =>
    have hfirst : code.Path 0 [] c v e₁ v := (hbranch.branch_skipped hyes htaken).path
    have hlast : code.Path 0 [] e₂ (v.setA 0) d (v.setA 0) := (hleave.branch_taken hdone rfl).path
    exact ⟨_, (hfirst.trans (hzero.path rfl rfl (by decide))).trans hlast, rfl⟩

/-- An operation on the integer slots that leaves a truth value. -/
def Decides (k : Kind) (f : ℤ → ℤ → ℤ) : Deed :=
  Computes 0 valueSlots fun v w => ∀ x y, k.Denotes (v.slot k.isWide intA) x →
    k.Denotes (v.slot k.isWide intB) y →
    Kind.bool.Denotes (w.value false) (f x y)

/-- A comparison followed by the branch that tells its outcome. -/
theorem decides_of_branch {act : Lower Unit} {mn : Mnemonic} {f : ℤ → ℤ → ℤ}
    (hact : Does act p s fun code c d => ∀ v, ∃ w taken, code.Path 0 [] c v d w ∧
      w.takes? mn = some taken ∧
      ∀ x y, k.Denotes (v.slot k.isWide intA) x → k.Denotes (v.slot k.isWide intB) y →
        Kind.bool.Denotes (Literal.boolBits taken) (f x y)) :
    Does (act >>= fun _ => materialize mn) p s (Decides k f) := by
  refine (hact.bind fun s₁ _ => materialize_does mn).mono ?_
  rintro code c d ⟨e, hcompare, hmaterialize⟩ v
  obtain ⟨u, taken, hpath, htaken, hu⟩ := hcompare v
  obtain ⟨w, hpath', hw⟩ := hmaterialize u taken htaken
  exact ⟨w, (hpath.trans hpath').mono (Nat.le_refl 0) (List.nil_subset _), fun x y hx hy =>
    hw ▸ hu x y hx hy⟩

variable (hk : k.isIntegral = true)

include hk

/-- A test for equal values and a branch. -/
theorem decides_equal {mn : Mnemonic} {f : ℤ → ℤ → ℤ} (g : Bool → Bool)
    (hbranch : ∀ w : View, w.takes? mn = some (g w.zero))
    (hf : ∀ x y : ℤ, Kind.bool.Denotes (Literal.boolBits (g (decide (x = y)))) (f x y)) :
    Does (compareEqual (.slot intA) (.slot intB) k.isWide >>= fun _ => materialize mn) p s
      (Decides k f) := by
  refine decides_of_branch ((compareEqual_does _ _ _).mono fun code c d h v => ?_)
  obtain ⟨w, hpath, hw⟩ :=
    h v _ _ (Place.holds_slot intA k.isWide v) (Place.holds_slot intB k.isWide v)
  refine ⟨w, _, hpath, hbranch w, fun x y hx hy => ?_⟩
  simp only [hw, hx.eq_iff hk hy]
  exact hf x y

/-- A test for the lesser value and a branch. -/
theorem decides_less {mn : Mnemonic} {f : ℤ → ℤ → ℤ} (g : Bool → Bool)
    (hbranch : ∀ (w : View) taken, w.takes? (lessBranch k) = some taken →
      w.takes? mn = some (g taken))
    (hf : ∀ x y : ℤ, Kind.bool.Denotes (Literal.boolBits (g (decide (x < y)))) (f x y)) :
    Does (compareLess k (.slot intA) (.slot intB) >>= fun _ => materialize mn) p s (Decides k f) ∧
    Does (compareLess k (.slot intB) (.slot intA) >>= fun _ => materialize mn) p s
      (Decides k fun x y => f y x) := by
  constructor
  · refine decides_of_branch ((compareLess_does _ _).mono fun code c d h v => ?_)
    obtain ⟨w, hpath, hw⟩ :=
      h v _ _ (Place.holds_slot intA k.isWide v) (Place.holds_slot intB k.isWide v)
    refine ⟨w, _, hpath, hbranch w _ hw, fun x y hx hy => ?_⟩
    simp only [below_iff hk hx hy]
    exact hf x y
  · refine decides_of_branch ((compareLess_does _ _).mono fun code c d h v => ?_)
    obtain ⟨w, hpath, hw⟩ :=
      h v _ _ (Place.holds_slot intB k.isWide v) (Place.holds_slot intA k.isWide v)
    refine ⟨w, _, hpath, hbranch w _ hw, fun x y hx hy => ?_⟩
    simp only [below_iff hk hy hx]
    exact hf y x

theorem compareInteger_does {op : BinaryOp} (hop : op.isComparison = true) :
    Does (compareInteger op k) p s (Decides k (op.apply k)) := by
  have hbits (b : Prop) [Decidable b] := Kind.Denotes.boolBits b
  have hne (x y : ℤ) : Kind.bool.Denotes (Literal.boolBits !decide (x = y)) (truth (x ≠ y)) := by
    simpa only [ne_eq, decide_not] using hbits (x ≠ y)
  have hge (x y : ℤ) : Kind.bool.Denotes (Literal.boolBits !decide (x < y)) (truth (y ≤ x)) := by
    simpa only [← not_lt, decide_not] using hbits (y ≤ x)
  cases op <;> first | cases hop; done | skip
  case eq => exact decides_equal hk id (fun w => rfl) fun x y => hbits (x = y)
  case ne => exact decides_equal hk (!·) (fun w => rfl) hne
  case lt => exact (decides_less hk id (fun w _ h => h) fun x y => hbits (x < y)).1
  case ge =>
    exact (decides_less (f := fun x y => truth (y ≤ x)) hk
      (!·) (fun w _ h => takes?_notLessBranch h) hge).1
  case gt => exact (decides_less (f := fun x y => truth (x < y)) hk id (fun w _ h => h) fun x y =>
    hbits (x < y)).2
  case le =>
    exact (decides_less (f := fun x y => truth (y ≤ x)) hk
      (!·) (fun w _ h => takes?_notLessBranch h) hge).2

end Lowering

end Breadbin
