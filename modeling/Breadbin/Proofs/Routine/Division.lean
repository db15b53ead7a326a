import Mathlib.Logic.Function.Iterate
import Mathlib.Tactic.Ring
import Breadbin.Proofs.Machine.Word
import Breadbin.Proofs.Routine.Writing
import Breadbin.Routine.Integer

/-!
# Division

Both unsigned routines restore: a round shifts one bit of the dividend into the remainder, subtracts
the divisor if it fits and shifts the bit of the quotient in behind the dividend.  `divRound` is one
round in numbers.  The signed routines divide magnitudes and set signs afterwards.
-/

namespace Breadbin.Routine

open Assembly Machine ZeroPage

/-! ## Rounds in numbers -/

/-- One round: a pair holds what is left of the dividend, with the quotient behind it, and the
remainder.  The dividend has `m` values. -/
def divRound (m divisor : Nat) (s : Nat × Nat) : Nat × Nat :=
  let r := 2 * s.2 + 2 * s.1 / m
  if divisor ≤ r then (2 * s.1 % m + 1, r - divisor) else (2 * s.1 % m, r)

theorem divRound_snd_lt {m divisor w r : Nat} (hm : w < m) (hr : r < divisor) :
    (divRound m divisor (w, r)).2 < divisor := by
  have htop : 2 * w / m < 2 := Nat.div_lt_of_lt_mul (by omega)
  simp only [divRound]
  split <;> simp <;> omega

/-- Shifting a number of `2 * p * q` values, `q` of them below the point. -/
theorem shift_split {p q w : Nat} (hp : 0 < p) (hq : 0 < q) :
    2 * w / (2 * p * q) = w / q / p ∧ 2 * w % (2 * p * q) = w / q % p * (2 * q) + 2 * (w % q) := by
  have hsplit : 2 * w = w / q % p * (2 * q) + 2 * (w % q) + 2 * p * q * (w / q / p) := by
    have h1 := Nat.div_add_mod w q
    have h2 := Nat.div_add_mod (w / q) p
    calc 2 * w = 2 * (q * (p * (w / q / p) + w / q % p) + w % q) := by rw [h2, h1]
      _ = _ := by ring
  have hlt : w / q % p * (2 * q) + 2 * (w % q) < 2 * p * q := by
    have h1 : w / q % p + 1 ≤ p := Nat.mod_lt _ hp
    have h2 : w % q < q := Nat.mod_lt _ hq
    calc w / q % p * (2 * q) + 2 * (w % q) < (w / q % p + 1) * (2 * q) := by
          rw [Nat.add_mul]
          omega
      _ ≤ p * (2 * q) := Nat.mul_le_mul_right _ h1
      _ = 2 * p * q := by ring
  constructor
  · rw [hsplit, Nat.add_mul_div_left _ _ (by omega), Nat.div_eq_of_lt hlt, Nat.zero_add]
  · rw [hsplit, Nat.add_mul_mod_self_left, Nat.mod_eq_of_lt hlt]

theorem mul_add_split {h p q x : Nat} (hh : h < p) (hx : x < q) :
    (h * q + x) % q = x ∧ (h * q + x) / q = h ∧ h * q + x < p * q := by
  have hq : 0 < q := by omega
  refine ⟨?_, ?_, ?_⟩
  · rw [Nat.mul_comm, Nat.mul_add_mod, Nat.mod_eq_of_lt hx]
  · rw [Nat.mul_comm, Nat.mul_add_div hq, Nat.div_eq_of_lt hx, Nat.add_zero]
  · calc h * q + x < (h + 1) * q := by
          rw [Nat.add_mul]
          omega
      _ ≤ p * q := Nat.mul_le_mul_right _ hh

/-- With `k` bits of the dividend left, `k` rounds append their quotient to the one so far. -/
theorem divRound_iterate (k j : Nat) {divisor w r : Nat} (hr : r < divisor) (hw : w < 2 ^ (k + j)) :
    (divRound (2 ^ (k + j)) divisor)^[k] (w, r) =
      (w % 2 ^ j * 2 ^ k + (r * 2 ^ k + w / 2 ^ j) / divisor,
        (r * 2 ^ k + w / 2 ^ j) % divisor) := by
  induction k generalizing j w r with
  | zero =>
    have hw : w < 2 ^ j := by simpa using hw
    simp [Nat.mod_eq_of_lt hw, Nat.div_eq_of_lt hw, Nat.div_eq_of_lt hr, Nat.mod_eq_of_lt hr]
  | succ k ih =>
    have hp : 0 < 2 ^ k := Nat.two_pow_pos k
    have hq : 0 < 2 ^ j := Nat.two_pow_pos j
    have hm : 2 ^ (k + 1 + j) = 2 * 2 ^ k * 2 ^ j := by ring
    have hm' : k + 1 + j = k + (j + 1) := by omega
    have hj : 2 ^ (j + 1) = 2 * 2 ^ j := by ring
    have hhead := Nat.div_add_mod (w / 2 ^ j) (2 ^ k)
    have hhigh : w / 2 ^ j % 2 ^ k < 2 ^ k := Nat.mod_lt _ hp
    have hlow : w % 2 ^ j < 2 ^ j := Nat.mod_lt _ hq
    have hround := divRound_snd_lt hw hr
    obtain ⟨htop, hrest⟩ := shift_split (w := w) hp hq
    rw [← hm] at htop hrest
    -- the next bit joins the remainder, the others stay in front of the quotient
    have hsum : r * 2 ^ (k + 1) + w / 2 ^ j =
        (2 * r + w / 2 ^ j / 2 ^ k) * 2 ^ k + w / 2 ^ j % 2 ^ k := by
      conv => lhs; rw [← hhead]
      ring
    rw [Function.iterate_succ_apply]
    simp only [divRound, htop, hrest] at hround ⊢
    split
    next hfits =>
      rw [if_pos hfits] at hround
      obtain ⟨hmod, hdiv, hlt⟩ :=
        mul_add_split (q := 2 * 2 ^ j) (x := 2 * (w % 2 ^ j) + 1) hhigh (by omega)
      have hsub : (2 * r + w / 2 ^ j / 2 ^ k) * 2 ^ k + w / 2 ^ j % 2 ^ k =
          (2 * r + w / 2 ^ j / 2 ^ k - divisor) * 2 ^ k + w / 2 ^ j % 2 ^ k + divisor * 2 ^ k := by
        obtain ⟨e, he⟩ := Nat.exists_eq_add_of_le hfits
        rw [he, Nat.add_sub_cancel_left]
        ring
      rw [← hj, ← Nat.pow_add] at hlt
      rw [hm', Nat.add_assoc, ← hj, ih (j + 1) hround hlt, hj, hmod, hdiv, hsum, hsub,
        Nat.add_mul_div_left _ _ (by omega), Nat.add_mul_mod_self_left]
      congr 1
      ring
    next hfits =>
      rw [if_neg hfits] at hround
      obtain ⟨hmod, hdiv, hlt⟩ :=
        mul_add_split (q := 2 * 2 ^ j) (x := 2 * (w % 2 ^ j)) hhigh (by omega)
      rw [← hj, ← Nat.pow_add] at hlt
      rw [hm', ← hj, ih (j + 1) hround hlt, hj, hmod, hdiv, hsum]
      congr 1
      ring

/-- As many rounds as the dividend has bits divide it. -/
theorem divRound_divides (bits : Nat) {divisor w : Nat} (hd : 0 < divisor) (hw : w < 2 ^ bits) :
    (divRound (2 ^ bits) divisor)^[bits] (w, 0) = (w / divisor, w % divisor) := by
  simpa [Nat.mod_one] using divRound_iterate bits 0 hd hw

/-- The quotient of numbers below `m`; division by zero gives the largest of them.  The remainder
needs no such case: by zero it is the dividend, as it is for `%`. -/
def quotient (m dividend divisor : Nat) : Nat := if divisor = 0 then m - 1 else dividend / divisor

variable {code : LinkedCode} {a b : Nat}

/-! ## Bytes -/

/-- What division by zero gives. -/
def divU8ByZero : List Line :=
  [.instr .lda (.zeroPage intA), .instr .sta (.zeroPage intRemainder),
    .instr .lda (.immediate 0xFF), .instr .sta (.zeroPage intR)]

/-- A dividend, and a cleared remainder. -/
def divU8Setup : List Line :=
  [.instr .lda (.zeroPage intA), .instr .sta (.zeroPage work), .instr .lda (.immediate 0),
    .instr .ldx (.immediate 8)]

/-- The division of bytes behind its start. -/
def divU8Loop (loop subtract next : LabelId) : List Line :=
  [.instr .asl (.zeroPage work), .instr .rol .accumulator, .instr .bcs (.relative subtract),
    .instr .cmp (.zeroPage intB), .instr .bcc (.relative next), .bound subtract,
    .instr .sbc (.zeroPage intB), .instr .inc (.zeroPage work), .bound next, .instr .dex .implied,
    .instr .bne (.relative loop)]

/-- The division of bytes. -/
def divU8Lines (proceed loop subtract next : LabelId) : List Line :=
  .instr .lda (.zeroPage intB) :: .instr .bne (.relative proceed) :: (divU8ByZero ++
    .instr .rts .implied :: .bound proceed :: (divU8Setup ++ .bound loop ::
      (divU8Loop loop subtract next ++ ([.instr .sta (.zeroPage intRemainder),
        .instr .lda (.zeroPage work), .instr .sta (.zeroPage intR)] ++ [.instr .rts .implied]))))

theorem divU8_writes (w : Workspace) :
    ∃ proceed loop subtract next, w.Writes (divU8 w).2 (divU8Lines proceed loop subtract next) := by
  simp only [divU8, Writer.bind_apply, Writer.zp_apply, Writer.imm_apply, Writer.op_apply,
    Writer.branch_apply, Writer.bound_apply, Writer.label_apply, Writer.here_apply,
    Workspace.writing_writing, List.cons_append, List.nil_append, Action.ownArg]
  exact ⟨_, _, _, _, ((((((Workspace.Writes.refl w).labelled []).writing rfl).labelled []).writing
    rfl).labelled []).labelled [] |>.writing rfl⟩

/-- What the division of bytes changes. -/
def divU8Slots : List UInt8 := [work, intR, intRemainder]

/-- The dividend with the quotient, and the remainder. -/
def divU8State (v : View) : Nat × Nat := ((v.zp work).toNat, v.a.toNat)

/-- A round of the loop is a round in numbers. -/
theorem divU8_round {loop subtract next : LabelId}
    (h : code.Installed a (divU8Loop loop subtract next) b) (hloop : code.At loop a) (v : View)
    (hr : v.a.toNat < (v.zp intB).toNat) :
    ∃ w, code.Path 0 divU8Slots a v (if w.x = 0 then b else a) w ∧ w.x = v.x - 1 ∧
      divU8State w = divRound 256 (v.zp intB).toNat (divU8State v) ∧ w.zp intB = v.zp intB := by
  obtain ⟨b1, hshift, h⟩ := h.split [_, _]
  obtain ⟨b2, hbcs, h⟩ := h.cons
  obtain ⟨b3, hcmp, h⟩ := h.cons
  obtain ⟨b4, hbcc, h⟩ := h.cons
  obtain ⟨hsubtract, h⟩ := h.label
  obtain ⟨b5, hsbc, h⟩ := h.split [_, _]
  obtain ⟨hnext, h⟩ := h.label
  obtain ⟨b6, hdex, hbne⟩ := h.cons
  have hlt := (v.zp work).toNat_lt
  have hlt' := v.a.toNat_lt
  have hltB := (v.zp intB).toNat_lt
  obtain ⟨v1, h1, hcarry, hx1, ha1, hw1, hb1⟩ :
      ∃ w, code.Path 0 divU8Slots a v b1 w ∧ w.carry = decide (128 ≤ v.a.toNat) ∧ w.x = v.x ∧
        w.a.toNat = (2 * v.a.toNat + 2 * (v.zp work).toNat / 256) % 256 ∧
        (w.zp work).toNat = 2 * (v.zp work).toNat % 256 ∧ w.zp intB = v.zp intB := by
    refine ⟨_, hshift.path rfl rfl (by decide), rfl, rfl, ?_, by simp, rfl⟩
    by_cases htop : 128 ≤ (v.zp work).toNat <;> simp [isNegative, htop] <;> omega
  -- the carry stands for the ninth bit, so it decides before the comparison does
  obtain ⟨v2, h2, hx2, hstate, hb2⟩ :
      ∃ w, code.Path 0 divU8Slots b1 v1 b5 w ∧ w.x = v.x ∧
        divU8State w = divRound 256 (v.zp intB).toNat (divU8State v) ∧ w.zp intB = v.zp intB := by
    have hsub : ∀ u : View, u.carry = true → u.zp = v1.zp → u.a = v1.a → u.x = v1.x →
        (v.zp intB).toNat ≤ 2 * v.a.toNat + 2 * (v.zp work).toNat / 256 →
        ∃ w, code.Path 0 divU8Slots b4 u b5 w ∧ w.x = v.x ∧
          divU8State w = divRound 256 (v.zp intB).toNat (divU8State v) ∧ w.zp intB = v.zp intB := by
      intro u hc hz ha hx hfits
      refine ⟨_, hsbc.path rfl rfl (by decide), hx.trans hx1, ?_, ?_⟩
      · rw [divRound, if_pos (by simpa [divU8State] using hfits)]
        simp +decide [divU8State, hc, hz, ha, ha1, hw1, hb1]
        omega
      · simpa +decide [hz] using hb1
    by_cases hninth : 128 ≤ v.a.toNat
    · obtain ⟨w, hpath, hw⟩ := hsub v1 (by simp [hcarry, hninth]) rfl rfl rfl (by omega)
      exact ⟨w, (hbcs.branch_taken hsubtract (by simp [View.takes?, hcarry, hninth])).path.trans
        hpath, hw⟩
    · have height : (2 * v.a.toNat + 2 * (v.zp work).toNat / 256) % 256 =
          2 * v.a.toNat + 2 * (v.zp work).toNat / 256 := Nat.mod_eq_of_lt (by omega)
      obtain ⟨u, hskip, hcu, hzu, hau, hxu⟩ :
          ∃ w, code.Path 0 divU8Slots b1 v1 b3 w ∧
            w.carry = decide ((v.zp intB).toNat ≤ 2 * v.a.toNat + 2 * (v.zp work).toNat / 256) ∧
            w.zp = v1.zp ∧ w.a = v1.a ∧ w.x = v1.x := by
        refine ⟨_, (hbcs.branch_skipped hsubtract
          (by simp [View.takes?, hcarry, hninth])).path.trans
          (hcmp.path rfl rfl (by decide)), ?_, rfl, rfl, rfl⟩
        simp only [View.compare, View.setCarry, View.flags, hb1, ha1, height]
      by_cases hfits : (v.zp intB).toNat ≤ 2 * v.a.toNat + 2 * (v.zp work).toNat / 256
      · obtain ⟨w, hpath, hw⟩ := hsub u (by simp [hcu, hfits]) hzu hau hxu hfits
        exact ⟨w, hskip.trans
          ((hbcc.branch_skipped hnext (by simp [View.takes?, hcu, hfits])).path.trans hpath), hw⟩
      · refine ⟨u, hskip.trans (hbcc.branch_taken hnext (by simp [View.takes?, hcu, hfits])).path,
          hxu.trans hx1, ?_, by rw [hzu, hb1]⟩
        rw [divRound, if_neg (by simpa [divU8State] using hfits)]
        simp only [divU8State, hzu, hau, ha1, hw1, height]
  obtain ⟨v3, h3, hzero, hx3, ha3, hz3⟩ :
      ∃ w, code.Path 0 divU8Slots b5 v2 b6 w ∧ w.zero = (w.x == 0) ∧ w.x = v2.x - 1 ∧ w.a = v2.a ∧
        w.zp = v2.zp :=
    ⟨_, hdex.path rfl rfl (by decide), rfl, rfl, rfl, rfl⟩
  refine ⟨v3, ((h1.trans h2).trans h3).trans (hbne.again hloop hzero), ?_, ?_, ?_⟩
  · rw [hx3, hx2]
  · rw [← hstate, divU8State, divU8State, ha3, hz3]
  · rw [hz3, hb2]

/-- The rounds divide. -/
theorem divU8_rounds {loop subtract next : LabelId}
    (h : code.Installed a (divU8Loop loop subtract next) b) (hloop : code.At loop a) (v : View)
    (hd : v.zp intB ≠ 0) (ha : v.a = 0) (hx : v.x = 8) :
    ∃ w, code.Path 0 divU8Slots a v b w ∧
      divU8State w = ((v.zp work).toNat / (v.zp intB).toNat,
        (v.zp work).toNat % (v.zp intB).toNat) := by
  have hpos : 0 < (v.zp intB).toNat := Nat.pos_of_ne_zero (mt eq_zero_iff.2 hd)
  let Inv (n : Nat) (w : View) : Prop := w.a.toNat < (v.zp intB).toNat ∧ w.zp intB = v.zp intB ∧
    (divRound 256 (v.zp intB).toNat)^[n] (divU8State w) =
      ((v.zp work).toNat / (v.zp intB).toNat, (v.zp work).toNat % (v.zp intB).toNat)
  obtain ⟨w, hpath, -, -, hdone⟩ := LinkedCode.Path.countdown View.x Inv
    (fun n u ⟨hr, hb, hrest⟩ => by
      obtain ⟨w, hpath, hx', hstate, hb'⟩ := divU8_round h hloop u (by rwa [hb])
      rw [hb] at hstate hb'
      refine ⟨w, hpath, hx', ?_, hb', ?_⟩
      · have := divRound_snd_lt (m := 256) (u.zp work).toNat_lt hr
        rwa [← divU8State, ← hstate] at this
      · rwa [hstate, ← Function.iterate_succ_apply])
    7 v (by rw [hx]; rfl)
    ⟨by rwa [ha], rfl, by
      rw [divU8State, ha]
      exact divRound_divides 8 hpos (v.zp work).toNat_lt⟩
  exact ⟨w, hpath, hdone⟩

/-- The quotient and the remainder of two bytes. -/
def byteDivision : LinkedCode.Behaviour where
  depth := 0
  slots := divU8Slots
  ends v w := w.a.toNat = quotient 256 (v.zp intA).toNat (v.zp intB).toNat ∧ w.zp intR = w.a ∧
    (w.zp intRemainder).toNat = (v.zp intA).toNat % (v.zp intB).toNat
  level h := h

/-- **The routine divides bytes.** -/
theorem divU8_behaves {proceed loop subtract next : LabelId}
    (h : code.Installed a (divU8Lines proceed loop subtract next) b) :
    code.Behaves a byteDivision := by
  intro v
  obtain ⟨b1, hlda, h⟩ := h.cons
  obtain ⟨b2, hbne, h⟩ := h.cons
  obtain ⟨b3, hzero, h⟩ := h.split _
  obtain ⟨b4, hrts, h⟩ := h.cons
  obtain ⟨hproceed, h⟩ := h.label
  obtain ⟨b5, hsetup, h⟩ := h.split _
  obtain ⟨hloop, h⟩ := h.label
  obtain ⟨b6, hbody, h⟩ := h.split _
  obtain ⟨b7, hend, hrts'⟩ := h.split _
  obtain ⟨v1, h1, htest, hz1⟩ :
      ∃ w, code.Path 0 divU8Slots a v b1 w ∧ w.zero = (v.zp intB == 0) ∧ w.zp = v.zp :=
    ⟨_, hlda.path rfl rfl (by decide), rfl, rfl⟩
  by_cases hd : v.zp intB = 0
  · have hpath : code.Path 0 divU8Slots a v b3 _ :=
      (h1.trans (hbne.branch_skipped hproceed (by simp [View.takes?, htest, hd])).path).trans
        (hzero.path rfl rfl (by decide))
    refine ⟨_, ⟨b3, b4, hpath.reaches, hrts⟩, hpath.frame, ?_, rfl, ?_⟩
    · simp [quotient, hd]
    · simp +decide [hd, hz1]
  · have hpos : (v.zp intB).toNat ≠ 0 := mt eq_zero_iff.2 hd
    have htaken := hbne.branch_taken (v := v1) hproceed (by simp [View.takes?, htest, hd])
    obtain ⟨v2, h2, ha2, hx2, hw2, hb2⟩ :
        ∃ w, code.Path 0 divU8Slots a v b5 w ∧ w.a = 0 ∧ w.x = 8 ∧ w.zp work = v.zp intA ∧
          w.zp intB = v.zp intB :=
      ⟨_, (h1.trans htaken.path).trans (hsetup.path rfl rfl (by decide)), rfl, rfl,
        by simp +decide [hz1], by simp +decide [hz1]⟩
    obtain ⟨v3, h3, hstate⟩ := divU8_rounds hbody hloop v2 (by rwa [hb2]) ha2 hx2
    rw [hw2, hb2, divU8State, Prod.mk.injEq] at hstate
    have hpath : code.Path 0 divU8Slots a v b7 _ :=
      (h2.trans h3).trans (hend.path rfl rfl (by decide))
    refine ⟨_, ⟨b7, b, hpath.reaches, hrts'⟩, hpath.frame, ?_, ?_, ?_⟩
    · simp +decide [quotient, hpos, ← hstate.1]
    · simp +decide
    · simp +decide [← hstate.2]

/-! ## Words -/

/-- What division by zero gives. -/
def divU16ByZero : List Line :=
  [.instr .lda (.zeroPage intA), .instr .sta (.zeroPage intRemainder),
    .instr .lda (.zeroPage (intA + 1)), .instr .sta (.zeroPage (intRemainder + 1)),
    .instr .lda (.immediate 0xFF), .instr .sta (.zeroPage intR), .instr .sta (.zeroPage (intR + 1)),
    .instr .tax .implied]

/-- A dividend, and a cleared remainder. -/
def divU16Setup : List Line :=
  [.instr .lda (.zeroPage intA), .instr .sta (.zeroPage intR), .instr .lda (.zeroPage (intA + 1)),
    .instr .sta (.zeroPage (intR + 1)), .instr .lda (.immediate 0),
    .instr .sta (.zeroPage intRemainder), .instr .sta (.zeroPage (intRemainder + 1)),
    .instr .ldy (.immediate 16)]

/-- The division of words behind its start. -/
def divU16Loop (loop subtract next : LabelId) : List Line :=
  [.instr .asl (.zeroPage intR), .instr .rol (.zeroPage (intR + 1)),
    .instr .rol (.zeroPage intRemainder), .instr .rol (.zeroPage (intRemainder + 1)),
    .instr .bcs (.relative subtract), .instr .lda (.zeroPage intRemainder),
    .instr .cmp (.zeroPage intB), .instr .lda (.zeroPage (intRemainder + 1)),
    .instr .sbc (.zeroPage (intB + 1)), .instr .bcc (.relative next), .bound subtract,
    .instr .lda (.zeroPage intRemainder), .instr .sbc (.zeroPage intB),
    .instr .sta (.zeroPage intRemainder), .instr .lda (.zeroPage (intRemainder + 1)),
    .instr .sbc (.zeroPage (intB + 1)), .instr .sta (.zeroPage (intRemainder + 1)),
    .instr .inc (.zeroPage intR), .bound next, .instr .dey .implied, .instr .bne (.relative loop)]

/-- The division of words. -/
def divU16Lines (proceed loop subtract next : LabelId) : List Line :=
  .instr .lda (.zeroPage intB) :: .instr .ora (.zeroPage (intB + 1)) ::
    .instr .bne (.relative proceed) :: (divU16ByZero ++ .instr .rts .implied :: .bound proceed ::
      (divU16Setup ++ .bound loop :: (divU16Loop loop subtract next ++
        ([.instr .lda (.zeroPage intR), .instr .ldx (.zeroPage (intR + 1))] ++
          [.instr .rts .implied]))))

theorem divU16_writes (w : Workspace) :
    ∃ proceed loop subtract next,
      w.Writes (divU16 w).2 (divU16Lines proceed loop subtract next) := by
  simp only [divU16, Writer.testWord, Writer.moveWord, Writer.shiftLeftWord, Writer.compareWord,
    Writer.returnWord, Writer.bind_apply, Writer.zp_apply, Writer.imm_apply, Writer.op_apply,
    Writer.branch_apply, Writer.bound_apply, Writer.label_apply, Writer.here_apply,
    Workspace.writing_writing, List.cons_append, List.nil_append, Action.ownArg]
  exact ⟨_, _, _, _, ((((((Workspace.Writes.refl w).labelled []).writing rfl).labelled []).writing
    rfl).labelled []).labelled [] |>.writing rfl⟩

/-- What the division of words changes. -/
def divU16Slots : List UInt8 := [intR, intR + 1, intRemainder, intRemainder + 1]

/-- The dividend with the quotient, and the remainder. -/
def divU16State (v : View) : Nat × Nat := (v.word intR, v.word intRemainder)

/-- Counting an even word up touches its low byte alone. -/
theorem increment_word (v : View) {z : UInt8} (h : v.word z % 2 = 0) :
    ∃ w, LinkedCode.execAll v [.instr .inc (.zeroPage z)] = some w ∧
      w.word z = v.word z + 1 ∧ w.y = v.y := by
  have := (v.zp z).toNat_lt
  refine ⟨_, rfl, ?_, by simp⟩
  rw [View.word] at h
  simp [View.word]
  omega

/-- A round of the loop is a round in numbers. -/
theorem divU16_round {loop subtract next : LabelId}
    (h : code.Installed a (divU16Loop loop subtract next) b) (hloop : code.At loop a) (v : View)
    (hr : v.word intRemainder < v.word intB) :
    ∃ w, code.Path 0 divU16Slots a v (if w.y = 0 then b else a) w ∧ w.y = v.y - 1 ∧
      divU16State w = divRound 65536 (v.word intB) (divU16State v) ∧ w.word intB = v.word intB := by
  obtain ⟨b1, hasl, h⟩ := h.split [_, _]
  obtain ⟨b2, hrol, h⟩ := h.split [_, _]
  obtain ⟨b3, hbcs, h⟩ := h.cons
  obtain ⟨b4, hcmp, h⟩ := h.split [_, _, _, _]
  obtain ⟨b5, hbcc, h⟩ := h.cons
  obtain ⟨hsubtract, h⟩ := h.label
  obtain ⟨b6, hsbc, h⟩ := h.split [_, _, _, _, _, _]
  obtain ⟨b7, hinc, h⟩ := h.cons
  obtain ⟨hnext, h⟩ := h.label
  obtain ⟨b8, hdey, hbne⟩ := h.cons
  have hltR := v.word_lt intR
  have hltB := v.word_lt intB
  -- the dividend and the remainder are shifted as one
  obtain ⟨v1, h1, hcarry, hy1, hr1, hw1, hb1⟩ :
      ∃ w, code.Path 0 divU16Slots a v b2 w ∧ w.carry = decide (32768 ≤ v.word intRemainder) ∧
        w.y = v.y ∧ w.word intRemainder =
          (2 * v.word intRemainder + 2 * v.word intR / 65536) % 65536 ∧
        w.word intR = 2 * v.word intR % 65536 ∧ w.word intB = v.word intB := by
    obtain ⟨u, hexec, hwu, hcu, -, hyu⟩ := shiftLeft_word v intR
    obtain ⟨w, hexec', hrw, hcw, hyw⟩ := rotateLeft_word u intRemainder
    have hframe := execAll_frame hexec rfl
    have hframe' := execAll_frame hexec' rfl
    have hru : u.word intRemainder = v.word intRemainder := hframe.word (by decide) (by decide)
    refine ⟨w, (hasl.path hexec rfl (by decide)).trans (hrol.path hexec' rfl (by decide)), ?_,
      hyw.trans hyu, ?_, ?_, ?_⟩
    · rw [hcw, hru]
    · rw [hrw, hru, hcu]
      by_cases htop : 65536 ≤ 2 * v.word intR <;> simp [htop, bit] <;> omega
    · rw [hframe'.word (by decide) (by decide), hwu]
    · rw [hframe'.word (by decide) (by decide), hframe.word (by decide) (by decide)]
  -- the carry stands for the seventeenth bit, so it decides before the comparison does
  obtain ⟨v2, h2, hy2, hstate, hb2⟩ :
      ∃ w, code.Path 0 divU16Slots b2 v1 b7 w ∧ w.y = v.y ∧
        divU16State w = divRound 65536 (v.word intB) (divU16State v) ∧
            w.word intB = v.word intB := by
    have hsub : ∀ u : View, u.carry = true → u.zp = v1.zp → u.y = v1.y →
        v.word intB ≤ 2 * v.word intRemainder + 2 * v.word intR / 65536 →
        ∃ w, code.Path 0 divU16Slots b5 u b7 w ∧ w.y = v.y ∧
          divU16State w = divRound 65536 (v.word intB) (divU16State v) ∧
              w.word intB = v.word intB := by
      intro u hc hz hy hfits
      have hwords (z : UInt8) : u.word z = v1.word z := View.word_congr (by rw [hz]) (by rw [hz])
      obtain ⟨t, hexec, hrt, hyt⟩ := subtract_word u (y := intRemainder) (z := intB) (by decide) hc
      have hframe := execAll_frame hexec rfl
      have hwt : t.word intR = 2 * v.word intR % 65536 := by
        rw [hframe.word (by decide) (by decide), hwords, hw1]
      obtain ⟨w, hexec', hww, hyw⟩ := increment_word t (z := intR) (by rw [hwt]; omega)
      have hframe' := execAll_frame hexec' rfl
      refine ⟨w, (hsbc.path hexec rfl (by decide)).trans (hinc.path hexec' rfl (by decide)),
        by rw [hyw, hyt, hy, hy1], ?_, ?_⟩
      · rw [divRound, if_pos (by simpa [divU16State] using hfits), divU16State, hww, hwt,
          hframe'.word (by decide) (by decide), hrt, hwords, hwords, hr1, hb1]
        simp only [divU16State, Prod.mk.injEq, true_and]
        omega
      · rw [hframe'.word (by decide) (by decide), hframe.word (by decide) (by decide), hwords, hb1]
    by_cases hlast : 32768 ≤ v.word intRemainder
    · obtain ⟨w, hpath, hw⟩ := hsub v1 (by simp [hcarry, hlast]) rfl rfl (by omega)
      exact ⟨w, (hbcs.branch_taken hsubtract (by simp [View.takes?, hcarry, hlast])).path.trans
        hpath, hw⟩
    · have hsixteen : (2 * v.word intRemainder + 2 * v.word intR / 65536) % 65536 =
          2 * v.word intRemainder + 2 * v.word intR / 65536 := Nat.mod_eq_of_lt (by omega)
      obtain ⟨u, hexec, hcu, hyu, hzu⟩ := compare_word v1 intRemainder intB
      rw [hr1, hb1, hsixteen] at hcu
      have hskip : code.Path 0 divU16Slots b2 v1 b4 u :=
        (hbcs.branch_skipped hsubtract (by simp [View.takes?, hcarry, hlast])).path.trans
          (hcmp.path hexec rfl (by decide))
      by_cases hfits : v.word intB ≤ 2 * v.word intRemainder + 2 * v.word intR / 65536
      · obtain ⟨w, hpath, hw⟩ := hsub u (by simp [hcu, hfits]) hzu hyu hfits
        exact ⟨w, hskip.trans
          ((hbcc.branch_skipped hnext (by simp [View.takes?, hcu, hfits])).path.trans hpath), hw⟩
      · have hwords (z : UInt8) : u.word z = v1.word z :=
          View.word_congr (by rw [hzu]) (by rw [hzu])
        refine ⟨u, hskip.trans (hbcc.branch_taken hnext (by simp [View.takes?, hcu, hfits])).path,
          hyu.trans hy1, ?_, by rw [hwords, hb1]⟩
        rw [divRound, if_neg (by simpa [divU16State] using hfits)]
        simp only [divU16State, hwords, hr1, hw1, hsixteen]
  obtain ⟨v3, h3, hzero, hy3, hwords⟩ :
      ∃ w, code.Path 0 divU16Slots b7 v2 b8 w ∧ w.zero = (w.y == 0) ∧ w.y = v2.y - 1 ∧
        ∀ z, w.word z = v2.word z :=
    ⟨_, hdey.path rfl rfl (by decide), rfl, rfl, fun _ => View.word_congr rfl rfl⟩
  refine ⟨v3, ((h1.trans h2).trans h3).trans (hbne.again hloop hzero), ?_, ?_, ?_⟩
  · rw [hy3, hy2]
  · rw [← hstate, divU16State, divU16State, hwords, hwords]
  · rw [hwords, hb2]

/-- The rounds divide. -/
theorem divU16_rounds {loop subtract next : LabelId}
    (h : code.Installed a (divU16Loop loop subtract next) b) (hloop : code.At loop a) (v : View)
    (hd : v.word intB ≠ 0) (hr : v.word intRemainder = 0) (hy : v.y = 16) :
    ∃ w, code.Path 0 divU16Slots a v b w ∧
      divU16State w = (v.word intR / v.word intB, v.word intR % v.word intB) := by
  have hpos : 0 < v.word intB := Nat.pos_of_ne_zero hd
  let Inv (n : Nat) (w : View) : Prop := w.word intRemainder < v.word intB ∧
    w.word intB = v.word intB ∧ (divRound 65536 (v.word intB))^[n] (divU16State w) =
      (v.word intR / v.word intB, v.word intR % v.word intB)
  obtain ⟨w, hpath, -, -, hdone⟩ := LinkedCode.Path.countdown View.y Inv
    (fun n u ⟨hr, hb, hrest⟩ => by
      obtain ⟨w, hpath, hy', hstate, hb'⟩ := divU16_round h hloop u (by rwa [hb])
      rw [hb] at hstate hb'
      refine ⟨w, hpath, hy', ?_, hb', ?_⟩
      · have := divRound_snd_lt (m := 65536) (u.word_lt intR) hr
        rwa [← divU16State, ← hstate] at this
      · rwa [hstate, ← Function.iterate_succ_apply])
    15 v (by rw [hy]; rfl)
    ⟨by rwa [hr], rfl, by
      rw [divU16State, hr]
      exact divRound_divides 16 hpos (v.word_lt intR)⟩
  exact ⟨w, hpath, hdone⟩

/-- The quotient and the remainder of two words. -/
def wordDivision : LinkedCode.Behaviour where
  depth := 0
  slots := divU16Slots
  ends v w := w.a.toNat + 256 * w.x.toNat = quotient 65536 (v.word intA) (v.word intB) ∧
    w.word intR = quotient 65536 (v.word intA) (v.word intB) ∧
    w.word intRemainder = v.word intA % v.word intB
  level h := h

/-- **The routine divides words.** -/
theorem divU16_behaves {proceed loop subtract next : LabelId}
    (h : code.Installed a (divU16Lines proceed loop subtract next) b) :
    code.Behaves a wordDivision := by
  intro v
  obtain ⟨b1, htest, h⟩ := h.split [_, _]
  obtain ⟨b2, hbne, h⟩ := h.cons
  obtain ⟨b3, hzero, h⟩ := h.split _
  obtain ⟨b4, hrts, h⟩ := h.cons
  obtain ⟨hproceed, h⟩ := h.label
  obtain ⟨b5, hsetup, h⟩ := h.split _
  obtain ⟨hloop, h⟩ := h.label
  obtain ⟨b6, hbody, h⟩ := h.split _
  obtain ⟨b7, hend, hrts'⟩ := h.split _
  obtain ⟨v1, hexec, hzero1, hz1⟩ := test_word v intB
  have h1 : code.Path 0 divU16Slots a v b1 v1 := htest.path hexec rfl (by decide)
  have hwords (z : UInt8) : v1.word z = v.word z := View.word_congr (by rw [hz1]) (by rw [hz1])
  by_cases hd : v.word intB = 0
  · obtain ⟨w, hpath, ha, hx, hr, hrem⟩ :
        ∃ w, code.Path 0 divU16Slots a v b3 w ∧ w.a = 0xFF ∧ w.x = 0xFF ∧ w.word intR = 65535 ∧
          w.word intRemainder = v1.word intA := by
      refine ⟨_, (h1.trans (hbne.branch_skipped hproceed
        (by simp [View.takes?, hzero1, hd])).path).trans (hzero.path rfl rfl (by decide)), rfl,
        rfl, ?_,
        View.word_congr rfl rfl⟩
      simp +decide [View.word]
    refine ⟨w, ⟨b3, b4, hpath.reaches, hrts⟩, hpath.frame, ?_, ?_, ?_⟩
    · rw [quotient, if_pos hd, ha, hx]
      decide
    · rw [quotient, if_pos hd, hr]
    · rw [hd, Nat.mod_zero, hrem, hwords]
  · have htaken := hbne.branch_taken (v := v1) hproceed (by simp [View.takes?, hzero1, hd])
    obtain ⟨v2, h2, hr2, hy2, hw2, hb2⟩ :
        ∃ w, code.Path 0 divU16Slots a v b5 w ∧ w.word intRemainder = 0 ∧ w.y = 16 ∧
          w.word intR = v1.word intA ∧ w.word intB = v1.word intB := by
      refine ⟨_, (h1.trans htaken.path).trans (hsetup.path rfl rfl (by decide)), ?_, rfl,
        View.word_congr rfl rfl, View.word_congr rfl rfl⟩
      simp +decide [View.word]
    rw [hwords] at hw2 hb2
    obtain ⟨v3, h3, hstate⟩ := divU16_rounds hbody hloop v2 (by rwa [hb2]) hr2 hy2
    rw [hw2, hb2, divU16State, Prod.mk.injEq] at hstate
    have hpath : code.Path 0 divU16Slots a v b7 _ :=
      (h2.trans h3).trans (hend.path rfl rfl (by decide))
    have hquotient : quotient 65536 (v.word intA) (v.word intB) = v.word intA / v.word intB := by
      rw [quotient, if_neg hd]
    refine ⟨_, ⟨b7, b, hpath.reaches, hrts'⟩, hpath.frame, ?_, ?_, ?_⟩
    · rw [hquotient, ← hstate.1]
      rfl
    · rw [hquotient, ← hstate.1]
      exact View.word_congr rfl rfl
    · rw [← hstate.2]
      exact View.word_congr rfl rfl

end Breadbin.Routine
