import Breadbin.Proofs.Routine.Results

/-!
# Comparing floating-point numbers and rounding integers

The routine that compares floating-point numbers by sort keys, and those that turn integers and
fixed-point numbers into floating-point ones.  The leading one of a magnitude is brought in its
place by shifting in either direction.
-/

namespace Breadbin.Routine

open Assembly Machine Numeric ZeroPage Writer LinkedCode

/-! ## Comparison -/

/-- How the operands compare. -/
def orderOf (u : View) : Option Ordering :=
  (datumOf (u.word floatA)).compare? (datumOf (u.word floatB))

namespace Assertion

/-- The order of the operands is that of their keys. -/
abbrev sorted : Assertion := .given fun u =>
  orderOf u = some (cmp (Numeric.sortKey (u.word floatA)) (Numeric.sortKey (u.word floatB)))

/-- The carry tells how the operands compare, which are not the same. -/
def decided : Assertion := fun _ u v => ordinal (orderOf u) = if v.carry then 1 else 0xFF

end Assertion

theorem toNat_or_0x80 {x : UInt8} (h : x.toNat < 128) : (x ||| 0x80).toNat = x.toNat + 128 :=
  or_high x 7 (by decide) h

/-- Bytes of which no more than the sign of one is set. -/
theorem zeros_flag (a b c d : UInt8) :
    ((a ||| b) &&& 0x7F ||| c ||| d == 0) =
      decide ((a &&& 0x7F ||| c = 0) ∧ b &&& 0x7F ||| d = 0) := by
  rw [Bool.eq_iff_iff, beq_iff_eq, decide_eq_true_eq]
  have hmask : (a ||| b) &&& 0x7F = (a &&& 0x7F) ||| (b &&& 0x7F) := by
    apply UInt8.toBitVec_inj.1
    simp [BitVec.and_or_distrib_right]
  simp only [hmask, or_eq_zero_iff]
  tauto

theorem isZero_iff (v : View) (a : UInt8) :
    v.zp (a + 1) &&& 0x7F ||| v.zp a = 0 ↔ IsZero (v.word a) := by
  have := low_eq v a
  have := high_eq v a
  rw [or_eq_zero_iff, eq_zero_iff, eq_zero_iff, and_0x7F, IsZero]
  omega

theorem ordinal_cmp {a b : ℕ} (h : a ≠ b) :
    ordinal (some (cmp a b)) = if b ≤ a then 1 else 0xFF := by
  rcases Nat.lt_or_gt_of_ne h with hlt | hgt
  · rw [hlt.cmp_eq_lt, if_neg (Nat.not_le.2 hlt)]
    rfl
  · rw [hgt.cmp_eq_gt, if_pos hgt.le]
    rfl

namespace Flows

variable {t : Target} {id : RoutineId} {α : Type} {size : Nat} {back : Back} {ahead : Ahead}
  {P Q R : Assertion} {r : Footing}
  {a : UInt8} {rest : Writer α}

/-- A word is replaced by its sort key. -/
theorem sortKey [P.RestsOn r] (ha : (conduct t id).opens r a = true)
    (ha' : (conduct t id).opens r (a + 1) = true)
    (hR : ∀ n u v w, P n u v → Q n u v → v.Frame 0 [a, a + 1] w →
      w.word a = Numeric.sortKey (v.word a) → R n u w)
    (h : ∀ back, Flows (conduct t) t id (size - 60) back ahead 0 (P.also R) rest) :
    Flows (conduct t) t id size back ahead 0 (P.also Q) (Routine.sortKey a >>= fun _ => rest) := by
  let loaded (negative : Bool) : Assertion := fun n u w => ∃ v, P n u v ∧ Q n u v ∧
    v.Frame 0 [a, a + 1] w ∧
    w.word a = v.word a ∧ w.a = w.zp (a + 1) ∧ isNegative (w.zp (a + 1)) = negative
  simp only [Routine.sortKey, bind_assoc]
  refine .label (P.also (loaded true)) fun negative => .label (P.also R) fun done => ?_
  refine .turn (R := fun n u w => loaded w.negative n u w) rfl (fun n u v hp hq => ?_) ?_
  · exact ⟨_, rfl, v, hp, hq, .of_eq rfl rfl rfl fun _ _ => rfl, rfl, rfl, rfl⟩
  refine .branch (Q := P.also (loaded false)) (fun n u w hw htaken =>
    ?_) (fun n u w hw hskipped => ?_) ?_
  · have hnegative : w.negative = true := by simpa [View.takes?] using htaken
    exact ⟨hw.1, hnegative ▸ hw.2⟩
  · have hpositive : w.negative = false := by simpa [View.takes?] using hskipped
    exact ⟨hw.1, hpositive ▸ hw.2⟩
  refine .turn (R := R) ?_ (fun n u w _ hw => ?_) (.jump (.bind ?_))
  · show (true && ((conduct t id).opens r (a + 1) && true)) = true
    rw [ha']
    rfl
  · obtain ⟨v, hp, hq, hframe, hword, hacc, hpositive⟩ := hw
    have hhigh := high_eq w a
    have hlow := low_eq w a
    have hsmall : (w.zp (a + 1)).toNat < 128 := by simpa [isNegative] using hpositive
    refine ⟨_, rfl, hR n u v _ hp hq (hframe.trans (.of_eq rfl rfl rfl fun i hi => ?_)) ?_⟩
    · exact Function.update_of_ne (by simp at hi; exact hi.2) _ _
    · have hor := toNat_or_0x80 hsmall
      rw [← hacc] at hor
      show (Function.update w.zp (a + 1) (w.a ||| 0x80) a).toNat +
        256 * (Function.update w.zp (a + 1) (w.a ||| 0x80) (a + 1)).toNat = _
      rw [Function.update_self, Function.update_of_ne (ne_succ a), hor, ← hword, Numeric.sortKey,
        if_pos (by omega), hacc]
      omega
  refine .turn (R := R) ?_ (fun n u w _ hw => ?_) (.bind (.fit (h _) ?_))
  · show (true && (true &&
      ((conduct t id).opens r a && (true && (true && ((conduct t id).opens r (a + 1) && true)))))) =
        true
    rw [ha, ha']
    rfl
  · obtain ⟨v, hp, hq, hframe, hword, hacc, hnegative⟩ := hw
    have hhigh := high_eq w a
    have hlow := low_eq w a
    have hlarge : 128 ≤ (w.zp (a + 1)).toNat := by simpa [isNegative] using hnegative
    refine ⟨_, rfl, hR n u v _ hp hq (hframe.trans (.of_eq rfl rfl rfl fun i hi => ?_)) ?_⟩
    · simp only [List.mem_cons, List.not_mem_nil, or_false, not_or] at hi
      simp [hi.1, hi.2]
    · have := (w.zp a).toNat_lt
      have := (w.zp (a + 1)).toNat_lt
      rw [← hword, Numeric.sortKey, if_neg (by omega)]
      simp [View.word]
      omega
  · simp only [Nat.sub_sub]
    exact Nat.sub_le_sub_left (by decide) _

end Flows

/-- Numbers compare as their keys do, first by the higher bytes. -/
theorem floatCompare_conducted {t : Target} : Conducted t .floatCompare := by
  refine .last (.weaken (Q := .operands) ?_ fun _ _ _ huv => huv ▸ ⟨rfl, rfl⟩)
  simp only [body, floatCompare, bind_assoc]
  refine .label (.given fun u => ordinal (orderOf u) = 0) fun equal => ?_
  refine .label (.given fun u => ordinal (orderOf u) = 0xFF) fun less => ?_
  refine .label (.given fun u => ordinal (orderOf u) = 1) fun greater =>
    .label .decided fun decided => ?_
  refine .branchNan (fun n u v hv hnan => ?_) (.branchNan (fun n u v hv hnan => ?_) ?_)
  · have hnan : IsNan (u.word floatA) := hv.1 ▸ hnan
    exact congrArg ordinal (compare_nan (u.word_lt _) (u.word_lt _) (.inl hnan))
  · have hnan : IsNan (u.word floatB) := hv.1.2 ▸ hnan
    exact congrArg ordinal (compare_nan (u.word_lt _) (u.word_lt _) (.inr hnan))
  refine .weaken (Q := Assertion.free.also fun _ u v =>
    (v.word floatA = u.word floatA ∧ v.word floatB = u.word floatB) ∧
    ¬IsNan (u.word floatA) ∧ ¬IsNan (u.word floatB)) ?_ fun n u v hv => ?_
  swap
  · obtain ⟨⟨⟨hA, hB⟩, hnA⟩, hnB⟩ := hv
    exact ⟨trivial, ⟨hA, hB⟩, hA ▸ hnA, hB ▸ hnB⟩
  refine .turn (R := fun _ u v => ((v.word floatA = u.word floatA ∧ v.word floatB = u.word floatB) ∧
    ¬IsNan (u.word floatA) ∧ ¬IsNan (u.word floatB)) ∧
    v.zero = decide (IsZero (u.word floatA) ∧ IsZero (u.word floatB))) rfl (fun n u v _ hv =>
      ⟨_, rfl, hv, ?_⟩) ?_
  · show ((v.zp (floatA + 1) ||| v.zp (floatB + 1)) &&& 0x7F ||| v.zp floatA ||| v.zp floatB == 0) =
      _
    rw [zeros_flag, decide_eq_decide, isZero_iff, isZero_iff, hv.1.1, hv.1.2]
  refine .branch (Q := Assertion.sorted.also fun _ u v => v.word floatA = u.word floatA ∧
    v.word floatB = u.word floatB)
    (fun n u v hv htaken => ?_) (fun n u v hv hskipped => ?_) ?_
  · obtain ⟨-, -, hzero⟩ := hv
    have hzeros : IsZero (u.word floatA) ∧ IsZero (u.word floatB) := by
      simpa [View.takes?, hzero] using htaken
    exact congrArg ordinal (compare_isZero (u.word_lt _) (u.word_lt _) hzeros.1 hzeros.2)
  · obtain ⟨-, ⟨hwords, hnA, hnB⟩, hzero⟩ := hv
    have hne : ¬(IsZero (u.word floatA) ∧ IsZero (u.word floatB)) := by
      rw [View.takes?, hzero] at hskipped
      simpa using hskipped
    exact ⟨compare_sortKey (u.word_lt _) (u.word_lt _) hnA hnB hne, hwords⟩
  refine .sortKey (R := fun _ u v => v.word floatA = Numeric.sortKey (u.word floatA) ∧
    v.word floatB = u.word floatB) rfl rfl
    (fun n u v w _ hv hframe hkey => ?_) fun _ => ?_
  · exact ⟨hv.1 ▸ hkey, (hframe.word (by decide) (by decide)).trans hv.2⟩
  refine .sortKey (R := fun _ u v => v.word floatA = Numeric.sortKey (u.word floatA) ∧
    v.word floatB = Numeric.sortKey (u.word floatB))
    rfl rfl (fun n u v w _ hv hframe hkey => ?_) fun _ => ?_
  · exact ⟨(hframe.word (by decide) (by decide)).trans hv.1, hv.2 ▸ hkey⟩
  let keyed : View → View → Prop := fun u v => v.word floatA = Numeric.sortKey (u.word floatA) ∧
    v.word floatB = Numeric.sortKey (u.word floatB)
  refine .turn (R := fun _ u v =>
    keyed u v ∧ v.zero = decide (v.zp (floatA + 1) = v.zp (floatB + 1)) ∧
    v.carry = decide ((v.zp (floatB + 1)).toNat ≤ (v.zp (floatA + 1)).toNat)) rfl (fun n u v _ hv =>
      ?_) ?_
  · exact ⟨_, rfl, hv, sub_beq_zero _ _, rfl⟩
  refine .branch (Q := Assertion.sorted.also fun _ u v =>
    keyed u v ∧ v.zp (floatA + 1) = v.zp (floatB + 1))
    (fun n u v hv htaken => ?_) (fun n u v hv hskipped => ?_) ?_
  · obtain ⟨hsorted, ⟨hA, hB⟩, hzero, hcarry⟩ := hv
    have hne : v.zp (floatA + 1) ≠ v.zp (floatB + 1) := by simpa [View.takes?, hzero] using htaken
    rw [Ne, ← UInt8.toNat_inj, high_eq, high_eq, hA, hB] at hne
    rw [high_eq, high_eq, hA, hB] at hcarry
    show ordinal (orderOf u) = _
    rw [show orderOf u = _ from hsorted, ordinal_cmp (by omega), hcarry,
      if_congr decide_eq_true_iff rfl rfl]
    exact if_congr (by omega) rfl rfl
  · obtain ⟨hsorted, hkeyed, hzero, -⟩ := hv
    exact ⟨hsorted, hkeyed, by simpa [View.takes?, hzero] using hskipped⟩
  refine .turn (R := fun _ u v => (keyed u v ∧ v.zp (floatA + 1) = v.zp (floatB + 1)) ∧
    v.zero = decide (v.zp floatA = v.zp floatB) ∧
    v.carry = decide ((v.zp floatB).toNat ≤ (v.zp floatA).toNat)) rfl
    (fun n u v _ hv => ⟨_, rfl, hv, sub_beq_zero _ _, rfl⟩) ?_
  refine .branch (Q := .given fun u => ordinal (orderOf u) = 0) (fun n u v hv htaken =>
    ?_) (fun n u v hv hskipped => ?_)
    (.bind ?_)
  · obtain ⟨hsorted, ⟨⟨hA, hB⟩, hhigh⟩, hzero, hcarry⟩ := hv
    have hne : v.zp floatA ≠ v.zp floatB := by simpa [View.takes?, hzero] using htaken
    rw [← UInt8.toNat_inj, high_eq, high_eq, hA, hB] at hhigh
    rw [Ne, ← UInt8.toNat_inj, low_eq, low_eq, hA, hB] at hne
    rw [low_eq, low_eq, hA, hB] at hcarry
    show ordinal (orderOf u) = _
    rw [show orderOf u = _ from hsorted, ordinal_cmp (fun heq => hne (by rw [heq])), hcarry,
      if_congr decide_eq_true_iff rfl rfl]
    exact if_congr (by omega) rfl rfl
  · obtain ⟨hsorted, ⟨⟨hA, hB⟩, hhigh⟩, hzero, -⟩ := hv
    have hlow : v.zp floatA = v.zp floatB := by simpa [View.takes?, hzero] using hskipped
    have hkeys : Numeric.sortKey (u.word floatA) = Numeric.sortKey (u.word floatB) := by
      rw [← hA, ← hB]
      exact View.word_congr hlow hhigh
    show ordinal (orderOf u) = 0
    rw [show orderOf u = _ from hsorted, hkeys, cmp_self_eq_eq]
    rfl
  let returns : Assertion := fun _ u v => v.a = ordinal (orderOf u)
  refine .exec (Q := returns) rfl (fun n u v hv => ⟨_, rfl, Eq.symm hv⟩)
    (.rts (fun _ _ _ h => h) (.bind ?_))
  refine .branch (Q := .given fun u => ordinal (orderOf u) = 1) (fun n u v hv htaken =>
    ?_) (fun n u v hv hskipped => ?_)
    (.bind ?_)
  · have hclear : v.carry = false := by simpa [View.takes?] using htaken
    rw [Assertion.decided, hclear] at hv
    exact hv
  · have hset : v.carry = true := by simpa [View.takes?] using hskipped
    rw [Assertion.decided, hset] at hv
    exact hv
  refine .exec (Q := returns) rfl (fun n u v hv => ⟨_, rfl, Eq.symm hv⟩)
    (.rts (fun _ _ _ h => h) (.bind ?_))
  exact .exec (Q := returns) rfl (fun n u v hv => ⟨_, rfl, Eq.symm hv⟩)
    (.rts (fun _ _ _ h => h) (.done (by decide) _))

/-! ## From integers -/

namespace Assertion

/-- A magnitude that may have to be halved, which makes it smaller. -/
def falling : Assertion := fun n u v => ∃ j : ℕ, v.zp (work + 1) = .ofInt (28 + j) ∧
    Halving (u.word intA) (v.word floatR) j ∧
  v.word floatR ≠ 0 ∧ v.word floatR + 16384 ≤ n

/-- A magnitude that is doubled until its leading one is in its place. -/
abbrev rising : Assertion :=
  (scaled floatR (work + 1) fun u m k => Scaling (u.word intA) m k ∧ u.word intA ≠ 0).also
    (low floatR)

/-- A magnitude whose leading one is in its place. -/
def risen : Assertion := fun _ u v => ∃ k, v.zp (work + 1) = .ofInt k ∧
    Scaling (u.word intA) (v.word floatR) k ∧
  8192 ≤ v.word floatR ∧ v.word floatR < 16384

end Assertion

/-- The magnitude is ready to be shifted; the zero flag tells whether it is zero. -/
theorem magnitude_ready (u : View) :
    ∃ w, execAll u [.instr .lda (.zeroPage intA), .instr .sta (.zeroPage floatR),
      .instr .lda (.zeroPage (intA + 1)), .instr .sta (.zeroPage (floatR + 1)),
        .instr .lda (.immediate 28), .instr .sta (.zeroPage (work + 1)),
        .instr .lda (.zeroPage floatR), .instr .ora (.zeroPage (floatR + 1))] = some w ∧
      w.zp work = u.zp work ∧ w.zp (work + 1) = 28 ∧ w.word floatR = u.word intA ∧
      w.a = w.zp floatR ||| w.zp (floatR + 1) ∧ w.zero = (w.a == 0) :=
  ⟨_, rfl, rfl, rfl, rfl, rfl, rfl⟩

/-- A magnitude is halved until its leading one is not above its place, and doubled until it is not
below. -/
theorem floatOfMagnitude_conducted {t : Target} : Conducted t .floatOfMagnitude := by
  refine .last ?_
  simp only [body, floatOfMagnitude, bind_assoc]
  refine .label (Assertion.signKept.also .falling) fun right =>
    .label (Assertion.signKept.also .rising) fun left => ?_
  refine .label (Assertion.signKept.also .risen) fun done => ?_
  let ready (u v : View) : Prop := v.zp (work + 1) = 28 ∧ v.word floatR = u.word intA ∧
    v.a = v.zp floatR ||| v.zp (floatR + 1) ∧ v.zero = (v.a == 0)
  refine .exec (Q := Assertion.signKept.also fun _ => ready)
    rfl (fun n u v huv => huv ▸ magnitude_ready u) ?_
  refine .renew (Q := Assertion.signKept.also fun n u v => ready u v ∧ v.word floatR + 16384 ≤ n) ?_
    fun n u v hv => ⟨v.word floatR + 16384, hv.1, hv.2, Nat.le_refl _⟩
  refine .branch (Q := fun _ u v => u.word intA = 0 ∧ v.a = 0 ∧ v.zp floatR = 0 ∧
    v.zp (floatR + 1) = 0)
    (fun n u v hv htaken => ?_) (fun n u v hv hskipped => ?_) ?_
  · obtain ⟨hsign, ⟨hplace, hword, ha, hzero⟩, hn⟩ := hv
    have hne : v.a ≠ 0 := by simpa [View.takes?, hzero] using htaken
    refine ⟨hsign, 0, hplace, hword, fun heq => hne ?_, hn⟩
    rw [ha, or_eq_zero_iff, eq_zero_iff, eq_zero_iff, low_eq, high_eq, heq]
    exact ⟨rfl, rfl⟩
  · obtain ⟨hsign, ⟨hplace, hword, ha, hzero⟩, hn⟩ := hv
    have hacc : v.a = 0 := by simpa [View.takes?, hzero] using hskipped
    obtain ⟨hlow, hhigh⟩ := or_eq_zero_iff.1 (ha ▸ hacc)
    refine ⟨?_, hacc, hlow, hhigh⟩
    rw [← hword, View.word, hlow, hhigh]
    rfl
  refine .exec (Q := fun _ u v => packsMagnitude u v) rfl (fun n u v hv => ?_)
    (.rts (fun _ _ _ h => h) (.bind ?_))
  · obtain ⟨hnone, ha, hlow, hhigh⟩ := hv
    refine ⟨_, rfl, ⟨ha.trans hlow.symm, ha.trans hhigh.symm⟩, fun s _ => .inl ⟨hnone, ?_⟩⟩
    show (v.zp floatR).toNat + 256 * (v.zp (floatR + 1)).toNat = 0
    rw [hlow, hhigh]
    rfl
  refine .turn (R := fun n u v => Assertion.falling n u v ∧ v.zero = decide (v.word floatR < 16384))
    rfl
    (fun n u v _ hv => ⟨_, rfl, hv, ?_⟩) ?_
  · show (v.zp (floatR + 1) &&& 0xC0 == 0) = decide (v.word floatR < 16384)
    rw [and_0xC0, high_eq, decide_eq_decide]
    omega
  refine .branch (Q := Assertion.signKept.also fun n u v => Assertion.falling n u v ∧
    16384 ≤ v.word floatR)
    (fun n u v hv htaken => ?_) (fun n u v hv hskipped => ?_) ?_
  · obtain ⟨hsign, ⟨j, hplace, hhalving, hne, hn⟩, hzero⟩ := hv
    have hless : v.word floatR < 16384 := by simpa [View.takes?, hzero] using htaken
    exact ⟨hsign, ⟨_, hplace, hhalving.scaling, hhalving.ne_zero hne⟩, ⟨hne, hless⟩, by omega⟩
  · exact ⟨hv.1, hv.2.1, by simpa [View.takes?, hv.2.2] using hskipped⟩
  refine .halve (R := fun n u v => ∃ m < n, ∃ j : ℕ, v.zp (work + 1) = .ofInt (28 + j) ∧
    Halving (u.word intA) (v.word floatR) (j + 1) ∧
    v.word floatR + 16384 ≤ m) rfl rfl (fun n u v w _ hv hframe _ _ hword => ?_) ?_
  · obtain ⟨⟨j, hplace, hhalving, -, hn⟩, hmore⟩ := hv
    have hless : halved (v.word floatR) < v.word floatR := by
      unfold halved
      split <;> omega
    refine ⟨halved (v.word floatR) +
      16384, by omega, j, (hframe.zp _ (by decide)).trans hplace, ?_, ?_⟩
    · rw [hword]
      exact hhalving.next hmore (u.word_lt _)
    · rw [hword]
  refine .turn (R := fun n u v => ∃ m < n, Assertion.falling m u v) rfl (fun n u v _ hv => ?_) ?_
  · obtain ⟨m, hm, j, hplace, hhalving, hn⟩ := hv
    have hlow : 8192 ≤ v.word floatR := hhalving.1
    refine ⟨_, rfl, m, hm, j + 1, ?_, hhalving, by show v.word floatR ≠ 0; omega, hn⟩
    show v.zp (work + 1) + 1 = _
    rw [hplace, ofInt_add_one, add_assoc]
    push_cast
    rfl
  refine .jumpBack (fun n u v hv => ?_) (.bind ?_)
  · obtain ⟨hsign, m, hm, hfalling⟩ := hv
    exact ⟨m, hm, hsign, hfalling⟩
  refine .lift (fun u m k hm hI => ⟨hI.1.double hm hI.2, hI.2⟩) (fun n u v hp hscaled hnormal => ?_)
    (by decide) rfl rfl rfl (.bind ?_)
  · obtain ⟨k, hplace, hscaling, -⟩ := hscaled
    exact ⟨hp, k, hplace, hscaling, hnormal⟩
  refine .tailCall (by decide) trivially (fun n u v w hp hw => ⟨hw.1, fun s hs => ?_⟩)
    (.done (by decide) _)
  obtain ⟨hsign, k, hplace, hscaling, hlow, hhigh⟩ := hp
  obtain ⟨hk, hk', t, hnear, hvalue⟩ := hscaling.near
  refine .inr ⟨k, _, t, hk, hk', hnear, hlow, hhigh, hvalue, ?_⟩
  rw [hw.2 s (hsign.trans hs) hlow hhigh, hplace, signed_ofInt (by omega) (by omega)]

theorem floatOfU16_conducted {t : Target} : Conducted t .floatOfU16 := by
  refine .last ?_
  simp only [body, floatOfU16, bind_assoc]
  refine .exec (Q := fun _ u v => v.zp work = signByte false ∧ v.word intA = u.word intA) rfl
    (fun n u v huv => huv ▸ ⟨_, rfl, rfl, rfl⟩) ?_
  refine .tailCall (by decide) trivially (fun n u v w hv hw => ⟨hw.1, ?_⟩) (.done (by decide) _)
  rw [← hv.2]
  exact hw.2 false hv.1

theorem floatOfI16_conducted {t : Target} : Conducted t .floatOfI16 := by
  refine .last ?_
  simp only [body, floatOfI16, bind_assoc]
  refine .exec (Q := Assertion.free.also fun _ u v => v.zp work = signByte (signOf (u.word intA)) ∧
    v.word intA = u.word intA) rfl
    (fun n u v huv => huv ▸ ⟨_, rfl, trivial, sign_byte u intA, rfl⟩) ?_
  refine .absoluteWord (R := fun _ u v => v.zp work = signByte (signOf (u.word intA)) ∧
    v.word intA = magnitude 65536 (u.word intA)) rfl rfl (fun n u v w _ hv hframe hmagnitude =>
      ?_) fun _ => ?_
  · exact ⟨(hframe.zp _ (by decide)).trans hv.1, hv.2 ▸ hmagnitude⟩
  refine .tailCall (by decide) trivially (fun n u v w hv hw => ⟨hw.1, ?_⟩) (.done (by decide) _)
  rw [← hv.2.2]
  exact hw.2 _ hv.2.1

/-! ## From fixed-point numbers -/

/-- A part of a word with a sign, as a rational number. -/
theorem ofRat_word {n : ℕ} (hn : n < 65536) {k : ℚ} (hk : 0 < k) :
    Datum.ofRat ((n : ℤ).bmod 65536 / k) = .finite (signOf n) (magnitude 65536 n / k) := by
  have hsigned : (n : ℤ).bmod 65536 = if 65536 ≤ 2 * n then -(magnitude 65536 n : ℤ)
      else magnitude 65536 n :=
    (bmod_eq_magnitude (by decide) hn).2
  rw [Datum.ofRat, hsigned, signOf]
  by_cases hneg : 32768 ≤ n
  · have hpos : (0 : ℚ) < magnitude 65536 n := by
      exact_mod_cast Nat.pos_of_ne_zero (magnitude_ne_zero hn (by omega))
    have hless : (-(magnitude 65536 n : ℚ)) / k < 0 :=
      div_neg_of_neg_of_pos (neg_neg_of_pos hpos) hk
    rw [if_pos (by omega), decide_eq_true hneg]
    push_cast
    rw [decide_eq_true hless, abs_of_neg hless, neg_div, neg_neg]
  · have hnonneg : 0 ≤ (magnitude 65536 n : ℚ) / k := div_nonneg (Nat.cast_nonneg _) hk.le
    rw [if_neg (by omega), decide_eq_false hneg]
    push_cast
    rw [decide_eq_false (not_lt.2 hnonneg), abs_of_nonneg hnonneg]

/-- Four are taken from the exponent of a packed number. -/
theorem lower_exponent (v : View) (h : 4096 ≤ v.word floatR) :
    ∃ w, execAll v [.instr .lda (.zeroPage (floatR + 1)), .instr .sec .implied,
      .instr .sbc (.immediate 0x10), .instr .sta (.zeroPage (floatR + 1))] = some w ∧
        w.word floatR = v.word floatR - 4096 := by
  have hhigh := high_eq v floatR
  have hlow := low_eq v floatR
  have := (v.zp (floatR + 1)).toNat_lt
  refine ⟨_, rfl, ?_⟩
  simp [View.word] at h hhigh hlow ⊢
  omega

/-- The word is converted as an integer, and four are taken from the exponent. -/
theorem floatOfFixed_conducted {t : Target} : Conducted t .floatOfFixed := by
  refine .last ?_
  simp only [body, floatOfFixed, bind_assoc]
  refine .label (fun _ u v =>
    (Datum.ofRat ((u.word fixA : ℤ).bmod 65536 / 16)).Rounds
      (Half.ofWord (v.word floatR))) fun zero => ?_
  let packed (u v : View) : Prop :=
    IsPacked (signOf (u.word fixA)) (magnitude 65536 (u.word fixA)) (v.word floatR)
  refine .run (Q := fun _ u v => v.word intA = u.word fixA)
    rfl (fun n u v huv => huv ▸ move_word u fixA (by decide)) ?_
  refine .call (Q := fun _ => packed)
    (by decide) (fun _ _ _ _ _ => trivial) (fun n u v b w hv hkeeps hw => ?_) ?_
  · have hcalled : (v.call b).word intA = u.word fixA := hv
    have hpacked := hw.2
    rw [hcalled] at hpacked
    exact hpacked
  refine .run (Q := fun _ u v => packed u v ∧ v.zero = decide (v.word floatR = 0))
    rfl (fun n u v hv => ?_) ?_
  · obtain ⟨w, hexec, hzero, hzp⟩ := test_word v floatR
    have hword : w.word floatR = v.word floatR := View.word_congr (congrFun hzp _) (congrFun hzp _)
    refine ⟨w, hexec, ?_, by rw [hword, hzero]⟩
    show IsPacked _ _ (w.word floatR)
    rw [hword]
    exact hv
  refine .branch (Q := fun _ u v => packed u v ∧ v.word floatR ≠ 0) (fun n u v hv htaken => ?_)
    (fun n u v hv hskipped => ⟨hv.1, by simpa [View.takes?, hv.2] using hskipped⟩) ?_
  · obtain ⟨hpacked, hzero⟩ := hv
    have hnone : v.word floatR = 0 := by simpa [View.takes?, hzero] using htaken
    have hmagnitude := hpacked.eq_zero_iff.1 hnone
    have hF : u.word fixA = 0 := by
      by_contra hne
      exact magnitude_ne_zero (u.word_lt _) hne hmagnitude
    rw [hnone, ofRat_word (u.word_lt _) (by norm_num), hmagnitude, hF, Nat.cast_zero, zero_div]
    exact rounds_zero false
  refine .exec (Q := fun _ u v =>
    (Datum.ofRat ((u.word fixA : ℤ).bmod 65536 / 16)).Rounds (Half.ofWord (v.word floatR))) rfl
    (fun n u v hv => ?_) (.bind ?_)
  · obtain ⟨hpacked, hne⟩ := hv
    have hsize := magnitude_le (u.word_lt fixA)
    obtain ⟨hmore, hrounds⟩ :=
      hpacked.sixteenth (fun hnone => hne (hpacked.eq_zero_iff.2 hnone)) (by omega)
    obtain ⟨w, hexec, hword⟩ := lower_exponent v hmore
    refine ⟨w, hexec, ?_⟩
    rw [ofRat_word (u.word_lt _) (by norm_num), hword]
    exact hrounds
  exact .exec (Q := fun _ u v => roundsFixed u v) rfl (fun n u v hv => ⟨_, rfl, ⟨rfl, rfl⟩, hv⟩)
    (.rts (fun _ _ _ h => h) (.done (by decide) _))

end Breadbin.Routine
