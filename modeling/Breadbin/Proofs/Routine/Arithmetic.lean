import Breadbin.Proofs.Machine.Conduct
import Breadbin.Proofs.Routine.Flow
import Breadbin.Proofs.Routine.Multiplication

/-!
# Routines that calculate with integers

Rules for the pieces of text that several routines share, and with them the routines that multiply
and divide integers: each keeps to its conduct, gives control back whatever it is given, and returns
what it should.
-/

namespace Breadbin.Routine

open Assembly Machine ZeroPage Writer LinkedCode

/-! ## Pieces -/

section Leading

variable {α : Type} (m : Writer α) (a b hi : UInt8) (v address : UInt16) (l : LabelId)

instance : Straight negateA 3 := by
  delta negateA
  infer_instance

instance : Straight (swapBytes a b) 4 := by
  delta swapBytes
  infer_instance

instance : Leading (returnWord a >>= fun _ => m) (op .rts >>= fun _ => m) 2 :=
  inferInstanceAs (Leading
    (zp .lda a >>= fun _ => zp .ldx (a + 1) >>= fun _ => op .rts >>= fun _ => m)
    (op .rts >>= fun _ => m) 2)

instance : Leading (returnConstant a v >>= fun _ => m) (op .rts >>= fun _ => m) 6 :=
  inferInstanceAs (Leading (setWord a v >>= fun _ => returnWord a >>= fun _ => m)
    (op .rts >>= fun _ => m) 6)

instance : Leading (returnSigned hi >>= fun _ => m) (op .rts >>= fun _ => m) 7 :=
  inferInstanceAs (Leading
      (imm .lda 0 >>= fun _ => zp .sta floatR >>= fun _ => imm .lda hi >>= fun _ =>
    zp .ora work >>= fun _ => zp .sta (floatR + 1) >>= fun _ => returnWord floatR >>= fun _ => m)
    (op .rts >>= fun _ => m) 7)

instance : Leading (returnAddress address >>= fun _ => m) (op .rts >>= fun _ => m) 2 :=
  inferInstanceAs (Leading (imm .lda address.toUInt8 >>= fun _ =>
    imm .ldx (address >>> 8).toUInt8 >>= fun _ => op .rts >>= fun _ =>
      m) (op .rts >>= fun _ => m) 2)

instance : Leading (branchSpecial a l >>= fun _ => m) (branch .beq l >>= fun _ => m) 3 :=
  inferInstanceAs (Leading (zp .lda (a + 1) >>= fun _ => imm .and exponentBits >>= fun _ =>
    imm .cmp exponentBits >>= fun _ => branch .beq l >>= fun _ =>
      m) (branch .beq l >>= fun _ => m) 3)

instance : Leading (branchZero a l >>= fun _ => m) (branch .beq l >>= fun _ => m) 3 :=
  inferInstanceAs (Leading
      (zp .lda (a + 1) >>= fun _ => imm .and 0x7F >>= fun _ => zp .ora a >>= fun _ =>
    branch .beq l >>= fun _ => m) (branch .beq l >>= fun _ => m) 3)

end Leading

/-- A routine for which nothing but its conduct has to be known. -/
theorem Conducted.of_free {t : Target} {id : RoutineId}
    (h : Flows (conduct t) t id 2048 [] [] 0 .free (body id >>= fun _ => pure ())) :
    Conducted t id :=
  .last (h.weaken fun _ _ _ _ => trivial)

/-- A routine that is known line by line. -/
theorem Conducted.of_returns {t : Target} {id : RoutineId} (d : ℕ) (zs : List UInt8)
    {p : View → View → Prop}
    (hwrites : ∀ w : Workspace, ∃ ls, w.Writes (body id w).2 ls ∧ rooms ls < 2048 ∧
      ∀ (code : LinkedCode) a b, code.Installed a ls b → ∀ v, ∃ w, code.Returns a v w ∧
        v.Frame d zs w ∧ p v w)
    (hdepth : d ≤ (bounds id).depth) (hslots : zs ⊆ (bounds id).slots)
    (hx : (bounds id).keepsX = false)
    (hy : (bounds id).keepsY = false) (hends : ∀ v w, p v w → (conduct t id).ends v w) :
    Conducted t id := by
  intro w _
  obtain ⟨ls, hwrites, hroom, hreturns⟩ := hwrites w
  refine ⟨ls, hwrites.toGrows, hroom, fun code a b _ hin _ n _ => ⟨nofun, ?_⟩⟩
  exact Conduct.Starts.of_returns (hreturns code a b hin) hin.lt hdepth hslots hx hy hends

namespace Flows

variable {t : Target} {id : RoutineId} {α : Type} {size : Nat} {back : Back} {ahead ahead' : Ahead}
  {P Q R : Assertion} {r : Footing}
  {a sign : UInt8} {l : LabelId} {m rest : Writer α}

theorem sticky [P.RestsOn r] (ha : (conduct t id).opens r a = true)
    (h : Flows (conduct t) t id (size - 20) back ahead 0 P m) :
    Flows (conduct t) t id size back ahead 0 P (Writer.sticky a >>= fun _ => m) := by
  simp only [Writer.sticky, bind_assoc]
  refine .label P fun skip => .branchOn (.straight ?_ (.bind (.forget h ?_)))
  · show (true && (true && ((conduct t id).opens r a && true))) = true
    rw [ha]
    rfl
  · exact List.subset_cons_self _ _

theorem shiftRightSticky [P.RestsOn r] (ha : (conduct t id).opens r a = true)
    (ha' : (conduct t id).opens r (a + 1) = true)
    (h : Flows (conduct t) t id (size - 30) back ahead 0 P m) :
    Flows (conduct t) t id size back ahead 0 P (Writer.shiftRightSticky a >>= fun _ => m) := by
  simp only [Writer.shiftRightSticky, bind_assoc]
  refine .straight ?_ (.sticky ha ?_)
  · show ((conduct t id).opens r (a + 1) && ((conduct t id).opens r a && true)) = true
    rw [ha, ha']
    rfl
  · rwa [Nat.sub_sub]

/-- A byte is replaced by its magnitude. -/
theorem absoluteByte [P.RestsOn r] (ha : (conduct t id).opens r a = true)
    (hR : ∀ n u v w, P n u v → Q n u v → v.Frame 0 [a] w →
      (w.zp a).toNat = magnitude 256 (v.zp a).toNat → R n u w)
    (h : Flows (conduct t) t id (size - 30) back ahead 0 (P.also R) rest) :
    Flows (conduct t) t id size back ahead 0 (P.also Q)
      (Routine.absoluteByte a >>= fun _ => rest) := by
  simp only [Routine.absoluteByte, bind_assoc]
  refine .label (P.also R) fun positive => ?_
  refine .turn (R := fun n u w => ∃ v, P n u v ∧ Q n u v ∧ v.Frame 0 [a] w ∧
    w.zp a = v.zp a ∧ w.a = v.zp a ∧
    w.negative = isNegative (v.zp a)) rfl (fun n u v hp hq => ?_) ?_
  · exact ⟨_, rfl, v, hp, hq, .of_eq rfl rfl rfl fun _ _ => rfl, rfl, rfl, rfl⟩
  refine .branch (Q := P.also fun n u w => ∃ v, P n u v ∧ Q n u v ∧ v.Frame 0 [a] w ∧ w.a = v.zp a ∧
    isNegative (v.zp a) = true)
    (fun n u w hw htaken => ?_) (fun n u w hw hskipped => ?_) ?_
  · obtain ⟨hp', v, hp, hq, hframe, hzp, -, hnegative⟩ := hw
    have hpositive : isNegative (v.zp a) = false := by simpa [View.takes?, hnegative] using htaken
    refine ⟨hp', hR n u v w hp hq hframe ?_⟩
    rw [hzp, magnitude, ← isNegative_eq, hpositive]
    rfl
  · obtain ⟨hp', v, hp, hq, hframe, -, hacc, hnegative⟩ := hw
    exact ⟨hp', v, hp, hq, hframe, hacc, by simpa [View.takes?, hnegative] using hskipped⟩
  refine .turn (R := R) ?_ (fun n u w _ hw => ?_) (.bind (.forget (.fit h ?_) ?_))
  · show (true && (true && (true && ((conduct t id).opens r a && true)))) = true
    rw [ha]
    rfl
  · obtain ⟨v, hp, hq, hframe, hacc, hnegative⟩ := hw
    refine ⟨_, rfl, hR n u v _ hp hq (hframe.trans (.of_eq rfl rfl rfl fun i hi => ?_)) ?_⟩
    · exact Function.update_of_ne (by simpa using hi) _ _
    · have := (v.zp a).toNat_lt
      rw [magnitude, ← isNegative_eq, hnegative, negateWhen, if_pos rfl]
      simp [hacc]
      omega
  · simp only [Nat.sub_sub]
    exact Nat.le_refl _
  · exact List.subset_cons_self _ _

/-- A word is negated where the byte in a slot is negative. -/
theorem negateIf [P.RestsOn r] [ahead.Promises l (.entry (P.also R))]
    [ahead.Keeps l (.entry (P.also R)) ahead']
    (ha : (conduct t id).opens r a = true) (ha' : (conduct t id).opens r (a + 1) = true)
    (hR : ∀ n u v w, P n u v → Q n u v → v.Frame 0 [a, a + 1] w →
      w.word a = negateWhen 65536 (isNegative (v.zp sign)) (v.word a) → R n u w)
    (h : ∀ back, Flows (conduct t) t id (size - 45) back ahead' 0 (P.also R) rest) :
    Flows (conduct t) t id size back ahead 0 (P.also Q)
      (zp .lda sign >>= fun _ => Writer.branch .bpl l >>= fun _ => negateWord a >>= fun _ =>
      Writer.bind l >>= fun _ => rest) := by
  refine .turn (R := fun n u w => ∃ v, P n u v ∧ Q n u v ∧ v.Frame 0 [a, a + 1] w ∧
    w.word a = v.word a ∧ w.negative = isNegative (v.zp sign)) rfl (fun n u v hp hq => ?_) ?_
  · exact ⟨_, rfl, v, hp, hq, .of_eq rfl rfl rfl fun _ _ => rfl, rfl, rfl⟩
  refine .branch (Q := P.also fun n u w => ∃ v, P n u v ∧ Q n u v ∧ v.Frame 0 [a, a + 1] w ∧
    w.word a = v.word a ∧
    isNegative (v.zp sign) = true) (fun n u w hw htaken => ?_) (fun n u w hw hskipped => ?_) ?_
  · obtain ⟨hp', v, hp, hq, hframe, hword, hnegative⟩ := hw
    have hpositive : isNegative (v.zp sign) = false := by
      simpa [View.takes?, hnegative] using htaken
    exact ⟨hp', hR n u v w hp hq hframe (by rw [hword, hpositive]; rfl)⟩
  · obtain ⟨hp', v, hp, hq, hframe, hword, hnegative⟩ := hw
    exact ⟨hp', v, hp, hq, hframe, hword, by simpa [View.takes?, hnegative] using hskipped⟩
  refine .turn (R := R) ?_ (fun n u w _ hw => ?_) (.bind (.fit (h _) ?_))
  · show (true && (true && (true && ((conduct t id).opens r a && (true && (true &&
      ((conduct t id).opens r (a + 1) && true))))))) = true
    rw [ha, ha']
    rfl
  · obtain ⟨v, hp, hq, hframe, hword, hnegative⟩ := hw
    obtain ⟨x, hexec, hnegated⟩ := negate_word w a
    refine ⟨x, hexec,
      hR n u v x hp hq
        (hframe.trans ((execAll_frame hexec rfl).mono (Nat.le_refl 0) (by simp [slots]))) ?_⟩
    rw [hnegated, hword, hnegative]
    rfl
  · simp only [Nat.sub_sub]
    exact Nat.le_refl _

/-- A word is replaced by its magnitude. -/
theorem absoluteWord [P.RestsOn r] (ha : (conduct t id).opens r a = true)
    (ha' : (conduct t id).opens r (a + 1) = true)
    (hR : ∀ n u v w, P n u v → Q n u v → v.Frame 0 [a, a + 1] w →
      w.word a = magnitude 65536 (v.word a) → R n u w)
    (h : ∀ back, Flows (conduct t) t id (size - 45) back ahead 0 (P.also R) rest) :
    Flows (conduct t) t id size back ahead 0 (P.also Q)
      (Writer.absoluteWord a >>= fun _ => rest) := by
  simp only [Writer.absoluteWord, bind_assoc]
  refine .label (P.also R) fun positive => .negateIf ha ha' (fun n u v w hp hq hframe hword => ?_) h
  exact hR n u v w hp hq hframe (by rw [hword, isNegative_high]; rfl)

end Flows

/-! ## Multiplication -/

theorem mul8_conducted {t : Target} : Conducted t .mul8 := by
  refine .of_returns 0 [work, work + 1, intR] (fun w => ?_) (by decide) (by decide) rfl
    rfl fun _ _ h => h
  obtain ⟨loop, skip, hwrites⟩ := mul8_writes w
  exact ⟨_, hwrites, by
    simp [mul8Lines, mul8Setup, mul8Loop, rooms, room], fun _ _ _ => mul8_returns⟩

theorem mul16_conducted {t : Target} : Conducted t .mul16 := by
  refine .of_returns 0 mul16Slots (fun w => ?_) (by decide) (by decide) rfl rfl fun _ _ h => h
  obtain ⟨loop, skip, hwrites⟩ := mul16_writes w
  exact ⟨_, hwrites, by
    simp [mul16Lines, mul16Setup, mul16Loop, rooms, room], fun _ _ _ => mul16_returns⟩

/-! ## Division -/

theorem divU8_conducted {t : Target} : Conducted t .divU8 := by
  refine .of_returns 0 divU8Slots (p := byteDivision.ends) (fun w => ?_) (by decide)
    (by decide) rfl rfl
    fun v w h => ?_
  · obtain ⟨proceed, loop, subtract, next, hwrites⟩ := divU8_writes w
    exact ⟨_, hwrites, by
      simp [divU8Lines, divU8ByZero, divU8Setup, divU8Loop, rooms, room],
        fun _ _ _ => divU8_behaves⟩
  · obtain ⟨hquotient, ha, hremainder⟩ := h
    exact ⟨ha.symm, (congrArg UInt8.toNat ha).trans hquotient, hremainder⟩

/-- What is known of the division of words is what it should do. -/
theorem wordDivision_divides {v w : View} (h : wordDivision.ends v w) : dividesWords v w := by
  obtain ⟨hquotient, hword, hremainder⟩ := h
  have hbytes : w.a.toNat + 256 * w.x.toNat = (w.zp intR).toNat + 256 * (w.zp (intR + 1)).toNat :=
    hquotient.trans hword.symm
  have := w.a.toNat_lt
  have := (w.zp intR).toNat_lt
  exact ⟨⟨UInt8.toNat_inj.1 (by omega), UInt8.toNat_inj.1 (by omega)⟩, hword, hremainder⟩

theorem divU16_conducted {t : Target} : Conducted t .divU16 := by
  refine .of_returns 0 divU16Slots (p := wordDivision.ends) (fun w => ?_) (by decide)
    (by decide) rfl rfl
    fun _ _ => wordDivision_divides
  obtain ⟨proceed, loop, subtract, next, hwrites⟩ := divU16_writes w
  exact ⟨_, hwrites, by
    simp [divU16Lines, divU16ByZero, divU16Setup, divU16Loop, rooms, room],
      fun _ _ _ => divU16_behaves⟩

theorem divU16_starts {t : Target} {code : LinkedCode} {a : ℕ} (h : code.Behaves a wordDivision)
    (ha : a < 0x10000) :
    (conduct t .divU16).Starts code a := by
  have hslots : wordDivision.slots ⊆ (bounds .divU16).slots := by decide
  exact .of_returns h ha (Nat.le_refl 0) hslots rfl rfl fun _ _ => wordDivision_divides

/-- A byte that is negated in A. -/
theorem toNat_negated (x : UInt8) : ((x ^^^ 0xFF) + 1).toNat = negateWhen 256 true x.toNat := by
  have := x.toNat_lt
  rw [negateWhen, if_pos rfl]
  simp
  omega

/-- The operands of a division of signed bytes are not used any more, but their signs are kept. -/
structure SignsKept8 (u v : View) : Prop where
  divisor : u.zp intB ≠ 0
  quotient : v.zp (work + 2) = u.zp intA ^^^ u.zp intB
  remainder : v.zp (work + 3) = u.zp intA

theorem SignsKept8.frame {u v w : View} {d : ℕ} {zs : List UInt8} (h : SignsKept8 u v)
    (hframe : v.Frame d zs w) (h2 : work + 2 ∉ zs) (h3 : work + 3 ∉ zs) : SignsKept8 u w :=
  ⟨h.divisor, (hframe.zp _ h2).trans h.quotient, (hframe.zp _ h3).trans h.remainder⟩

/-- The unsigned division of a dividend by zero is the signed one as well. -/
theorem dividesSignedBytes_zero {u v w : View} (hzp : v.zp = u.zp) (hzero : u.zp intB = 0)
    (h : dividesBytes v w) :
    dividesSignedBytes u w := by
  obtain ⟨ha, hquotient, hremainder⟩ := h
  rw [hzp, hzero] at hquotient hremainder
  have hlt := (u.zp intA).toNat_lt
  refine ⟨ha, ?_, ?_⟩
  · rw [hquotient, hzero]
    simp [quotient, signedQuotient]
  · rw [hremainder, hzero, UInt8.toNat_zero, signedRemainder_zero hlt, Nat.mod_zero]

/-- The quotient of two magnitudes, with its sign. -/
theorem signedQuotient_bytes {x y : UInt8} (hy : y ≠ 0) :
    ((negateWhen 256 (isNegative (x ^^^ y)) (magnitude 256 x.toNat / magnitude 256 y.toNat) : ℕ) :
      ℤ) =
      signedQuotient 256 x.toNat y.toNat := by
  rw [isNegative_xor, isNegative_eq, isNegative_eq,
    (signed_division (by decide) x.toNat_lt y.toNat_lt).1, signedQuotient, if_neg fun hzero =>
      hy (eq_zero_iff.2 hzero)]

/-- The remainder of two magnitudes, with its sign. -/
theorem signedRemainder_bytes (x y : UInt8) :
    ((negateWhen 256 (isNegative x) (magnitude 256 x.toNat % magnitude 256 y.toNat) : ℕ) : ℤ) =
      signedRemainder 256 x.toNat y.toNat := by
  rw [isNegative_eq, (signed_division (by decide) x.toNat_lt y.toNat_lt).2, signedRemainder]

/-- The magnitudes are divided; then the quotient and the remainder are given their signs. -/
theorem divS8_conducted {t : Target} : Conducted t .divS8 := by
  refine .last ?_
  simp only [body, divS8, bind_assoc]
  refine .label (fun _ u v => v.zp = u.zp ∧ u.zp intB ≠ 0) fun proceed => ?_
  refine .exec (Q := fun _ u v => v.zp = u.zp ∧ v.zero = (u.zp intB == 0))
    rfl (fun _ u v huv => huv ▸ ⟨_, rfl, rfl, rfl⟩) ?_
  refine .branch (Q := fun _ u v => v.zp = u.zp ∧ u.zp intB = 0)
    (fun n u v hv htaken => ⟨hv.1, by simpa [View.takes?, hv.2] using htaken⟩)
    (fun n u v hv hskipped => ⟨hv.1, by simpa [View.takes?, hv.2] using hskipped⟩) ?_
  refine .tailCall (by decide) trivially (fun n u v w hv hw => dividesSignedBytes_zero hv.1 hv.2 hw)
    (.bind ?_)
  refine .exec (Q := Assertion.free.also fun _ u v => SignsKept8 u v ∧ v.zp intA = u.zp intA ∧
    v.zp intB = u.zp intB) rfl
    (fun n u v hv => ?_) ?_
  · obtain ⟨hzp, hne⟩ := hv
    exact ⟨_, rfl, trivial,
      ⟨hne, by simp +decide [hzp], by simp +decide [hzp]⟩, by
        simp +decide [hzp], by simp +decide [hzp]⟩
  refine .absoluteByte
    (R := fun _ u v => SignsKept8 u v ∧ (v.zp intA).toNat = magnitude 256 (u.zp intA).toNat ∧
    v.zp intB = u.zp intB) rfl (fun n u v w _ hv hframe hmagnitude => ?_) ?_
  · obtain ⟨hsigns, hA, hB⟩ := hv
    exact ⟨hsigns.frame hframe (by decide) (by decide), hA ▸ hmagnitude,
      (hframe.zp _ (by decide)).trans hB⟩
  refine .absoluteByte
    (R := fun _ u v => SignsKept8 u v ∧ (v.zp intA).toNat = magnitude 256 (u.zp intA).toNat ∧
    (v.zp intB).toNat = magnitude 256 (u.zp intB).toNat) rfl (fun n u v w _ hv hframe hmagnitude =>
      ?_) ?_
  · obtain ⟨hsigns, hA, hB⟩ := hv
    refine ⟨hsigns.frame hframe (by decide) (by decide), ?_, hB ▸ hmagnitude⟩
    rw [hframe.zp _ (by decide), hA]
  refine .call (Q := fun _ u v => SignsKept8 u v ∧ v.a = v.zp intR ∧
      (v.zp intR).toNat = magnitude 256 (u.zp intA).toNat / magnitude 256 (u.zp intB).toNat ∧
      (v.zp intRemainder).toNat = magnitude 256 (u.zp intA).toNat % magnitude 256 (u.zp intB).toNat)
    (by decide) (fun _ _ _ _ _ => trivial) (fun n u v b w hv hkeeps hw => ?_) ?_
  · obtain ⟨-, hsigns, hA, hB⟩ := hv
    obtain ⟨ha, hquotient, hremainder⟩ := hw
    change (w.zp intR).toNat = quotient 256 (v.zp intA).toNat (v.zp intB).toNat at hquotient
    change (w.zp intRemainder).toNat = (v.zp intA).toNat % (v.zp intB).toNat at hremainder
    have hne : magnitude 256 (u.zp intB).toNat ≠ 0 :=
      magnitude_ne_zero (u.zp intB).toNat_lt fun hzero => hsigns.divisor (eq_zero_iff.2 hzero)
    rw [hA, hB, quotient, if_neg hne] at hquotient
    rw [hA, hB] at hremainder
    exact ⟨⟨hsigns.divisor, (kept hkeeps (by decide)).trans hsigns.quotient,
      (kept hkeeps (by decide)).trans hsigns.remainder⟩, ha, hquotient, hremainder⟩
  let divided : Assertion := fun _ u v => SignsKept8 u v ∧
    ((v.zp intR).toNat : ℤ) = signedQuotient 256 (u.zp intA).toNat (u.zp intB).toNat ∧
    (v.zp intRemainder).toNat = magnitude 256 (u.zp intA).toNat % magnitude 256 (u.zp intB).toNat
  refine .label divided fun quotientDone => ?_
  refine .label (fun _ u v =>
    ((v.zp intR).toNat : ℤ) = signedQuotient 256 (u.zp intA).toNat (u.zp intB).toNat ∧
    ((v.zp intRemainder).toNat : ℤ) = signedRemainder 256 (u.zp intA).toNat (u.zp intB).toNat)
      fun remainderDone => ?_
  refine .exec (Q := fun _ u v => SignsKept8 u v ∧ v.a = v.zp intR ∧
      (v.zp intR).toNat = magnitude 256 (u.zp intA).toNat / magnitude 256 (u.zp intB).toNat ∧
      (v.zp intRemainder).toNat = magnitude 256 (u.zp intA).toNat % magnitude 256
        (u.zp intB).toNat ∧
      v.negative = isNegative (u.zp intA ^^^ u.zp intB)) rfl (fun n u v hv => ?_) ?_
  · obtain ⟨hsigns, ha, hquotient, hremainder⟩ := hv
    exact ⟨_, rfl, ⟨hsigns.divisor, hsigns.quotient, hsigns.remainder⟩, ha, hquotient, hremainder,
      congrArg isNegative hsigns.quotient⟩
  refine .branch (Q := fun _ u v => SignsKept8 u v ∧ v.a = v.zp intR ∧
      (v.zp intR).toNat = magnitude 256 (u.zp intA).toNat / magnitude 256 (u.zp intB).toNat ∧
      (v.zp intRemainder).toNat = magnitude 256 (u.zp intA).toNat % magnitude 256
        (u.zp intB).toNat ∧
      isNegative (u.zp intA ^^^ u.zp intB) = true) (fun n u v hv htaken =>
        ?_) (fun n u v hv hskipped => ?_) ?_
  · obtain ⟨hsigns, -, hquotient, hremainder, hnegative⟩ := hv
    have hpositive : isNegative (u.zp intA ^^^ u.zp intB) = false := by
      simpa [View.takes?, hnegative] using htaken
    refine ⟨hsigns, ?_, hremainder⟩
    rw [← signedQuotient_bytes hsigns.divisor, hpositive, hquotient]
    rfl
  · obtain ⟨hsigns, ha, hquotient, hremainder, hnegative⟩ := hv
    exact ⟨hsigns, ha, hquotient, hremainder, by simpa [View.takes?, hnegative] using hskipped⟩
  refine .exec (Q := divided) rfl (fun n u v hv => ?_) (.bind ?_)
  · obtain ⟨hsigns, ha, hquotient, hremainder, hnegative⟩ := hv
    refine ⟨_, rfl, ⟨hsigns.divisor, hsigns.quotient, hsigns.remainder⟩, ?_, hremainder⟩
    rw [← signedQuotient_bytes hsigns.divisor, hnegative, ← hquotient, ← ha, ← toNat_negated]
    simp
  refine .exec (Q := fun n u v => divided n u v ∧ v.negative = isNegative (u.zp intA))
    rfl (fun n u v hv => ?_) ?_
  · exact ⟨_, rfl, ⟨⟨hv.1.divisor, hv.1.quotient, hv.1.remainder⟩, hv.2⟩,
      congrArg isNegative hv.1.remainder⟩
  refine .branch (Q := fun n u v => divided n u v ∧
    isNegative (u.zp intA) = true) (fun n u v hv htaken => ?_)
    (fun n u v hv hskipped => ⟨hv.1, by simpa [View.takes?, hv.2] using hskipped⟩) ?_
  · obtain ⟨⟨hsigns, hquotient, hremainder⟩, hnegative⟩ := hv
    have hpositive : isNegative (u.zp intA) = false := by
      simpa [View.takes?, hnegative] using htaken
    refine ⟨hquotient, ?_⟩
    rw [← signedRemainder_bytes, hpositive, hremainder]
    rfl
  refine .exec (Q := fun _ u v =>
    ((v.zp intR).toNat : ℤ) = signedQuotient 256 (u.zp intA).toNat (u.zp intB).toNat ∧
    ((v.zp intRemainder).toNat : ℤ) = signedRemainder 256 (u.zp intA).toNat (u.zp intB).toNat)
      rfl (fun n u v hv => ?_) (.bind ?_)
  · obtain ⟨⟨-, hquotient, hremainder⟩, hnegative⟩ := hv
    refine ⟨_, rfl, hquotient, ?_⟩
    have := (v.zp intRemainder).toNat_lt
    rw [← signedRemainder_bytes, hnegative, ← hremainder, negateWhen, if_pos rfl]
    simp
    omega
  refine .exec (Q := fun _ u v => dividesSignedBytes u v) rfl (fun n u v hv => ⟨_, rfl, rfl, hv⟩) ?_
  exact .rts (fun _ _ _ h => h) (.done (by decide) _)

/-- The operands of a division of signed words are not used any more, but their signs are kept. -/
structure SignsKept16 (u v : View) : Prop where
  divisor : u.word intB ≠ 0
  quotient : v.zp work = u.zp (intA + 1) ^^^ u.zp (intB + 1)
  remainder : v.zp (work + 1) = u.zp (intA + 1)

theorem SignsKept16.frame {u v w : View} {d : ℕ} {zs : List UInt8} (h : SignsKept16 u v)
    (hframe : v.Frame d zs w) (h0 : work ∉ zs) (h1 : work + 1 ∉ zs) : SignsKept16 u w :=
  ⟨h.divisor, (hframe.zp _ h0).trans h.quotient, (hframe.zp _ h1).trans h.remainder⟩

theorem dividesSignedWords_zero {u v w : View} (hzp : v.zp = u.zp) (hzero : u.word intB = 0)
    (h : dividesWords v w) :
    dividesSignedWords u w := by
  obtain ⟨ha, hquotient, hremainder⟩ := h
  have hword (z : UInt8) : v.word z = u.word z := View.word_congr (congrFun hzp _) (congrFun hzp _)
  rw [hword, hword, hzero] at hquotient hremainder
  refine ⟨ha, ?_, ?_⟩
  · rw [hquotient, hzero]
    simp [quotient, signedQuotient]
  · rw [hremainder, hzero, signedRemainder_zero (u.word_lt intA), Nat.mod_zero]

theorem signedQuotient_words (u : View) (h : u.word intB ≠ 0) :
    ((negateWhen 65536 (isNegative (u.zp (intA + 1) ^^^ u.zp (intB + 1)))
      (magnitude 65536 (u.word intA) / magnitude 65536 (u.word intB)) : ℕ) : ℤ) =
      signedQuotient 65536 (u.word intA) (u.word intB) := by
  rw [isNegative_xor, isNegative_high, isNegative_high,
    (signed_division (by decide) (u.word_lt intA) (u.word_lt intB)).1, signedQuotient, if_neg h]

theorem signedRemainder_words (u : View) :
    ((negateWhen 65536 (isNegative (u.zp (intA + 1)))
      (magnitude 65536 (u.word intA) % magnitude 65536 (u.word intB)) : ℕ) : ℤ) =
      signedRemainder 65536 (u.word intA) (u.word intB) := by
  rw [isNegative_high, (signed_division (by decide) (u.word_lt intA) (u.word_lt intB)).2,
    signedRemainder]

theorem divS16_conducted {t : Target} : Conducted t .divS16 := by
  refine .last ?_
  simp only [body, divS16, bind_assoc]
  refine .label (fun _ u v => v.zp = u.zp ∧ u.word intB ≠ 0) fun proceed => ?_
  refine .exec (Q := fun _ u v => v.zp = u.zp ∧ v.zero = decide (u.word intB = 0))
    rfl (fun n u v huv => ?_) ?_
  · subst huv
    obtain ⟨w, hexec, hzero, hzp⟩ := test_word u intB
    exact ⟨w, hexec, hzp, hzero⟩
  refine .branch (Q := fun _ u v => v.zp = u.zp ∧ u.word intB = 0)
    (fun n u v hv htaken => ⟨hv.1, by simpa [View.takes?, hv.2] using htaken⟩)
    (fun n u v hv hskipped => ⟨hv.1, by simpa [View.takes?, hv.2] using hskipped⟩) ?_
  refine .tailCall (by decide) trivially (fun n u v w hv hw => dividesSignedWords_zero hv.1 hv.2 hw)
    (.bind ?_)
  refine .run (Q := fun _ u v => v.zp = u.zp ∧ u.word intB ≠ 0 ∧ v.a = u.zp (intA + 1)) rfl
    (fun n u v hv => ⟨_, rfl, hv.1, hv.2, congrFun hv.1 _⟩) ?_
  refine .run (Q := fun _ u v => v.zp = Function.update u.zp (work + 1) (u.zp (intA + 1)) ∧
    u.word intB ≠ 0 ∧
    v.a = u.zp (intA + 1)) rfl (fun n u v hv => ⟨_, rfl, by simp [hv.1, hv.2.2], hv.2.1, hv.2.2⟩) ?_
  refine .run (Q := fun _ u v => v.zp = Function.update u.zp (work + 1) (u.zp (intA + 1)) ∧
    u.word intB ≠ 0 ∧
    v.a = u.zp (intA + 1) ^^^ u.zp (intB + 1)) rfl (fun n u v hv =>
      ⟨_, rfl, hv.1, hv.2.1, by simp +decide [hv.1, hv.2.2]⟩) ?_
  refine .run (Q := Assertion.free.also fun _ u v => SignsKept16 u v ∧ v.word intA = u.word intA ∧
    v.word intB = u.word intB) rfl
    (fun n u v hv => ?_) ?_
  · obtain ⟨hzp, hne, ha⟩ := hv
    exact ⟨_, rfl, trivial, ⟨hne, by simp +decide [ha], by simp +decide [hzp]⟩,
      View.word_congr (by simp +decide [hzp]) (by simp +decide [hzp]),
      View.word_congr (by simp +decide [hzp]) (by simp +decide [hzp])⟩
  refine .absoluteWord
    (R := fun _ u v => SignsKept16 u v ∧ v.word intA = magnitude 65536 (u.word intA) ∧
    v.word intB = u.word intB) rfl rfl (fun n u v w _ hv hframe hmagnitude => ?_) fun _ => ?_
  · obtain ⟨hsigns, hA, hB⟩ := hv
    exact ⟨hsigns.frame hframe (by decide) (by decide), hA ▸ hmagnitude,
      (hframe.word (by decide) (by decide)).trans hB⟩
  refine .absoluteWord
    (R := fun _ u v => SignsKept16 u v ∧ v.word intA = magnitude 65536 (u.word intA) ∧
    v.word intB = magnitude 65536 (u.word intB)) rfl rfl (fun n u v w _ hv hframe hmagnitude =>
      ?_) fun _ => ?_
  · obtain ⟨hsigns, hA, hB⟩ := hv
    exact ⟨hsigns.frame hframe (by decide) (by decide),
      (hframe.word (by decide) (by decide)).trans hA, hB ▸ hmagnitude⟩
  refine .call (Q := Assertion.free.also fun _ u v => SignsKept16 u v ∧
      v.word intR = magnitude 65536 (u.word intA) / magnitude 65536 (u.word intB) ∧
      v.word intRemainder = magnitude 65536 (u.word intA) % magnitude 65536 (u.word intB))
    (by decide) (fun _ _ _ _ _ => trivial) (fun n u v b w hv hkeeps hw => ?_) ?_
  · obtain ⟨-, hsigns, hA, hB⟩ := hv
    obtain ⟨-, hquotient, hremainder⟩ := hw
    change w.word intR = quotient 65536 (v.word intA) (v.word intB) at hquotient
    change w.word intRemainder = v.word intA % v.word intB at hremainder
    rw [hA, hB, quotient, if_neg (magnitude_ne_zero (u.word_lt intB) hsigns.divisor)] at hquotient
    rw [hA, hB] at hremainder
    exact ⟨trivial, ⟨hsigns.divisor, (kept hkeeps (by decide)).trans hsigns.quotient,
      (kept hkeeps (by decide)).trans hsigns.remainder⟩, hquotient, hremainder⟩
  refine .label (Assertion.free.also fun _ u v => SignsKept16 u v ∧
      (v.word intR : ℤ) = signedQuotient 65536 (u.word intA) (u.word intB) ∧
      v.word intRemainder = magnitude 65536 (u.word intA) % magnitude 65536 (u.word intB))
        fun quotientDone => ?_
  refine .label (Assertion.free.also fun _ u v =>
      (v.word intR : ℤ) = signedQuotient 65536 (u.word intA) (u.word intB) ∧
      (v.word intRemainder : ℤ) = signedRemainder 65536 (u.word intA) (u.word intB))
        fun remainderDone => ?_
  refine .negateIf rfl rfl (fun n u v w _ hv hframe hnegated => ?_) fun _ =>
    .negateIf rfl rfl (fun n u v w _ hv hframe hnegated => ?_)
    fun _ => ?_
  · obtain ⟨hsigns, hquotient, hremainder⟩ := hv
    refine ⟨hsigns.frame hframe (by decide) (by decide), ?_,
      (hframe.word (by decide) (by decide)).trans hremainder⟩
    rw [hnegated, hsigns.quotient, hquotient, signedQuotient_words u hsigns.divisor]
  · obtain ⟨hsigns, hquotient, hremainder⟩ := hv
    refine ⟨?_, ?_⟩
    · rw [hframe.word (by decide) (by decide), hquotient]
    · rw [hnegated, hsigns.remainder, hremainder, signedRemainder_words]
  refine .exec (Q := fun _ u v => dividesSignedWords u v)
    rfl (fun n u v hv => ⟨_, rfl, ⟨rfl, rfl⟩, hv.2⟩) ?_
  exact .rts (fun _ _ _ h => h) (.done (by decide) _)

end Breadbin.Routine

/-!
## Products of two words

The text that multiplies two words into a double word, by shifting and adding.
-/

namespace Breadbin.Routine

open Assembly Machine ZeroPage Writer LinkedCode

/-! ## Shifting and adding -/

/-- A round of the multiplication by `n`: the lowest bit says whether `n` is added to the upper
half. -/
def shiftAdd (n w : ℕ) : ℕ := w / 2 + w % 2 * n * 65536

/-- What is left of the multiplier is below the product with the bits that are done. -/
theorem shiftAdd_iterate (n m : ℕ) {i j : ℕ} (hij : i + j = 16) :
    (shiftAdd n)^[i] m = m / 2 ^ i + n * (m % 2 ^ i) * 2 ^ (j + 1) := by
  induction i generalizing j with
  | zero => simp [Nat.mod_one]
  | succ i ih =>
    have hpow : 2 ^ i * 2 ^ (j + 1) = 65536 := by
      rw [← pow_add, show i + (j + 1) = 16 by omega]
      rfl
    rw [Function.iterate_succ_apply', ih (show i + (j + 1) = 16 by omega), shiftAdd,
      pow_succ 2 (j + 1), ← Nat.mul_assoc, Nat.add_mul_div_right _ _ (by decide),
      Nat.add_mul_mod_self_right, Nat.mod_pow_succ, Nat.div_div_eq_div_mul,
      ← pow_succ, ← hpow]
    ring

theorem shiftAdd_product (n : ℕ) {m : ℕ} (hm : m < 65536) : (shiftAdd n)^[16] m = 2 * (m * n) := by
  rw [shiftAdd_iterate n m (Nat.add_zero 16), Nat.div_eq_of_lt (b := 2 ^ 16) hm,
    Nat.mod_eq_of_lt (b := 2 ^ 16) hm]
  ring

/-- The slots of a double word and of another word lie apart. -/
structure Apart (hi lo n : UInt8) : Prop where
  words : hi ≠ lo ∧ hi ≠ lo + 1 ∧ hi + 1 ≠ lo ∧ hi + 1 ≠ lo + 1
  low : n ∉ [hi, hi + 1, lo, lo + 1]
  high : n + 1 ∉ [hi, hi + 1, lo, lo + 1]

/-- Lines that change no more than the double word. -/
theorem frame_double {v w : View} {ls : List Line} {hi lo : UInt8} (hexec : execAll v ls = some w)
    (hlevel : ls.all isLevel = true) (hslots : ls.flatMap slots ⊆ [hi, hi + 1, lo, lo + 1]) :
    v.Frame 0 [hi, hi + 1, lo, lo + 1] w :=
  (execAll_frame hexec hlevel).mono (Nat.le_refl 0) hslots

namespace Assertion

variable (P Q : Assertion) (hi lo n : UInt8)

/-- Since `P` and `Q` held, no more than the double word has changed; `I` tells how. -/
def since (I : ℕ → View → View → Prop) : Assertion := fun b u v =>
  ∃ b₀ v₀, P b₀ u v₀ ∧ Q b₀ u v₀ ∧ v₀.Frame 0 [hi, hi + 1, lo, lo + 1] v ∧ I b v₀ v

end Assertion

namespace Flows

variable {t : Target} {id : RoutineId} {α : Type} {size : Nat} {back : Back} {ahead : Ahead}
  {P Q R : Assertion} {r : Footing}
  {hi lo n : UInt8} {rest : Writer α}

/-- The product of two words is a double word. -/
theorem multiplyWide [P.RestsOn r] [hP : P.Timeless] (hslots : Apart hi lo n)
    (hx : (conduct t id).setsX r = true)
    (hhi : (conduct t id).opens r hi = true) (hhi' : (conduct t id).opens r (hi + 1) = true)
    (hlo : (conduct t id).opens r lo = true) (hlo' : (conduct t id).opens r (lo + 1) = true)
    (hR : ∀ b c u v w, P b u v → Q b u v → v.Frame 0 [hi, hi + 1, lo, lo + 1] w →
      w.double hi lo = v.word lo * v.word n → R c u w)
    (h : Flows (conduct t) t id (size - 110) [] ahead 0 (P.also R) rest) :
    Flows (conduct t) t id size back ahead 0 (P.also Q)
      (Routine.multiplyWide hi lo n >>= fun _ => rest) := by
  -- with X rounds to go the double word and the carry are what so many rounds have made of the
  -- multiplier
  let entered : Assertion := .since P Q hi lo fun b v₀ v => 2 * v.double hi lo + bit v.carry =
    (shiftAdd (v₀.word n))^[16 - v.x.toNat] (v₀.word lo) ∧ 1 ≤ v.x.toNat ∧
      v.x.toNat ≤ 16 ∧ v.x.toNat ≤ b
  let added : Assertion := .since P Q hi lo fun b v₀ v =>
    v.double hi lo + 4294967296 * bit v.carry =
    (shiftAdd (v₀.word n))^[17 - v.x.toNat] (v₀.word lo) ∧ 1 ≤ v.x.toNat ∧
      v.x.toNat ≤ 16 ∧ v.x.toNat ≤ b
  have hwords := hslots.words
  simp only [Routine.multiplyWide, bind_assoc]
  refine .label (P.also added) fun skip => ?_
  refine .turn (R := fun _ u v => ∃ b, entered b u v) ?_ (fun b u v hp hq => ?_) ?_
  · show (true && ((conduct t id).opens r hi && ((conduct t id).opens r (hi + 1) &&
      ((true && (conduct t id).setsX r) &&
        ((conduct t id).opens r (lo + 1) && ((conduct t id).opens r lo && true)))))) = true
    rw [hhi, hhi', hx, hlo, hlo']
    rfl
  · let v₁ := (((v.setA 0).store hi 0).store (hi + 1) 0).setX 16
    have hfirst : execAll v
        [.instr .lda (.immediate 0), .instr .sta (.zeroPage hi), .instr .sta (.zeroPage (hi + 1)),
          .instr .ldx (.immediate 16)] = some v₁ := rfl
    obtain ⟨w, hexec, hword, hcarry, -⟩ := shiftRight_word v₁ lo
    have hall := execAll_trans hfirst hexec
    have hxw : w.x = 16 := execAll_x hexec rfl
    have hwordHi : w.word hi = 0 := by
      rw [(execAll_frame hexec rfl).word (by simp [slots]; tauto) (by simp [slots]; tauto)]
      simp [v₁, View.word]
    have hwordLo : v₁.word lo = v.word lo :=
      (execAll_frame hfirst rfl).word (by simp [slots]; tauto) (by simp [slots]; tauto)
    refine ⟨w, hall, 16, b, v, hp, hq, frame_double hall rfl (by simp [slots]), ?_, ?_⟩
    · rw [View.double, hwordHi, hword, hcarry, hwordLo, hxw]
      show _ = v.word lo
      by_cases hodd : v.word lo % 2 = 1 <;> simp [hodd, bit] <;> omega
    · rw [hxw]
      decide
  refine .renew (Q := P.also entered) (.here fun loop => ?_) fun b u v hv =>
    hv.2.imp fun b' hentered => ⟨hP.anytime b b' u v hv.1, hentered⟩
  refine .branch (Q := P.also fun b u v => entered b u v ∧
    v.carry = true) (fun b u v hv htaken => ?_)
    (fun b u v hv hskipped => ⟨hv.1, hv.2, by simpa [View.takes?] using hskipped⟩) ?_
  · obtain ⟨hp, b₀, v₀, hp₀, hq₀, hframe, hstate, hx1, hx16, hxb⟩ := hv
    have hclear : v.carry = false := by simpa [View.takes?] using htaken
    refine ⟨hp, b₀, v₀, hp₀, hq₀, hframe, ?_, hx1, hx16, hxb⟩
    rw [show 17 - v.x.toNat =
      16 - v.x.toNat + 1 by omega, Function.iterate_succ_apply', ← hstate, hclear, shiftAdd]
    simp [bit]
  refine .turn (R := added) ?_ (fun b u v hp hv => ?_) (.bind ?_)
  · show (true && (true &&
      (true && ((conduct t id).opens r hi &&
        (true && (true && ((conduct t id).opens r (hi + 1) && true)))))))
      = true
    rw [hhi, hhi']
    rfl
  · obtain ⟨⟨b₀, v₀, hp₀, hq₀, hframe, hstate, hrounds⟩, hset⟩ := hv
    obtain ⟨w, hexec, hword, hcarry, hxw⟩ := plus_word v (x := hi) (y := hi) (z := n) (succ_ne hi)
      (fun heq => hslots.high (by simp [heq]))
    have hkept := execAll_frame hexec rfl
    have hlo' : w.word lo = v.word lo :=
      hkept.word (by simp [slots]; tauto) (by simp [slots]; tauto)
    have hn : v.word n = v₀.word n := hframe.word hslots.low hslots.high
    refine ⟨w, hexec, b₀, v₀, hp₀, hq₀, hframe.trans (frame_double hexec rfl (by simp [slots])),
      ?_, hxw ▸ hrounds⟩
    rw [hxw, show 17 - v.x.toNat =
      16 - v.x.toNat + 1 by
        omega, Function.iterate_succ_apply', ← hstate, hset, shiftAdd, View.double, View.double,
        hword, hcarry, hlo', ← hn]
    have := v.word_lt hi
    have := v.word_lt n
    by_cases hover : 65536 ≤ v.word hi + v.word n <;> simp [hover, bit] <;> omega
  refine .turn (R := .since P Q hi lo fun b v₀ v => 2 * v.double hi lo + bit v.carry =
      (shiftAdd (v₀.word n))^[17 - v.x.toNat] (v₀.word lo) ∧ 1 ≤ v.x.toNat ∧
        v.x.toNat ≤ 16 ∧ v.x.toNat ≤ b)
    ?_ (fun b u v hp hv => ?_) ?_
  · show ((conduct t id).opens r (hi + 1) &&
      ((conduct t id).opens r hi && ((conduct t id).opens r (lo + 1) &&
      ((conduct t id).opens r lo && true)))) = true
    rw [hhi, hhi', hlo, hlo']
    rfl
  · obtain ⟨b₀, v₀, hp₀, hq₀, hframe, hstate, hrounds⟩ := hv
    obtain ⟨w, hexec, hdouble, hxw⟩ := rotateRight_double v hslots.words
    refine ⟨w, hexec, b₀, v₀, hp₀, hq₀, hframe.trans (frame_double hexec rfl (by simp [slots])),
      ?_, hxw ▸ hrounds⟩
    rw [hdouble, hstate, hxw]
  refine .piece (R := .since P Q hi lo fun b v₀ v => 2 * v.double hi lo + bit v.carry =
      (shiftAdd (v₀.word n))^[16 - v.x.toNat] (v₀.word lo) ∧ v.x.toNat ≤ 16 ∧ v.x.toNat < b ∧
      v.zero = decide (v.x.toNat = 0)) ?_ (fun b u v hp hv => ?_) ?_
  · show ((conduct t id).setsX r && true) = true
    rw [hx]
    rfl
  · obtain ⟨b₀, v₀, hp₀, hq₀, hframe, hstate, hx1, hx16, hxb⟩ := hv
    have hnext : (v.x - 1).toNat = v.x.toNat - 1 := toNat_sub_one (by omega)
    refine ⟨_, rfl, b₀, v₀, hp₀, hq₀, { hframe with }, ?_, ?_, ?_, ?_⟩
    · show 2 * v.double hi lo + bit v.carry =
        (shiftAdd (v₀.word n))^[16 - (v.x - 1).toNat] (v₀.word lo)
      rw [hstate, hnext, show 16 - (v.x.toNat - 1) = 17 - v.x.toNat by omega]
    · show (v.x - 1).toNat ≤ 16
      omega
    · show (v.x - 1).toNat < b
      omega
    · show (v.x - 1 == 0) = decide ((v.x - 1).toNat = 0)
      rw [Bool.eq_iff_iff, beq_iff_eq, eq_zero_iff, decide_eq_true_eq]
  refine .branchBack (Q := P.also R) (fun b u v hv htaken => ?_) (fun b u v hv hskipped => ?_)
    (.forget (.fit h ?_) (List.nil_subset _))
  · obtain ⟨hp, b₀, v₀, hp₀, hq₀, hframe, hstate, hx16, hxb, hzero⟩ := hv
    have hleft : v.x.toNat ≠ 0 := by simpa [View.takes?, hzero] using htaken
    exact ⟨_, hxb, hP.anytime b _ u v hp, b₀, v₀, hp₀, hq₀, hframe, hstate,
      Nat.pos_of_ne_zero hleft, hx16, Nat.le_refl _⟩
  · obtain ⟨hp, b₀, v₀, hp₀, hq₀, hframe, hstate, -, -, hzero⟩ := hv
    have hdone : v.x.toNat = 0 := by simpa [View.takes?, hzero] using hskipped
    rw [hdone, shiftAdd_product _ (v₀.word_lt lo)] at hstate
    refine ⟨hp, hR b₀ b u v₀ v hp₀ hq₀ hframe ?_⟩
    cases hcarry : v.carry <;> simp [hcarry, bit] at hstate <;> omega
  · simp only [Nat.sub_sub]
    exact Nat.sub_le_sub_left (by decide) _

end Flows

end Breadbin.Routine
