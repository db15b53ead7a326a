import Breadbin.Proofs.Routine.Strings

/-!
# Random numbers

The generator is a shift register with feedback.  A number of a range is the next state modulo the
width of the range, above its lower end; a width of zero stands for all words.
-/

namespace Breadbin.Routine

open Assembly Machine ZeroPage Writer LinkedCode

variable {t : Target}

/-! ## The generator -/

/-- A state that is odd is shifted and mixed with the mask. -/
theorem nextSeed_word {n : ℕ} (hn : n < 65536) :
    (nextSeed (UInt16.ofNat n)).toNat = if n % 2 = 1 then n / 2 ^^^ 0xB400 else n / 2 := by
  have hbit : (UInt16.ofNat n &&& 1).toNat = n % 2 := by
    rw [UInt16.toNat_and, UInt16.toNat_ofNat', Nat.mod_eq_of_lt hn]
    exact Nat.and_two_pow_sub_one_eq_mod n 1
  have hhalf : (UInt16.ofNat n >>> 1).toNat = n / 2 := by
    rw [UInt16.toNat_shiftRight, UInt16.toNat_ofNat', Nat.mod_eq_of_lt hn]
    exact Nat.shiftRight_eq_div_pow n 1
  have hzero : UInt16.ofNat n &&& 1 = 0 ↔ n % 2 = 0 := by
    rw [← UInt16.toNat_inj, hbit]
    rfl
  rw [nextSeed]
  by_cases heven : n % 2 = 0
  · rw [if_pos (hzero.2 heven), if_neg (by omega), hhalf]
  · rw [if_neg (mt hzero.1 heven), if_pos (by omega), UInt16.toNat_xor, hhalf]
    rfl

/-- The mask has no bits in the low byte. -/
theorem xor_feedback {lo hi : UInt8} :
    (lo.toNat + 256 * hi.toNat) ^^^ 0xB400 = lo.toNat + 256 * (hi ^^^ 0xB4).toNat := by
  have hlo := lo.toNat_lt
  have hmod : ((lo.toNat + 256 * hi.toNat) ^^^ 0xB400) % 256 = lo.toNat := by
    rw [show 256 = 2 ^ 8 from rfl, Nat.xor_mod_two_pow,
      show 0xB400 % 2 ^ 8 = 0 from rfl, Nat.xor_zero]
    omega
  have hdiv : ((lo.toNat + 256 * hi.toNat) ^^^ 0xB400) / 256 = (hi ^^^ 0xB4).toNat := by
    rw [show 256 = 2 ^ 8 from rfl, Nat.xor_div_two_pow, UInt8.toNat_xor,
      show (lo.toNat + 2 ^ 8 * hi.toNat) / 2 ^ 8 = hi.toNat by omega]
    rfl
  omega

theorem randomNext_conducted : Conducted t .randomNext := by
  refine .last ?_
  simp only [body, randomNext, bind_assoc]
  refine .label (fun _ u v => v.word seed = (nextSeed (seedOf u)).toNat) fun skip => ?_
  refine .exec (Q := fun _ u v => v.word seed = u.word seed / 2 ∧
    v.carry = decide (u.word seed % 2 = 1)) rfl (fun _ u v huv => ?_) ?_
  · subst huv
    obtain ⟨w, hexec, hword, hcarry, -⟩ := shiftRight_word u seed
    exact ⟨w, hexec, hword, hcarry⟩
  refine .branch (Q := fun _ u v => v.word seed = u.word seed / 2 ∧
    u.word seed % 2 = 1) (fun _ u v hv htaken => ?_)
    (fun _ u v hv hskipped => ?_) ?_
  · obtain ⟨hword, hcarry⟩ := hv
    have heven : ¬u.word seed % 2 = 1 := by simpa [View.takes?, hcarry] using htaken
    rw [seedOf, nextSeed_word (u.word_lt seed), if_neg heven, hword]
  · obtain ⟨hword, hcarry⟩ := hv
    exact ⟨hword, by simpa [View.takes?, hcarry] using hskipped⟩
  refine .exec (Q := fun _ u v => v.word seed = (nextSeed (seedOf u)).toNat)
    rfl (fun _ u v hv => ?_) (.bind ?_)
  · obtain ⟨hword, hodd⟩ := hv
    refine ⟨_, rfl, ?_⟩
    show (v.zp seed).toNat + 256 * (v.zp (seed + 1) ^^^ 0xB4).toNat = _
    rw [seedOf, nextSeed_word (u.word_lt seed), if_pos hodd, ← hword, View.word, xor_feedback]
  refine .exec (Q := fun _ u v => drawsWord u v) rfl (fun _ u v hv => ⟨_, rfl, ⟨rfl, rfl⟩, ?_⟩)
    (.rts (fun _ _ _ hv => hv) (.done (by decide) _))
  show UInt16.ofNat (v.word seed) = nextSeed (seedOf u)
  rw [hv, UInt16.ofNat_toNat]

/-! ## Ranges -/

/-- The number that is drawn, as a sum modulo 65536. -/
theorem rangeValue_word {s low high : ℕ} (hs : s < 65536) (hlow : low < 65536)
    (hhigh : high < 65536) :
    rangeValue (UInt16.ofNat s) (UInt16.ofNat low) (UInt16.ofNat high) =
      UInt16.ofNat ((s % ((high + 65536 - low + 1) % 65536) + low) % 65536) := by
  have hwidth : (UInt16.ofNat high - UInt16.ofNat low + 1).toNat =
      (high + 65536 - low + 1) % 65536 := by
    rw [UInt16.toNat_add, UInt16.toNat_sub, UInt16.toNat_ofNat', UInt16.toNat_ofNat',
      Nat.mod_eq_of_lt hlow, Nat.mod_eq_of_lt hhigh, UInt16.toNat_one]
    omega
  have hzero : UInt16.ofNat high - UInt16.ofNat low + 1 = 0 ↔
      (high + 65536 - low + 1) % 65536 = 0 := by
    rw [← UInt16.toNat_inj, hwidth]
    rfl
  rw [rangeValue, ← UInt16.toNat_inj, UInt16.toNat_ofNat', Nat.mod_mod]
  split
  next hall =>
    rw [hzero.1 hall, Nat.mod_zero, UInt16.toNat_add, UInt16.toNat_ofNat', UInt16.toNat_ofNat',
      Nat.mod_eq_of_lt hlow, Nat.mod_eq_of_lt hs, Nat.add_comm]
  next =>
    rw [UInt16.toNat_add, UInt16.toNat_mod, hwidth, UInt16.toNat_ofNat', UInt16.toNat_ofNat',
      Nat.mod_eq_of_lt hlow, Nat.mod_eq_of_lt hs, Nat.add_comm]

theorem randomRange_conducted : Conducted t .randomRange := by
  refine .last ?_
  simp only [body, randomRange, bind_assoc]
  -- the width of the range
  let width (u : View) : ℕ := (u.word intB + 65536 - u.word intA + 1) % 65536
  have hwidth (u : View) : width u = ((u.word intB + 65536 - u.word intA) % 65536 + 1) % 65536 :=
    (Nat.mod_add_mod _ _ _).symm
  let same (u v : View) : Prop := v.word intA = u.word intA ∧ v.word seed = u.word seed
  refine .exec (Q := fun _ u v => same u v ∧ (v.zp intB).toNat = width u % 256 ∧
    (v.zp (intB + 1)).toNat = (u.word intB + 65536 - u.word intA) % 65536 / 256 ∧
    v.zero = decide (v.zp intB = 0)) rfl (fun _ u v huv => ?_) ?_
  · subst huv
    have := (u.zp intA).toNat_lt
    have := (u.zp intB).toNat_lt
    have := (u.zp (intA + 1)).toNat_lt
    have := (u.zp (intB + 1)).toNat_lt
    refine ⟨_, rfl, ⟨rfl, rfl⟩, ?_, ?_, rfl⟩
    · rw [hwidth, View.word, View.word]
      simp
      omega
    · have hother : intA + 1 ≠ intB := by decide
      by_cases hborrow : 256 ≤ (u.zp intB).toNat + (255 - (u.zp intA).toNat) + 1 <;>
        simp [View.word, hborrow, Function.update_of_ne hother] <;> omega
  refine .label (fun _ u v => same u v ∧ v.word intB = width u) fun skip => ?_
  refine .branch (Q := fun _ u v => same u v ∧ v.zp intB = 0 ∧ (v.zp intB).toNat = width u % 256 ∧
    (v.zp (intB + 1)).toNat = (u.word intB + 65536 - u.word intA) % 65536 /
      256) (fun _ u v hv htaken => ?_) (fun _ u v hv hskipped => ?_) ?_
  · obtain ⟨hsame, hlow, hhigh, hzero⟩ := hv
    have hmore : v.zp intB ≠ 0 := by simpa [View.takes?, hzero] using htaken
    refine ⟨hsame, ?_⟩
    rw [Ne, eq_zero_iff, hlow] at hmore
    rw [View.word, hlow, hhigh]
    have := hwidth u
    omega
  · obtain ⟨hsame, hlow, hhigh, hzero⟩ := hv
    exact ⟨hsame, by simpa [View.takes?, hzero] using hskipped, hlow, hhigh⟩
  refine .exec (Q := fun _ u v => same u v ∧ v.word intB = width u)
    rfl (fun _ u v hv => ?_) (.bind ?_)
  · obtain ⟨hsame, hwrap, hlow, hhigh⟩ := hv
    refine ⟨_, rfl, hsame, ?_⟩
    show (v.zp intB).toNat + 256 * (v.zp (intB + 1) + 1).toNat = _
    rw [eq_zero_iff, hlow] at hwrap
    rw [hlow, UInt8.toNat_add, hhigh, UInt8.toNat_one]
    have := hwidth u
    omega
  -- the next state takes the place of the lower end
  refine .exec (Q := fun _ u v => same u v ∧ v.word intB = width u ∧ v.word work = u.word intA)
    rfl (fun _ u v hv => ?_) ?_
  · obtain ⟨hsame, hwidth⟩ := hv
    exact ⟨_, rfl, hsame, hwidth, hsame.1⟩
  refine .call (Q := fun _ u v => seedOf v = nextSeed (seedOf u) ∧
    (v.a = v.zp seed ∧ v.x = v.zp (seed + 1)) ∧ v.word intB = width u ∧
    v.word work = u.word intA) (by decide) (fun _ _ _ _ _ =>
      trivial) (fun _ u v b w hv hkeeps hw => ?_) ?_
  · obtain ⟨⟨-, hseed⟩, hwidth, hlow⟩ := hv
    obtain ⟨hreturns, hnext⟩ := hw
    have hkept (z : UInt8) (hz : z ∉ word seed) (hz' : z + 1 ∉ word seed) : w.word z = v.word z :=
      View.word_congr (kept hkeeps hz) (kept hkeeps hz')
    refine ⟨hnext.trans (congrArg (fun n => nextSeed (UInt16.ofNat n)) hseed), hreturns, ?_, ?_⟩
    · exact (hkept intB (by decide) (by decide)).trans hwidth
    · exact (hkept work (by decide) (by decide)).trans hlow
  refine .exec (Q := fun _ u v => seedOf v = nextSeed (seedOf u) ∧ v.word intA = v.word seed ∧
    v.word intB = width u ∧ v.word work = u.word intA) rfl (fun _ u v hv => ?_) ?_
  · obtain ⟨hnext, ⟨ha, hx⟩, hrest⟩ := hv
    refine ⟨_, rfl, hnext, ?_, hrest⟩
    show v.a.toNat + 256 * v.x.toNat = v.word seed
    rw [ha, hx, View.word]
  refine .call (Q := fun _ u v => seedOf v = nextSeed (seedOf u) ∧
    v.word intRemainder = (nextSeed (seedOf u)).toNat % width u ∧
    v.word work = u.word intA) (by decide) (fun _ _ _ _ _ =>
      trivial) (fun _ u v b w hv hkeeps hw => ?_) ?_
  · obtain ⟨hnext, hstate, hwidth, hlow⟩ := hv
    obtain ⟨-, -, hremainder⟩ := hw
    have hkept (z : UInt8) (hz : z ∉ word intR ++ word intRemainder)
        (hz' : z + 1 ∉ word intR ++ word intRemainder) :
        w.word z = v.word z := View.word_congr (kept hkeeps hz) (kept hkeeps hz')
    refine ⟨?_, ?_, (hkept work (by decide) (by decide)).trans hlow⟩
    · rw [← hnext]
      exact congrArg UInt16.ofNat (hkept seed (by decide) (by decide))
    · refine hremainder.trans ?_
      show v.word intA % v.word intB = _
      rw [hstate, hwidth, ← hnext, seedOf, UInt16.toNat_ofNat', Nat.mod_eq_of_lt (v.word_lt seed)]
  refine .run (Q := fun _ u v => seedOf v = nextSeed (seedOf u) ∧
    v.word intR = ((nextSeed (seedOf u)).toNat % width u + u.word intA) % 65536)
      rfl (fun _ u v hv => ?_) ?_
  · obtain ⟨hnext, hremainder, hlow⟩ := hv
    obtain ⟨w, hexec, hsum, -⟩ :=
      plus_word v (x := intR) (y := intRemainder) (z := work) (by decide) (by decide)
    have hframe := execAll_frame hexec rfl
    refine ⟨w, hexec, ?_, by rw [hsum, hremainder, hlow]⟩
    rw [← hnext]
    exact congrArg UInt16.ofNat (hframe.word (by decide) (by decide))
  refine .exec (Q := fun _ u v => drawsFromRange u v)
    rfl (fun _ u v hv => ⟨_, rfl, ⟨rfl, rfl⟩, hv.1, ?_⟩)
    (.rts (fun _ _ _ hv => hv) (.done (by decide) _))
  have hvalue := rangeValue_word (nextSeed (seedOf u)).toNat_lt (u.word_lt intA) (u.word_lt intB)
  rw [UInt16.ofNat_toNat] at hvalue
  exact (congrArg UInt16.ofNat hv.2).trans hvalue.symm

/-! ### Numbers in their range -/

/-- What a word is read as, when the numbers from `base` on have a word each. -/
def reading (base : ℤ) (n : UInt16) : ℤ := base + (n.toNat - base) % 65536

theorem reading_zero (n : UInt16) : reading 0 n = n.toNat := by
  have := n.toNat_lt
  rw [reading]
  omega

theorem reading_signed (n : UInt16) : reading (-32768) n = (n.toNat : ℤ).bmod 65536 := by
  have := n.toNat_lt
  rw [reading, Int.bmod_def]
  split <;> omega

/-- The number that is drawn lies in the range, however words are read. -/
theorem rangeValue_mem (base : ℤ) (s low high : UInt16) (h : reading base low ≤ reading base high) :
    reading base low ≤ reading base (rangeValue s low high) ∧
      reading base (rangeValue s low high) ≤ reading base high := by
  have hvalue := rangeValue_word s.toNat_lt low.toNat_lt high.toNat_lt
  simp only [UInt16.ofNat_toNat] at hvalue
  have hs := s.toNat_lt
  have hlow := low.toNat_lt
  have hhigh := high.toNat_lt
  rw [hvalue]
  rw [reading, reading] at h
  simp only [reading, UInt16.toNat_ofNat']
  generalize hwidth : (high.toNat + 65536 - low.toNat + 1) % 65536 = width
  -- a width of zero is that of the range of all numbers
  have hoffset : ((s.toNat % width : ℕ) : ℤ) ≤
      (high.toNat - base) % 65536 - (low.toNat - base) % 65536 := by
    rcases Nat.eq_zero_or_pos width with rfl | hpos
    · omega
    · have := Nat.mod_lt s.toNat hpos
      omega
  omega

end Breadbin.Routine
