import Breadbin.Proofs.Routine.Arithmetic

/-!
# Joining strings

A string is measured first, up to its zero.  The right operand is copied from its end, behind the
place of the left one, and only then the left operand is copied in front of it; either may be the
buffer itself, as each byte is read before the copy comes to it.
-/

namespace Breadbin.Routine

open Assembly Machine ZeroPage Writer LinkedCode

/-- The buffers end within memory, and texts of numbers fit in. -/
structure Roomy (t : Target) : Prop where
  concatenation : t.concatenationBase.toNat + Target.concatenationSize ≤ 0x10000
  conversion : t.conversionBase.toNat + t.conversionSize.toNat ≤ 0x10000
  texts : 12 ≤ t.conversionSize.toNat

/-- Bytes that are compared are equal as numbers. -/
theorem sub_beq_zero_toNat (x y : UInt8) : (x - y == 0) = decide (x.toNat = y.toNat) := by
  rw [sub_beq_zero]
  exact decide_eq_decide.2 UInt8.toNat_inj.symm

/-! ## Measuring -/

namespace Flows

variable {K : RoutineId → Conduct} {t : Target} {id : RoutineId} {α : Type} {size : Nat}
  {back : Back} {ahead : Ahead}

/-- The length of a string that is read through a pointer. -/
theorem measureOf {p : Since} {S : View → List UInt8 → Prop} {rest : Writer α} {z : UInt8}
    (hy : (K id).setsY {} = true) (hS : ∀ u s, S u s → s.length ≤ 255 ∧ 0 ∉ s)
    (hread : ∀ u v, (K id).Keeps 0 u v → p u v → ∀ s, S u s → v.y.toNat ≤ s.length →
      v.peek (v.pointer z + v.y.toUInt16) = s.getD v.y.toNat 0)
    (hp : ∀ u v w, p u v → w.zp = v.zp → w.main = v.main → p u w)
    (h : Flows K t id (size - 40) [] ahead
      0 (fun _ u v => p u v ∧ ∀ s, S u s → v.y.toNat = s.length) rest) :
    Flows K t id size back ahead 0 (fun _ u v => p u v) (Routine.measure z >>= fun _ => rest) := by
  simp only [Routine.measure, bind_assoc]
  refine .label (fun _ u v => p u v ∧ ∀ s, S u s → v.y.toNat = s.length) fun done => ?_
  refine .run (Q := fun _ u v => p u v ∧ v.y.toNat = 0)
    ?_ (fun _ u v hv => ⟨_, rfl, hp u v _ hv rfl rfl, rfl⟩) ?_
  · simpa [Straight.lines, Conduct.permits, readable] using hy
  -- the part of the string in front of Y has no zero
  let passing : Assertion := fun n u v => p u v ∧ v.y.toNat < 255 ∧ 255 - v.y.toNat ≤ n ∧ ∀ s,
    S u s → v.y.toNat ≤ s.length
  refine .renew (Q := passing) (.here fun loop => ?_) fun _ u v hv => ?_
  · refine .knowing (.read (Q := fun n u v => passing n u v ∧ ∀ s, S u s →
      v.zero = decide (s.length ≤ v.y.toNat)) rfl rfl (fun n u v hv => ?_) ?_)
    · obtain ⟨⟨hpv, hlt, hn, hlength⟩, -, hkeeps⟩ := hv
      refine ⟨_, _, rfl, rfl, ⟨hp u v _ hpv rfl rfl, hlt, hn, hlength⟩, fun s hs => ?_⟩
      show (v.peek (v.pointer z + v.y.toUInt16) == 0) = _
      rw [hread u v hkeeps hpv s hs (hlength s hs), Bool.eq_iff_iff, beq_iff_eq, decide_eq_true_eq]
      exact getD_eq_zero_iff (hS u s hs).2
    refine .branch (Q := fun n u v => passing n u v ∧ ∀ s, S u s → v.y.toNat < s.length)
      (fun n u v hv htaken => ?_) (fun n u v hv hskipped => ?_) ?_
    · obtain ⟨⟨hpv, -, -, hlength⟩, hzero⟩ := hv
      refine ⟨hpv, fun s hs => Nat.le_antisymm (hlength s hs) ?_⟩
      have hend := hzero s hs
      rw [View.takes?, Option.some.injEq] at htaken
      exact of_decide_eq_true (hend ▸ htaken)
    · refine ⟨hv.1, fun s hs => Nat.lt_of_not_le ?_⟩
      have hend := hv.2 s hs
      rw [View.takes?, Option.some.injEq] at hskipped
      exact of_decide_eq_false (hend ▸ hskipped)
    refine .run (Q := fun n u v => p u v ∧ v.y.toNat ≤ 255 ∧ 255 - v.y.toNat < n ∧ ∀ s, S u s →
      v.y.toNat ≤ s.length) ?_
      (fun n u v hv => ?_) ?_
    · simpa [Straight.lines, Conduct.permits] using hy
    · obtain ⟨⟨hpv, hlt, hn, -⟩, hlength⟩ := hv
      have hnext : (v.y + 1).toNat = v.y.toNat + 1 := by
        rw [UInt8.toNat_add, UInt8.toNat_one]
        omega
      refine ⟨_, rfl, hp u v _ hpv rfl rfl, ?_⟩
      show (v.y + 1).toNat ≤ 255 ∧ 255 - (v.y + 1).toNat < n ∧ ∀ s, S u s →
        (v.y + 1).toNat ≤ s.length
      rw [hnext]
      exact ⟨hlt, by omega, hlength⟩
    refine .run (Q := fun n u v =>
      (p u v ∧ v.y.toNat ≤ 255 ∧ 255 - v.y.toNat < n ∧ ∀ s, S u s → v.y.toNat ≤ s.length) ∧
      v.zero = decide (v.y.toNat = 255)) rfl (fun n u v hv => ?_) ?_
    · exact ⟨_, rfl, ⟨hp u v _ hv.1 rfl rfl, hv.2⟩, sub_beq_zero_toNat v.y 0xFF⟩
    refine .branchBack (Q := fun _ u v => p u v ∧ ∀ s, S u s → v.y.toNat = s.length)
      (fun n u v hv htaken => ?_) (fun n u v hv hskipped => ?_)
        (.bind (.forget (.fit h ?_) (List.nil_subset _)))
    · obtain ⟨⟨hpv, hle, hn, hlength⟩, hzero⟩ := hv
      have hne : v.y.toNat ≠ 255 := by simpa [View.takes?, hzero] using htaken
      exact ⟨255 - v.y.toNat, hn, hpv, by omega, Nat.le_refl _, hlength⟩
    · obtain ⟨⟨hpv, -, -, hlength⟩, hzero⟩ := hv
      have hend : v.y.toNat = 255 := by simpa [View.takes?, hzero] using hskipped
      refine ⟨hpv, fun s hs => Nat.le_antisymm (hlength s hs) ?_⟩
      have := (hS u s hs).1
      omega
    · omega
  · obtain ⟨hpv, hzero⟩ := hv
    exact ⟨255, hpv, by omega, by omega, fun s _ => by omega⟩

/-- The length of a string that has not been stored into. -/
theorem measure {p : Since} {rest : Writer α} {z : UInt8} (zs : List UInt8)
    (hslots : (bounds id).slots ⊆ zs) (hz : z ∉ zs)
    (hz' : z + 1 ∉ zs) (hy : (conduct t id).setsY {} = true)
    (hmain : ∀ u v, p u v → v.main = u.main)
    (hp : ∀ u v w, p u v → w.zp = v.zp → w.main = v.main → p u w)
    (h : Flows (conduct t) t id (size - 40) [] ahead
      0 (fun _ u v => p u v ∧ ∀ s, u.Spells zs (u.pointer z) s → v.y.toNat = s.length) rest) :
    Flows (conduct t) t id size back ahead 0 (fun _ u v => p u v)
      (Routine.measure z >>= fun _ => rest) := by
  refine .measureOf hy (fun u s hs => ⟨hs.1, hs.2.1⟩) (fun u v hkeeps hpv s hs hle => ?_) hp h
  have hzp (i : UInt8) (hi : i ∉ zs) : v.zp i = u.zp i := hkeeps.zp i fun hmem => hi (hslots hmem)
  have hpointer : v.pointer z = u.pointer z := by rw [View.pointer, hzp z hz, hzp _ hz']; rfl
  rw [hpointer]
  exact hs.peek hle hzp fun _ => by rw [hmain u v hpv]

end Flows

/-! ## Joining -/

/-- The bytes of an address. -/
theorem toNat_addressBytes (address : UInt16) :
    address.toUInt8.toNat + 256 * (address >>> 8).toUInt8.toNat = address.toNat := by
  have hhigh : (address >>> 8).toUInt8.toNat = address.toNat / 256 % 256 := by
    rw [UInt16.toNat_toUInt8, UInt16.toNat_shiftRight, Nat.shiftRight_eq_div_pow]
    rfl
  have := address.toNat_lt
  rw [hhigh, UInt16.toNat_toUInt8]
  omega

/-- The lengths of the operands are known, the second one cut to what there is room for. -/
structure Sized (t : Target) (u v : View) : Prop where
  room : (v.zp work).toNat + (v.zp (work + 1)).toNat ≤ 255
  lengths : ∀ s₁ s₂, Joinable t u string1 s₁ → Joinable t u string2 s₂ →
    (v.zp work).toNat = s₁.length ∧ (v.zp (work + 1)).toNat = min s₂.length (255 - s₁.length)

/-- Of the right operand what stands behind an index has been copied. -/
structure Behind (t : Target) (i : ℕ) (u v : View) : Prop extends Sized t u v where
  pointer : v.word (work + 2) = t.concatenationBase.toNat + (v.zp work).toNat
  main : ∀ s₁ s₂, Joinable t u string1 s₁ → Joinable t u string2 s₂ →
    v.main = Contents.place u.main (t.concatenationBase.toNat + s₁.length + i)
      ((s₂.take (255 - s₁.length)).drop i ++ [0])

/-- The right operand has been copied, and of the left one what stands in front of an index. -/
structure InFront (t : Target) (i : ℕ) (u v : View) : Prop extends Sized t u v where
  main : ∀ s₁ s₂, Joinable t u string1 s₁ → Joinable t u string2 s₂ →
    v.main = Contents.place (Contents.place u.main (t.concatenationBase.toNat + s₁.length)
      (s₂.take (255 - s₁.length) ++ [0])) t.concatenationBase.toNat (s₁.take i)

theorem Sized.congr {t : Target} {u v w : View} (h : Sized t u v)
    (hzp : w.zp = v.zp) : Sized t u w :=
  ⟨hzp ▸ h.room, hzp ▸ h.lengths⟩

theorem Behind.congr {t : Target} {u v w : View} {i : ℕ} (h : Behind t i u v) (hzp : w.zp = v.zp)
    (hmain : w.main = v.main) :
    Behind t i u w :=
  ⟨h.toSized.congr hzp, by rw [View.word, hzp]; exact h.pointer, hmain ▸ h.main⟩

theorem InFront.congr {t : Target} {u v w : View} {i : ℕ} (h : InFront t i u v) (hzp : w.zp = v.zp)
    (hmain : w.main = v.main) :
    InFront t i u w :=
  ⟨h.toSized.congr hzp, hmain ▸ h.main⟩

/-- What is read of the right operand has not been overwritten. -/
theorem Behind.peek {t : Target} {u v : View} {i : ℕ} (h : Behind t (i + 1) u v) (ht : Roomy t)
    (hy : v.y.toNat = i)
    (hi : i + 1 ≤ (v.zp (work + 1)).toNat) (hzp : ∀ z, z ∉ workBytes 4 → v.zp z = u.zp z)
    {s₁ s₂ : List UInt8} (h₁ : Joinable t u string1 s₁) (h₂ : Joinable t u string2 s₂) :
    v.peek (v.pointer string2 + v.y.toUInt16) = s₂.getD i 0 := by
  have hbase := ht.concatenation
  have hsize : Target.concatenationSize = 256 := rfl
  obtain ⟨hlength₁, hlength₂⟩ := h.lengths s₁ s₂ h₁ h₂
  have hroom := h.room
  have hpointer : v.pointer string2 = u.pointer string2 := by
    rw [View.pointer, hzp string2 (by decide), hzp (string2 + 1) (by decide)]
    rfl
  rw [hpointer, ← hy]
  refine h₂.1.peek (by omega) hzp fun _ => ?_
  rw [h.main s₁ s₂ h₁ h₂]
  refine Contents.place_outside _ ?_
  have hrest : ((s₂.take (255 - s₁.length)).drop (i + 1) ++ [0]).length =
      (v.zp (work + 1)).toNat - i := by
    simp only [List.length_append, List.length_drop, List.length_take,
      List.length_cons, List.length_nil]
    omega
  have hindex : v.y.toUInt16 = UInt16.ofNat i := by rw [← hy]; simp
  rw [hrest]
  rcases h₂.2 with hstart | hclear
  · rw [hstart, UInt16.toNat_add, UInt8.toNat_toUInt16]
    omega
  · have := hclear i (by omega)
    rw [hindex]
    omega

/-- What is read of the left operand has not been overwritten. -/
theorem InFront.peek {t : Target} {u v : View} {i : ℕ} (h : InFront t i u v) (ht : Roomy t)
    (hy : v.y.toNat = i)
    (hi : i < (v.zp work).toNat) (hzp : ∀ z, z ∉ workBytes 4 → v.zp z = u.zp z) {s₁ s₂ : List UInt8}
    (h₁ : Joinable t u string1 s₁) (h₂ : Joinable t u string2 s₂) :
    v.peek (v.pointer string1 + v.y.toUInt16) = s₁.getD i 0 := by
  have hbase := ht.concatenation
  have hsize : Target.concatenationSize = 256 := rfl
  obtain ⟨hlength₁, hlength₂⟩ := h.lengths s₁ s₂ h₁ h₂
  have hroom := h.room
  have hpointer : v.pointer string1 = u.pointer string1 := by
    rw [View.pointer, hzp string1 (by decide), hzp (string1 + 1) (by decide)]
    rfl
  rw [hpointer, ← hy]
  refine h₁.1.peek (by omega) hzp fun _ => ?_
  have hindex : v.y.toUInt16 = UInt16.ofNat i := by rw [← hy]; simp
  have hright : (s₂.take (255 - s₁.length) ++ [0]).length = (v.zp (work + 1)).toNat + 1 := by
    simp only [List.length_append, List.length_take, List.length_cons, List.length_nil]
    omega
  have hleft : (s₁.take i).length = i := by
    rw [List.length_take]
    omega
  rw [h.main s₁ s₂ h₁ h₂]
  rcases h₁.2 with hstart | hclear
  · have haddress : (u.pointer string1 + v.y.toUInt16).toNat = t.concatenationBase.toNat + i := by
      rw [hstart, UInt16.toNat_add, UInt8.toNat_toUInt16]
      omega
    rw [Contents.place_outside _ (.inr (by omega)), Contents.place_outside _ (.inl (by omega))]
  · have haway := hclear i (by omega)
    rw [← hindex] at haway
    rw [Contents.place_outside _ (by omega), Contents.place_outside _ (by omega)]

/-- A byte of the concatenation buffer may be stored into. -/
theorem owns_concatenation {t : Target} {address : UInt16}
    (hlow : t.concatenationBase.toNat ≤ address.toNat)
    (hhigh : address.toNat < t.concatenationBase.toNat + Target.concatenationSize) :
    (conduct t .stringConcat).Owns address :=
  ⟨_, List.mem_singleton_self _, hlow, hhigh⟩

theorem stringConcat_conducted {t : Target} (ht : Roomy t) : Conducted t .stringConcat := by
  have hbase := ht.concatenation
  have hsize : Target.concatenationSize = 256 := rfl
  have hslots {u v : View} {k : ℕ} (h : (conduct t .stringConcat).Keeps k u v) : ∀ z,
      z ∉ workBytes 4 → v.zp z = u.zp z :=
    h.zp
  refine .last ?_
  simp only [body, stringConcat, bind_assoc]
  refine .target (.weaken
    (.measure (p := fun u v => v.main = u.main) (workBytes 4) (by decide)
      (by decide) (by decide) rfl
    (fun _ _ h => h) (fun _ _ _ h _ hw => hw.trans h) ?_) fun _ u v huv => huv ▸ rfl)
  -- the length of the left operand
  let first : Since := fun u v => v.main = u.main ∧ ∀ s₁, Joinable t u string1 s₁ →
    (v.zp work).toNat = s₁.length
  refine .run (Q := fun _ u v => first u v) rfl (fun _ u v hv => ⟨_, rfl, hv.1, fun s₁ h₁ => ?_⟩) ?_
  · show (Function.update v.zp work v.y work).toNat = _
    rw [Function.update_self]
    exact hv.2 s₁ h₁.1
  refine .measure (p := first) (workBytes 4) (by decide) (by decide) (by decide)
    rfl (fun _ _ h => h.1)
    (fun u v w h hzp hmain => ⟨hmain.trans h.1, fun s₁ h₁ => hzp ▸ h.2 s₁ h₁⟩) ?_
  -- and that of the right one, if there is room
  refine .run (Q := fun _ u v => first u v ∧ ∀ s₂, Joinable t u string2 s₂ →
    (v.zp (work + 1)).toNat = s₂.length) rfl
    (fun _ u v hv => ⟨_, rfl, ⟨hv.1.1, fun s₁ h₁ => ?_⟩, fun s₂ h₂ => ?_⟩) ?_
  · show (Function.update v.zp (work + 1) v.y work).toNat = _
    rw [Function.update_of_ne (by decide)]
    exact hv.1.2 s₁ h₁
  · show (Function.update v.zp (work + 1) v.y (work + 1)).toNat = _
    rw [Function.update_self]
    exact hv.2 s₂ h₂.1
  refine .label (fun _ u v => Sized t u v ∧ v.main = u.main) fun fits => ?_
  refine .exec (Q := fun _ u v =>
      (first u v ∧ ∀ s₂, Joinable t u string2 s₂ → (v.zp (work + 1)).toNat = s₂.length) ∧
      v.a.toNat = 255 - (v.zp work).toNat ∧
      v.carry = decide ((v.zp (work + 1)).toNat ≤ v.a.toNat)) rfl
    (fun _ u v hv => ⟨_, rfl, hv, ?_, rfl⟩) ?_
  · have := (v.zp work).toNat_lt
    simp
    omega
  refine .branch (Q := fun _ u v =>
      (first u v ∧ ∀ s₂, Joinable t u string2 s₂ → (v.zp (work + 1)).toNat = s₂.length) ∧
      v.a.toNat = 255 - (v.zp work).toNat ∧ v.a.toNat < (v.zp (work + 1)).toNat)
    (fun _ u v hv htaken => ?_) (fun _ u v hv hskipped => ?_) ?_
  · obtain ⟨⟨⟨hmain, hfirst⟩, hsecond⟩, ha, hcarry⟩ := hv
    have hroom : (v.zp (work + 1)).toNat ≤ v.a.toNat := by simpa [View.takes?, hcarry] using htaken
    have := (v.zp work).toNat_lt
    refine ⟨⟨by omega, fun s₁ s₂ h₁ h₂ => ?_⟩, hmain⟩
    have := hfirst s₁ h₁
    have := hsecond s₂ h₂
    omega
  · obtain ⟨hlengths, ha, hcarry⟩ := hv
    exact ⟨hlengths, ha, by simpa [View.takes?, hcarry] using hskipped⟩
  refine .run (Q := fun _ u v => Sized t u v ∧ v.main = u.main) rfl (fun _ u v hv => ?_) (.bind ?_)
  · obtain ⟨⟨⟨hmain, hfirst⟩, hsecond⟩, ha, hless⟩ := hv
    have := (v.zp work).toNat_lt
    refine ⟨_, rfl, ⟨?_, fun s₁ s₂ h₁ h₂ => ?_⟩, hmain⟩
    · show (Function.update v.zp (work + 1) v.a work).toNat +
        (Function.update v.zp (work + 1) v.a (work + 1)).toNat ≤ 255
      rw [Function.update_of_ne (by decide), Function.update_self]
      omega
    · show (Function.update v.zp (work + 1) v.a work).toNat = _ ∧
        (Function.update v.zp (work + 1) v.a (work + 1)).toNat = _
      rw [Function.update_of_ne (by decide), Function.update_self]
      have := hfirst s₁ h₁
      have := hsecond s₂ h₂
      omega
  -- the end of the joined string
  refine .exec (Q := fun _ u v => Sized t u v ∧ v.main = u.main ∧
    v.word (work + 2) = t.concatenationBase.toNat + (v.zp work).toNat ∧
    v.y = v.zp (work + 1) ∧ v.a = 0) rfl (fun _ u v hv => ?_) ?_
  · obtain ⟨hsized, hmain⟩ := hv
    have haddress := toNat_addressBytes t.concatenationBase
    have := (v.zp work).toNat_lt
    refine ⟨_, rfl, ⟨?_, fun s₁ s₂ h₁ h₂ => ?_⟩, hmain, ?_, rfl, rfl⟩
    · exact hsized.room
    · exact hsized.lengths s₁ s₂ h₁ h₂
    · show (UInt8.ofNat (t.concatenationBase.toUInt8.toNat + (v.zp work).toNat + 0)).toNat +
        256 * (UInt8.ofNat ((t.concatenationBase >>> 8).toUInt8.toNat + 0 +
          bit (decide (256 ≤ t.concatenationBase.toUInt8.toNat + (v.zp work).toNat + 0)))).toNat =
        t.concatenationBase.toNat + (v.zp work).toNat
      have := t.concatenationBase.toUInt8.toNat_lt
      by_cases hcarry : 256 ≤ t.concatenationBase.toUInt8.toNat + (v.zp work).toNat + 0
      · rw [decide_eq_true hcarry, UInt8.toNat_ofNat', UInt8.toNat_ofNat', bit, Bool.toNat_true]
        omega
      · rw [decide_eq_false hcarry, UInt8.toNat_ofNat', UInt8.toNat_ofNat', bit, Bool.toNat_false]
        omega
  -- is written first
  refine .store (Q := fun _ u v => Behind t v.y.toNat u v ∧ v.y = v.zp (work + 1))
    rfl (fun _ u v hv => ?_) ?_
  · obtain ⟨hsized, hmain, hpointer, hy, ha⟩ := hv
    have hroom := hsized.room
    have hindex : v.y.toNat = (v.zp (work + 1)).toNat := by rw [hy]
    have haddress : (v.pointer (work + 2) + v.y.toUInt16).toNat = t.concatenationBase.toNat +
        (v.zp work).toNat + v.y.toNat := by
      rw [UInt16.toNat_add, View.toNat_pointer, hpointer, UInt8.toNat_toUInt16]
      omega
    refine ⟨_, _, rfl, rfl, owns_concatenation (by omega) (by omega),
      ⟨⟨hsized.room, hsized.lengths⟩, hpointer, fun s₁ s₂ h₁ h₂ => ?_⟩, hy⟩
    obtain ⟨hlength₁, hlength₂⟩ := hsized.lengths s₁ s₂ h₁ h₂
    show Function.update v.main _ v.a =
      Contents.place u.main (t.concatenationBase.toNat + s₁.length + v.y.toNat)
      ((s₂.take (255 - s₁.length)).drop v.y.toNat ++ [0])
    rw [List.drop_eq_nil_of_le (by rw [List.length_take]; omega), List.nil_append, ha,
      hmain, ← hlength₁, ← haddress, ← Contents.update_place_front _ rfl, Contents.place_nil]
  let copied : Assertion := fun _ u v => Behind t 0 u v
  let joined : Assertion := fun _ u v => InFront t (v.zp work).toNat u v
  refine .label copied fun left => .label joined fun done => ?_
  -- the right operand from its end
  refine .run (Q := fun _ u v => Behind t v.y.toNat u v ∧ v.y = v.zp (work + 1) ∧
    v.zero = decide (v.y.toNat = 0)) rfl
    (fun _ u v hv => ⟨_, rfl, hv.1.congr rfl rfl, hv.2, ?_⟩) ?_
  · show (v.y == 0) = decide (v.y.toNat = 0)
    rw [Bool.eq_iff_iff, beq_iff_eq, decide_eq_true_eq, eq_zero_iff]
  let copying : Assertion := fun n u v => Behind t v.y.toNat u v ∧ 1 ≤ v.y.toNat ∧
    v.y.toNat ≤ (v.zp (work + 1)).toNat ∧ v.y.toNat ≤ n
  refine .branch (Q := fun _ u v => Behind t v.y.toNat u v ∧ 1 ≤ v.y.toNat ∧
    v.y.toNat ≤ (v.zp (work + 1)).toNat)
    (fun _ u v hv htaken => ?_) (fun _ u v hv hskipped => ?_)
      (.renew (Q := copying) (.here fun right => ?_) fun _ u v hv => ?_)
  · obtain ⟨hbehind, -, hzero⟩ := hv
    have hnone : v.y.toNat = 0 := by simpa [View.takes?, hzero] using htaken
    rwa [hnone] at hbehind
  · obtain ⟨hbehind, hy, hzero⟩ := hv
    have hsome : v.y.toNat ≠ 0 := by simpa [View.takes?, hzero] using hskipped
    exact ⟨hbehind, by omega, by rw [hy]⟩
  rotate_left
  · exact ⟨v.y.toNat, hv.1, hv.2.1, hv.2.2, Nat.le_refl _⟩
  refine .run (Q := fun n u v => Behind t (v.y.toNat + 1) u v ∧
    v.y.toNat + 1 ≤ (v.zp (work + 1)).toNat ∧ v.y.toNat < n) rfl
    (fun n u v hv => ?_) ?_
  · obtain ⟨hbehind, hpos, hle, hn⟩ := hv
    have hnext : (v.y - 1).toNat + 1 = v.y.toNat := by
      rw [toNat_sub_one (k := v.y.toNat - 1) (by omega)]
      omega
    refine ⟨_, rfl, ?_⟩
    show Behind t ((v.y - 1).toNat + 1) u _ ∧ (v.y - 1).toNat + 1 ≤ (v.zp (work + 1)).toNat ∧
      (v.y - 1).toNat < n
    rw [hnext]
    exact ⟨hbehind.congr rfl rfl, hle, by omega⟩
  refine .knowing (.read
    (Q := fun n u v =>
      (Behind t (v.y.toNat + 1) u v ∧ v.y.toNat + 1 ≤ (v.zp (work + 1)).toNat ∧ v.y.toNat < n) ∧
    ∀ s₁ s₂, Joinable t u string1 s₁ → Joinable t u string2 s₂ →
      v.a = s₂.getD v.y.toNat 0) rfl rfl (fun n u v hv => ?_) ?_)
  · obtain ⟨⟨hbehind, hle, hn⟩, -, hkeeps⟩ := hv
    exact ⟨_, _, rfl, rfl, ⟨hbehind.congr rfl rfl, hle, hn⟩, fun s₁ s₂ h₁ h₂ =>
      hbehind.peek ht rfl hle (hslots hkeeps) h₁ h₂⟩
  refine .store (Q := fun n u v => Behind t v.y.toNat u v ∧
    v.y.toNat + 1 ≤ (v.zp (work + 1)).toNat ∧ v.y.toNat < n) rfl
    (fun n u v hv => ?_) ?_
  · obtain ⟨⟨hbehind, hle, hn⟩, ha⟩ := hv
    have hroom := hbehind.room
    have haddress : (v.pointer (work + 2) + v.y.toUInt16).toNat = t.concatenationBase.toNat +
        (v.zp work).toNat + v.y.toNat := by
      rw [UInt16.toNat_add, View.toNat_pointer, hbehind.pointer, UInt8.toNat_toUInt16]
      omega
    refine ⟨_, _, rfl, rfl, owns_concatenation (by omega) (by omega),
      ⟨⟨hbehind.room, hbehind.lengths⟩, hbehind.pointer, fun s₁ s₂ h₁ h₂ => ?_⟩, hle, hn⟩
    obtain ⟨hlength₁, hlength₂⟩ := hbehind.lengths s₁ s₂ h₁ h₂
    have hlt : v.y.toNat < (s₂.take (255 - s₁.length)).length := by
      rw [List.length_take]
      omega
    show Function.update v.main _ v.a =
      Contents.place u.main (t.concatenationBase.toNat + s₁.length + v.y.toNat)
      ((s₂.take (255 - s₁.length)).drop v.y.toNat ++ [0])
    rw [List.drop_eq_getElem_cons hlt, List.cons_append,
      List.getElem_take, ← List.getD_eq_getElem _ 0, ← ha s₁ s₂ h₁ h₂, hbehind.main s₁ s₂ h₁ h₂]
    rw [hlength₁] at haddress
    exact Contents.update_place_front _ haddress _
  refine .run (Q := fun n u v =>
    (Behind t v.y.toNat u v ∧ v.y.toNat + 1 ≤ (v.zp (work + 1)).toNat ∧ v.y.toNat < n) ∧
    v.zero = decide (v.y.toNat = 0)) rfl (fun n u v hv => ?_) ?_
  · obtain ⟨hbehind, hle, hn⟩ := hv
    refine ⟨_, rfl, ⟨hbehind.congr rfl rfl, hle, hn⟩, ?_⟩
    show (v.y == 0) = decide (v.y.toNat = 0)
    rw [Bool.eq_iff_iff, beq_iff_eq, decide_eq_true_eq, eq_zero_iff]
  refine .branchBack (Q := copied) (fun n u v hv htaken => ?_) (fun n u v hv hskipped => ?_)
    (.bind (.forget ?_ (List.nil_subset _)))
  · obtain ⟨⟨hbehind, hle, hn⟩, hzero⟩ := hv
    have hsome : v.y.toNat ≠ 0 := by simpa [View.takes?, hzero] using htaken
    exact ⟨v.y.toNat, hn, hbehind, by omega, by omega, Nat.le_refl _⟩
  · obtain ⟨⟨hbehind, -, -⟩, hzero⟩ := hv
    have hnone : v.y.toNat = 0 := by simpa [View.takes?, hzero] using hskipped
    rwa [hnone] at hbehind
  -- the left operand from its start
  refine .run (Q := fun _ u v => InFront t v.y.toNat u v ∧ v.y.toNat ≤ (v.zp work).toNat)
    rfl (fun _ u v hv => ?_) ?_
  · refine ⟨_, rfl, ⟨hv.toSized.congr rfl, fun s₁ s₂ h₁ h₂ => ?_⟩, Nat.zero_le _⟩
    have hmain := hv.main s₁ s₂ h₁ h₂
    rw [Nat.add_zero, List.drop_zero] at hmain
    exact hmain.trans (Contents.place_nil _).symm
  let going : Assertion := fun n u v => InFront t v.y.toNat u v ∧ v.y.toNat ≤ (v.zp work).toNat ∧
    255 - v.y.toNat ≤ n
  refine .renew (Q := going) (.here fun loop => ?_) fun _ u v hv =>
    ⟨255 - v.y.toNat, hv.1, hv.2, Nat.le_refl _⟩
  refine .run (Q := fun n u v => going n u v ∧ v.zero = decide (v.y.toNat = (v.zp work).toNat)) rfl
    (fun n u v hv => ⟨_, rfl, ⟨hv.1.congr rfl rfl, hv.2⟩, sub_beq_zero_toNat _ _⟩) ?_
  refine .branch (Q := fun n u v =>
    going n u v ∧ v.y.toNat < (v.zp work).toNat) (fun n u v hv htaken => ?_)
    (fun n u v hv hskipped => ?_) ?_
  · obtain ⟨⟨hfront, -, -⟩, hzero⟩ := hv
    have hend : v.y.toNat = (v.zp work).toNat := by simpa [View.takes?, hzero] using htaken
    show InFront t (v.zp work).toNat u v
    rwa [← hend]
  · obtain ⟨⟨hfront, hle, hn⟩, hzero⟩ := hv
    have hne : v.y.toNat ≠ (v.zp work).toNat := by simpa [View.takes?, hzero] using hskipped
    exact ⟨⟨hfront, hle, hn⟩, by omega⟩
  refine .knowing (.read (Q := fun n u v => (going n u v ∧ v.y.toNat < (v.zp work).toNat) ∧
    ∀ s₁ s₂, Joinable t u string1 s₁ → Joinable t u string2 s₂ →
      v.a = s₁.getD v.y.toNat 0) rfl rfl (fun n u v hv => ?_) ?_)
  · obtain ⟨⟨⟨hfront, hle, hn⟩, hlt⟩, -, hkeeps⟩ := hv
    exact ⟨_, _, rfl, rfl, ⟨⟨hfront.congr rfl rfl, hle, hn⟩, hlt⟩, fun s₁ s₂ h₁ h₂ =>
      hfront.peek ht rfl hlt (hslots hkeeps) h₁ h₂⟩
  refine .store (Q := fun n u v => InFront t (v.y.toNat + 1) u v ∧ v.y.toNat < (v.zp work).toNat ∧
    255 - v.y.toNat ≤ n) rfl
    (fun n u v hv => ?_) ?_
  · obtain ⟨⟨⟨hfront, -, hn⟩, hlt⟩, ha⟩ := hv
    have hroom := hfront.room
    have haddress : ((AddressRef.fixed t.concatenationBase).address + v.y.toUInt16).toNat =
        t.concatenationBase.toNat + v.y.toNat := by
      show (t.concatenationBase + v.y.toUInt16).toNat = _
      rw [UInt16.toNat_add, UInt8.toNat_toUInt16]
      omega
    refine ⟨_, _, rfl, rfl, owns_concatenation (by omega) (by omega),
      ⟨⟨hfront.room, hfront.lengths⟩, fun s₁ s₂ h₁ h₂ => ?_⟩, hlt, hn⟩
    obtain ⟨hlength₁, -⟩ := hfront.lengths s₁ s₂ h₁ h₂
    have hsome : v.y.toNat < s₁.length := by omega
    show Function.update v.main _ v.a = Contents.place _ t.concatenationBase.toNat
      (s₁.take (v.y.toNat + 1))
    rw [List.take_add_one, List.getElem?_eq_getElem hsome,
      Option.toList_some, ← List.getD_eq_getElem _ 0, ← ha s₁ s₂ h₁ h₂, hfront.main s₁ s₂ h₁ h₂]
    exact Contents.update_place_behind _ (by rw [haddress, List.length_take]; omega) _
  refine .run (Q := fun n u v => InFront t v.y.toNat u v ∧ 1 ≤ v.y.toNat ∧
    v.y.toNat ≤ (v.zp work).toNat ∧ 255 - v.y.toNat < n ∧
    v.zero = decide (v.y.toNat = 0)) rfl (fun n u v hv => ?_) ?_
  · obtain ⟨hfront, hlt, hn⟩ := hv
    have := (v.zp work).toNat_lt
    have hnext : (v.y + 1).toNat = v.y.toNat + 1 := by
      rw [UInt8.toNat_add, UInt8.toNat_one]
      omega
    refine ⟨_, rfl, ?_⟩
    show InFront t (v.y + 1).toNat u _ ∧ 1 ≤ (v.y + 1).toNat ∧ (v.y + 1).toNat ≤ (v.zp work).toNat ∧
      255 - (v.y + 1).toNat < n ∧
      (v.y + 1 == 0) = decide ((v.y + 1).toNat = 0)
    refine ⟨?_, by omega, by omega, by omega, ?_⟩
    · rw [hnext]
      exact hfront.congr rfl rfl
    · rw [Bool.eq_iff_iff, beq_iff_eq, decide_eq_true_eq, eq_zero_iff]
  refine .branchBack (Q := joined) (fun n u v hv htaken => ?_) (fun n u v hv hskipped => ?_)
    (.bind ?_)
  · obtain ⟨hfront, -, hle, hn, -⟩ := hv
    exact ⟨255 - v.y.toNat, hn, hfront, hle, Nat.le_refl _⟩
  · obtain ⟨-, hpos, -, -, hzero⟩ := hv
    have hnone : v.y.toNat = 0 := by simpa [View.takes?, hzero] using hskipped
    omega
  refine .exec (Q := fun _ u v => joined 0 u v ∧ returnsAddress t.concatenationBase v) rfl
    (fun _ u v hv => ⟨_, rfl, hv.congr rfl rfl, rfl, rfl⟩) ?_
  refine .rts (fun _ u v hv => ⟨hv.2, fun s₁ s₂ h₁ h₂ => ?_⟩) (.done (by decide) _)
  obtain ⟨hlength₁, -⟩ := hv.1.lengths s₁ s₂ h₁ h₂
  rw [hv.1.main s₁ s₂ h₁ h₂, hlength₁, List.take_length, Contents.place_place, List.take_append,
    List.take_of_length_le h₁.1.1, List.append_assoc]


end Breadbin.Routine
