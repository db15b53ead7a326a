import Breadbin.Proofs.Lowering.Functions
import Breadbin.Proofs.Lowering.Statements

/-!
# Counting loops

A counting loop runs its body once for every number from the first one on, as long as the last one
is not passed, and leaves the last of them in its counter.  The exit is tested before the step, so
that the counter never wraps around.
-/

set_option synthInstance.maxSize 100000
set_option synthInstance.maxHeartbeats 100000

namespace Breadbin

/-! ## The numbers of a loop -/

/-- The numbers from `first` on in steps of `unit`, upwards or downwards, while they are not past
`last`. -/
def counted (down : Bool) (unit : ℕ) (first last : ℤ) : List ℤ :=
  if (if down then first < last else last < first) then []
  else (List.range ((last - first).natAbs / unit + 1)).map fun j : ℕ =>
    if down then first - unit * j else first + unit * j

section

variable {down : Bool} {unit : ℕ} {first last : ℤ}

/-- Nothing is counted when the first number is past the last one. -/
theorem counted_past (h : if down then first < last else last < first) :
    counted down unit first last = [] := if_pos h

/-- Only the first number is counted when less than one step remains. -/
theorem counted_near (h : ¬if down then first < last else last < first)
    (hnear : (last - first).natAbs < unit) :
    counted down unit first last = [first] := by
  rw [counted, if_neg h, Nat.div_eq_of_lt hnear]
  cases down <;> simp

/-- Otherwise the rest is counted from the next number on. -/
theorem counted_far (h : ¬if down then first < last else last < first) (hunit : 0 < unit)
    (hfar : unit ≤ (last - first).natAbs) : counted down unit first last =
      first :: counted down unit (if down then first - unit else first + unit) last := by
  have hnext : ¬if down then (if down then first - unit else first + unit) < last
      else last < (if down then first - unit else first + unit) := by
    cases down <;> simp at h ⊢ <;> omega
  have hless : (last - (if down then first - unit else first + unit)).natAbs =
      (last - first).natAbs - unit := by
    cases down <;> simp at h ⊢ <;> omega
  rw [counted, if_neg h, counted, if_neg hnext, hless, Nat.div_eq_sub_div hunit hfar,
    List.range_succ_eq_map, List.map_cons, List.map_map]
  congr 1
  · cases down <;> simp
  · refine List.map_congr_left fun j _ => ?_
    cases down <;> simp <;> ring

end

/-- How far one step of a loop goes: 1 for integers, 1.0 for fixed-point numbers. -/
def Kind.unit (k : Kind) : ℕ := if k = .fixed then 16 else 1

/-- The number that the bits of a counter stand for; fixed-point numbers are counted in
sixteenths. -/
def Kind.number (k : Kind) (bits : UInt16) : ℤ :=
  if k.isSigned then (bits.toNat : ℤ).bmod k.modulus else bits.toNat

/-- The bits behind a step. -/
def Kind.stepped (k : Kind) (down : Bool) (bits : UInt16) : UInt16 :=
  if down then bits - UInt16.ofNat k.unit else bits + UInt16.ofNat k.unit

namespace Kind

variable {k : Kind} {m n : UInt16} {down : Bool}

/-- Bits of which only as many are used as the kind has. -/
def Holdable (k : Kind) (bits : UInt16) : Prop := k.isWide = false → bits.toNat < 256

theorem unit_pos (k : Kind) : 0 < k.unit := by
  unfold unit
  split <;> decide

/-- The smallest number of a kind. -/
def bottom (k : Kind) : ℤ := if k.isSigned then -(k.modulus / 2 : ℕ) else 0

theorem modulus_cases (k : Kind) :
    k.modulus = 256 ∧ k.isWide = false ∨ k.modulus = 65536 ∧ k.isWide = true := by
  cases h : k.isWide with
  | true => exact .inr ⟨modulus_wide h, rfl⟩
  | false => exact .inl ⟨modulus_narrow h, rfl⟩

theorem number_bounds (hm : k.Holdable m) :
    k.bottom ≤ k.number m ∧ k.number m < k.bottom + k.modulus := by
  unfold Holdable at hm
  have := m.toNat_lt
  have hlow := Int.le_bmod (x := m.toNat) (m := k.modulus)
  have hhigh := Int.bmod_lt (x := m.toNat) (m := k.modulus)
  unfold number bottom
  rcases k.modulus_cases with ⟨hmod, hwide⟩ | ⟨hmod, hwide⟩ <;> rw [hmod] at hlow hhigh ⊢ <;>
    simp only [hwide, forall_const] at hm <;> split <;> omega

theorem number_mod (k : Kind) (m : UInt16) : k.number m % k.modulus = m.toNat % k.modulus := by
  unfold number
  split
  · exact Int.bmod_emod
  · rfl

/-- Numbers of a kind that agree but for multiples of the modulus are the same. -/
theorem eq_of_mod {i j : ℤ} (hi : k.bottom ≤ i ∧ i < k.bottom + k.modulus)
    (hj : k.bottom ≤ j ∧ j < k.bottom + k.modulus) (h : i % k.modulus = j % k.modulus) : i = j := by
  rcases k.modulus_cases with ⟨hmod, -⟩ | ⟨hmod, -⟩ <;> rw [hmod] at hi hj h <;> omega

/-- A number between two others is that of all bits that agree with it but for multiples of the
modulus. -/
theorem number_eq {i : ℤ} {b : UInt16} (hm : k.Holdable m) (hn : k.Holdable n) (hb : k.Holdable b)
    (hlow : k.number m ≤ i) (hhigh : i ≤ k.number n)
    (h : (b.toNat : ℤ) % k.modulus = i % k.modulus) : k.number b = i := by
  have hm := (number_bounds hm).1
  have hn := (number_bounds hn).2
  exact eq_of_mod (number_bounds hb) ⟨by omega, by omega⟩ ((k.number_mod b).trans h)

/-- Different bits stand for different numbers. -/
theorem number_inj (hm : k.Holdable m) (hn : k.Holdable n) : k.number m = k.number n ↔ m = n := by
  refine ⟨fun h => ?_, fun h => congrArg k.number h⟩
  have hmod := (k.number_mod m).symm.trans
    ((congrArg (· % (k.modulus : ℤ)) h).trans (k.number_mod n))
  have := m.toNat_lt
  have := n.toNat_lt
  unfold Holdable at hm hn
  rw [← UInt16.toNat_inj]
  rcases k.modulus_cases with ⟨hmodulus, hwide⟩ | ⟨hmodulus, hwide⟩ <;> rw [hmodulus] at hmod <;>
    simp only [hwide, forall_const] at hm hn <;> omega

/-- The difference of two words in order is that of their numbers. -/
theorem toNat_sub_number (hwide : k.isWide = true) (h : k.number m ≤ k.number n) :
    ((n - m).toNat : ℤ) = k.number n - k.number m := by
  have hm := k.number_mod m
  have hn := k.number_mod n
  have hm' := (number_bounds (m := m) (k := k) fun h => by rw [hwide] at h; cases h).1
  have hn' := (number_bounds (m := n) (k := k) fun h => by rw [hwide] at h; cases h).2
  have := m.toNat_lt
  have := n.toNat_lt
  rw [modulus_wide hwide] at hm hn hn'
  rw [UInt16.toNat_sub]
  omega

/-- As long as a step remains up to the last number, a step leads to the next one. -/
theorem number_stepped (hm : k.Holdable m) (hn : k.Holdable n) {b : UInt16} (hb : k.Holdable b)
    (hstepped : b.toNat % k.modulus = (k.stepped down m).toNat % k.modulus)
    (hpast : ¬if down then k.number m < k.number n else k.number n < k.number m)
    (hfar : k.unit ≤ (k.number n - k.number m).natAbs) :
    k.number b = if down then k.number m - k.unit else k.number m + k.unit := by
  have hunit : k.unit = 1 ∨ k.unit = 16 := by unfold unit; split <;> simp
  have hmod := k.number_mod m
  have := m.toNat_lt
  unfold stepped at hstepped
  cases down with
  | true =>
    simp only [if_true, UInt16.toNat_sub, UInt16.toNat_ofNat'] at hstepped hpast ⊢
    refine number_eq hn hm hb (by omega) (by omega) ?_
    rcases k.modulus_cases with ⟨hmodulus, -⟩ | ⟨hmodulus, -⟩ <;>
      rw [hmodulus] at hmod hstepped ⊢ <;> omega
  | false =>
    simp only [Bool.false_eq_true,
      if_false, UInt16.toNat_add, UInt16.toNat_ofNat'] at hstepped hpast ⊢
    refine number_eq hm hn hb (by omega) (by omega) ?_
    rcases k.modulus_cases with ⟨hmodulus, -⟩ | ⟨hmodulus,
      -⟩ <;> rw [hmodulus] at hmod hstepped ⊢ <;> omega

end Kind

/-! ## Steps -/

namespace Machine

open Assembly

/-- The stack and the zero page are the same. -/
structure View.Steady (v w : View) : Prop where
  sp : w.sp = v.sp
  stack : w.stack = v.stack
  zp : w.zp = v.zp

namespace View

variable {u v w : View}

theorem Steady.refl (v : View) : v.Steady v := ⟨rfl, rfl, rfl⟩

theorem Steady.trans (h : u.Steady v) (h' : v.Steady w) : u.Steady w :=
  ⟨h'.sp.trans h.sp, h'.stack.trans h.stack, h'.zp.trans h.zp⟩

theorem Frame.steady (h : v.Frame 0 [] w) : v.Steady w :=
  ⟨h.sp, funext fun i => h.stack i (Nat.zero_le _), funext fun i => h.zp i List.not_mem_nil⟩

theorem storeAt_steady (v : View) {address : UInt16} (wide : Bool) (h : mainBase ≤ address.toNat)
    (hfits : address.toNat + width wide ≤ 0x10000) : v.Steady (v.storeAt address wide) := by
  cases wide with
  | true =>
    have hnext : (address + 1).toNat = address.toNat + 1 := toNat_next (Nat.lt_of_succ_le hfits)
    simp only [storeAt, if_true]
    rw [write_main _ _ (by omega), write_main _ _ h]
    exact ⟨rfl, rfl, rfl⟩
  | false =>
    simp only [storeAt, Bool.false_eq_true, if_false]
    rw [write_main _ _ h]
    exact ⟨rfl, rfl, rfl⟩

end View

/-- A byte behind the stack page that is no part of the code is counted up or down. -/
theorem LinkedCode.Installed.bump {code : LinkedCode} {a b : ℕ} {v : View}
    {address : UInt16} (down : Bool)
    (h : code.Installed a [.instr (if down then .dec else .inc) (.absolute (.fixed address))] b)
    (hmain : mainBase ≤ address.toNat) (hfree : ¬code.Covers address.toNat) :
    ∃ w, code.Reaches 1 a v b w ∧ v.Steady w ∧
      w.main = Function.update v.main address
        (if down then v.main address - 1 else v.main address + 1) ∧
      w.zero = decide (w.main address = 0) := by
  let n := if down then v.main address - 1 else v.main address + 1
  have hreaches : code.Reaches 1 a v b ((v.poke address n).flags n) := by
    obtain ⟨op, known, hcontains, rfl, hfits⟩ := h.instr rfl
    refine reaches_of_step hcontains (by simp) fun c hc => ?_
    obtain ⟨cycles, d, hstep, hd, hpc, hread⟩ := hc.execute known hcontains
    have hmemory := effectiveAddress hd hread hfits (code.address?_fixed v address)
    have hold : d.read address = v.main address := hd.main address hmain
    have hexecute : d.execute ⟨op, if down then .dec else .inc, Mode.absolute, cycles⟩ c.pc =
        ({ d.write address n with p := withValue d.p n }, none) := by
      have hmodify (g : UInt8 → UInt8 → UInt8 × UInt8) (hg : g d.p (v.main address) = (n, d.p)) :
          d.modify .absolute c.pc g = { d.write address n with p := withValue d.p n } := by
        have haddress : d.effectiveAddress .absolute c.pc = address := hmemory
        simp only [Cpu.modify, reduceCtorEq, if_false, haddress, hold, hg]
        rfl
      cases down with
      | true => exact congrArg (·, none) (hmodify _ rfl)
      | false => exact congrArg (·, none) (hmodify _ rfl)
    exact ⟨_, hstep.trans hexecute, (hd.poke hmain n).flags n, hpc,
      (hc.intact.poke hfree n).of_main rfl rfl rfl⟩
  refine ⟨_, hreaches, ⟨rfl, rfl, rfl⟩, rfl, ?_⟩
  show (n == 0) = decide (Function.update v.main address n address = 0)
  rw [Function.update_self]
  rfl

end Machine

namespace Lowering

open Assembly Machine

variable {p : Program} {s : Emission} {k : Kind} {counter bound : UInt16} {down : Bool}

/-- A counter or a bound: a value behind the stack page that is no part of the code. -/
structure Room (address : UInt16) (wide : Bool) : Prop where
  above : mainBase ≤ address.toNat
  fits : address.toNat + width wide ≤ 0x10000

/-- What a step does: it changes the counter. -/
def Steps (counter : UInt16) (k : Kind) (down : Bool) : Deed :=
  fun code a b => code.Spares counter k.isWide → ∀ v,
  ∃ w, code.Reaches 0 a v b w ∧ v.Steady w ∧
    w.main = Contents.set v.main counter k.isWide
      (k.stepped down (Contents.get v.main counter k.isWide))

/-- Bytes are counted in place. -/
theorem step_narrow (hroom : Room counter k.isWide) (hwide : k.isWide = false)
    (hfixed : k ≠ .fixed) :
    Does (step (.fixed counter) k down) p s (Steps counter k down) := by
  have hact : step (.fixed counter) k down =
      mem (if down then .dec else .inc) (.fixed counter) := by
    simp only [step, hfixed, hwide, if_false, Bool.not_false, if_true]
  rw [hact]
  refine (Does.straight (mem (if down then .dec else .inc) (.fixed counter))).mono
    fun code a b h hspares v => ?_
  obtain ⟨w, hreaches, hsteady, hmain, -⟩ :=
    LinkedCode.Installed.bump (v := v) down h hroom.above (hspares counter (.inl rfl))
  refine ⟨w, hreaches.mono (Nat.zero_le 1), hsteady, hmain.trans ?_⟩
  rw [hwide]
  simp only [Contents.set, Contents.get, Kind.stepped, Kind.unit, hfixed,
    Bool.false_eq_true, if_false]
  cases down <;> simp

/-- A step of a word by one changes the high byte when the low one wraps around. -/
theorem step_bytes (down : Bool) (lo hi : UInt8) :
    (if down then Cpu.wordOf lo hi - 1 else Cpu.wordOf lo hi + 1).toUInt8 =
      (if down then lo - 1 else lo + 1) ∧
    ((if down then Cpu.wordOf lo hi - 1 else Cpu.wordOf lo hi + 1) >>> 8).toUInt8 =
      if (if down then lo else lo + 1) = 0 then (if down then hi - 1 else hi + 1) else hi := by
  have := lo.toNat_lt
  have := hi.toNat_lt
  have hhigh (n : UInt16) : (n >>> 8).toUInt8.toNat = n.toNat / 256 % 256 := by
    rw [UInt16.toNat_toUInt8, UInt16.toNat_shiftRight, Nat.shiftRight_eq_div_pow]
    rfl
  have hword := LinkedCode.toNat_wordOf lo hi
  rw [← UInt8.toNat_inj, ← UInt8.toNat_inj, hhigh, UInt16.toNat_toUInt8]
  cases down <;> simp only [Bool.false_eq_true, if_true, if_false, UInt16.toNat_add,
    UInt16.toNat_sub, hword, UInt16.toNat_one, UInt8.toNat_add, UInt8.toNat_sub,
    UInt8.toNat_one, ← UInt8.toNat_inj, apply_ite UInt8.toNat,
    UInt8.toNat_zero] <;> constructor <;> (try split) <;> omega

/-- The bytes of a word behind a step. -/
theorem set_stepped (hwide : k.isWide = true) (hfixed : k ≠ .fixed) (m : Contents) :
    Contents.set m counter k.isWide (k.stepped down (Contents.get m counter k.isWide)) =
      Function.update (Function.update m counter (if down then m counter - 1 else m counter + 1))
        (counter + 1)
        (if (if down then m counter else m counter + 1) = 0 then
          (if down then m (counter + 1) - 1 else m (counter + 1) + 1) else m (counter + 1)) := by
  obtain ⟨hlow, hhigh⟩ := step_bytes down (m counter) (m (counter + 1))
  have hone : UInt16.ofNat 1 = 1 := rfl
  rw [hwide]
  simp only [Contents.set, Contents.get, Kind.stepped, Kind.unit, hfixed, if_true, if_false,
    hone, hlow, hhigh]

/-- A byte at an address behind the stack page is read. -/
theorem operand?_fixed (v : View) (h : mainBase ≤ counter.toNat) :
    v.operand? (.absolute (.fixed counter)) = some (v.main counter) := by
  show (if !false && mainBase ≤ counter.toNat then some (v.main counter) else none) = _
  simp [h]

section

variable (hroom : Room counter k.isWide) (hwide : k.isWide = true) (hfixed : k ≠ .fixed)

include hroom hwide

theorem Room.above_next : mainBase ≤ (counter + 1).toNat := by
  have hfits := hroom.fits
  rw [hwide, width, if_pos rfl] at hfits
  have hnext : (counter + 1).toNat = counter.toNat + 1 := View.toNat_next (by omega)
  have := hroom.above
  omega

include hfixed

/-- Words are counted up in place, the high byte when the low one wraps around. -/
theorem step_up : Does (step (.fixed counter) k false) p s (Steps counter k false) := by
  have hact : step (.fixed counter) k false = newLabel "inc" >>= fun skip => (do
      mem .inc (.fixed counter); branchTo .bne skip;
          mem .inc (.fixed (counter + 1)); place skip) := by
    simp only [step, hfixed, hwide, if_false, Bool.not_true, Bool.false_eq_true]
    rfl
  rw [hact]
  refine (Does.label fun skip s' _ => Does.straight _).mono ?_
  rintro code a b ⟨skip, h⟩ hspares v
  obtain ⟨m₁, hlow, h⟩ := h.cons
  obtain ⟨m₂, hbranch, h⟩ := h.cons
  obtain ⟨m₃, hhigh, h⟩ := h.cons
  obtain ⟨hskip, rfl⟩ := h.bound
  obtain ⟨u, hreaches, hsteady, hmain, hzero⟩ :=
    LinkedCode.Installed.bump (v := v) false hlow hroom.above (hspares counter (.inl rfl))
  have hbyte : u.main counter = v.main counter + 1 := by
    rw [hmain]; exact Function.update_self _ _ _
  have hother : u.main (counter + 1) = v.main (counter + 1) := by
    rw [hmain]
    exact Function.update_of_ne (next_ne counter) _ _
  rw [hbyte] at hzero
  rw [set_stepped hwide hfixed]
  simp only [Bool.false_eq_true, if_false] at hmain ⊢
  by_cases hwraps : v.main counter + 1 = 0
  · have hskipped : u.takes? .bne = some false := by
      rw [View.takes?, hzero, decide_eq_true hwraps]; rfl
    obtain ⟨w, hreaches', hsteady', hmain', -⟩ :=
      LinkedCode.Installed.bump (v := u) false hhigh (hroom.above_next hwide)
      (hspares (counter + 1) (.inr ⟨hwide, rfl⟩))
    refine ⟨w, (hreaches.andThen (hbranch.branch_skipped hskip hskipped)).andThen hreaches',
      hsteady.trans hsteady', ?_⟩
    simp only [Bool.false_eq_true, if_false] at hmain'
    rw [hmain', if_pos hwraps, hother, hmain]
  · have htaken : u.takes? .bne = some true := by
      rw [View.takes?, hzero, decide_eq_false hwraps]; rfl
    refine ⟨u, hreaches.andThen (hbranch.branch_taken hskip htaken), hsteady, ?_⟩
    rw [if_neg hwraps, ← hother, hmain, Function.update_eq_self]

/-- Words are counted down in place, the high byte before the low one wraps around. -/
theorem step_down : Does (step (.fixed counter) k true) p s (Steps counter k true) := by
  have hact : step (.fixed counter) k true = newLabel "dec" >>= fun skip => (do
      mem .lda (.fixed counter); branchTo .bne skip; mem .dec (.fixed (counter + 1)); place skip
      mem .dec (.fixed counter)) := by
    simp only [step, hfixed, hwide, if_false, if_true, Bool.not_true, Bool.false_eq_true]
    rfl
  rw [hact]
  refine (Does.label fun skip s' _ => Does.straight _).mono ?_
  rintro code a b ⟨skip, h⟩ hspares v
  obtain ⟨m₁, hload, h⟩ := h.cons
  obtain ⟨m₂, hbranch, h⟩ := h.cons
  obtain ⟨m₃, hhigh, h⟩ := h.cons
  obtain ⟨hskip, hlow⟩ := h.label
  have hloaded : code.Reaches 1 a v m₁ (v.setA (v.main counter)) := hload.exec (by
    rw [View.exec, operand?_fixed v hroom.above]
    rfl)
  let u := v.setA (v.main counter)
  have hzero : u.zero = decide (v.main counter = 0) := rfl
  have hsteady : v.Steady u := ⟨rfl, rfl, rfl⟩
  rw [set_stepped hwide hfixed]
  simp only [if_true]
  by_cases hwraps : v.main counter = 0
  · have hskipped : u.takes? .bne = some false := by
      rw [View.takes?, hzero, decide_eq_true hwraps]; rfl
    obtain ⟨u', hreaches, hsteady', hmain, -⟩ :=
      LinkedCode.Installed.bump (v := u) true hhigh (hroom.above_next hwide)
      (hspares (counter + 1) (.inr ⟨hwide, rfl⟩))
    obtain ⟨w, hreaches', hsteady'', hmain', -⟩ :=
      LinkedCode.Installed.bump (v := u') true hlow hroom.above
      (hspares counter (.inl rfl))
    refine ⟨w, ((hloaded.andThen (hbranch.branch_skipped hskip hskipped)).andThen hreaches).andThen
      hreaches', (hsteady.trans hsteady').trans hsteady'', ?_⟩
    simp only [if_true] at hmain hmain'
    have hbyte : u'.main counter = v.main counter := by
      rw [hmain]
      exact Function.update_of_ne (next_ne counter).symm _ _
    rw [hmain', if_pos hwraps, hbyte, hmain, Function.update_comm (next_ne counter)]
    rfl
  · have htaken : u.takes? .bne = some true := by
      rw [View.takes?, hzero, decide_eq_false hwraps]; rfl
    obtain ⟨w, hreaches, hsteady', hmain, -⟩ :=
      LinkedCode.Installed.bump (v := u) true hlow hroom.above
      (hspares counter (.inl rfl))
    refine ⟨w, (hloaded.andThen (hbranch.branch_taken hskip htaken)).andThen hreaches,
      hsteady.trans hsteady', ?_⟩
    have hother : w.main (counter + 1) = v.main (counter + 1) := by
      rw [hmain]
      exact Function.update_of_ne (next_ne counter) _ _
    simp only [if_true] at hmain
    rw [if_neg hwraps, ← hother, hmain]
    exact (Function.update_eq_self _ _).symm

end

/-- What is added to A and X, or taken from it. -/
def addUnit (down : Bool) : Lower Unit := do
  op (if down then .sec else .clc)
  imm (if down then .sbc else .adc) 0x10
  op .tay
  op .txa
  imm (if down then .sbc else .adc) 0
  op .tax
  op .tya

instance : Straight (addUnit down) := inferInstanceAs (Straight (do
  op (if down then .sec else .clc)
  imm (if down then .sbc else .adc) 0x10
  op .tay
  op .txa
  imm (if down then .sbc else .adc) 0
  op .tax
  op .tya))

theorem addUnit_does : Does (addUnit down) p s
    (Computes 0 [] fun v w => w.value true = Kind.fixed.stepped down (v.value true)) := by
  refine (Does.straight (addUnit down)).mono fun code a b h => ?_
  refine .of_lines h (fun v => ?_) (by cases down <;> rfl)
    (by cases down <;> exact List.nil_subset _)
  have := v.a.toNat_lt
  have := v.x.toNat_lt
  cases down with
  | false =>
    refine ⟨_, rfl, ?_⟩
    rw [← UInt16.toNat_inj, View.toNat_value]
    by_cases hcarry : 256 ≤ v.a.toNat + 16 <;>
      simp [hcarry, Kind.stepped, Kind.unit, View.toNat_value, Machine.bit] <;> omega
  | true =>
    refine ⟨_, rfl, ?_⟩
    rw [← UInt16.toNat_inj, View.toNat_value]
    by_cases hcarry : 256 ≤ v.a.toNat + 239 + 1 <;>
      simp [hcarry, Kind.stepped, Kind.unit, View.toNat_value, UInt16.toNat_sub, Machine.bit] <;>
        omega

/-- Fixed-point numbers are counted in A and X. -/
theorem step_fixed (hroom : Room counter Kind.fixed.isWide) :
    Does (step (.fixed counter) .fixed down) p s (Steps counter .fixed down) := by
  have hact : step (.fixed counter) .fixed down =
      (load (.fixed counter) true >>= fun _ => addUnit down >>= fun _ =>
      store (.fixed counter) true) := by
    simp only [step, addUnit, if_true, bind_assoc]
  rw [hact]
  refine ((load_does counter true).bind fun s₁ _ => addUnit_does.bind fun s₂ _ =>
    store_does counter true).mono ?_
  rintro code a b ⟨m₁, hload, m₂, hadd, hstore⟩ hspares v
  obtain ⟨u, hpath, hu⟩ := hload v
  obtain ⟨u', hpath', hu'⟩ := hadd u
  have hsteady : v.Steady u' := hpath.frame.steady.trans hpath'.frame.steady
  have hmain : u'.main = v.main := hpath'.frame.main.trans hpath.frame.main
  refine ⟨_, (hpath.reaches.andThen hpath'.reaches).andThen (hstore hspares u'),
    hsteady.trans (u'.storeAt_steady true hroom.above hroom.fits), ?_⟩
  rw [u'.storeAt_main true hroom.above hroom.fits, hmain, hu', hu,
    v.stored_main true hroom.above hroom.fits]
  rfl

theorem step_does (hroom : Room counter k.isWide) :
    Does (step (.fixed counter) k down) p s (Steps counter k down) := by
  by_cases hfixed : k = .fixed
  · subst hfixed
    exact step_fixed hroom
  · cases hwide : k.isWide with
    | true =>
      cases down with
      | false => exact step_up hroom hwide hfixed
      | true => exact step_down hroom hwide hfixed
    | false => exact step_narrow hroom hwide hfixed

/-! ## Tests -/

/-- A place behind the stack page holds what lies there. -/
theorem Place.holds_address (hroom : Room counter k.isWide) (v : View) :
    (Place.address (.fixed counter)).Holds k.isWide (Contents.get v.main counter k.isWide) v := by
  refine ⟨v.main counter, ?_, ?_⟩
  · have hplus : (AddressRef.fixed counter).plus 0 = .fixed counter := by
      simp [AddressRef.plus, AddressRef.fixed]
    show v.operand? (.absolute ((AddressRef.fixed counter).plus 0)) = _
    rw [hplus, operand?_fixed v hroom.above]
  · cases hwide : k.isWide with
    | true =>
      rw [if_pos rfl]
      exact ⟨v.main (counter + 1), operand?_fixed v (hroom.above_next hwide), rfl⟩
    | false => rfl

/-- The numbers of the counter and of the bound are in the order of the loop. -/
def InOrder (k : Kind) (down : Bool) (m n : UInt16) : Prop :=
  ¬if down then k.number m < k.number n else k.number n < k.number m

/-- What the test behind the body does: it leaves the loop when less than a step remains. -/
def Tests (k : Kind) (counter bound : UInt16) (down : Bool) (exit : LabelId) :
    Deed := fun code a b =>
  ∀ v t, code.At exit t →
    InOrder k down (Contents.get v.main counter k.isWide) (Contents.get v.main bound k.isWide) →
    ∃ w, code.Path 0 [] a v
      (if (k.number (Contents.get v.main bound k.isWide) - k.number
        (Contents.get v.main counter k.isWide)).natAbs < k.unit
        then t else b) w

theorem holdable_get (k : Kind) (m : Contents) (address : UInt16) :
    k.Holdable (Contents.get m address k.isWide) := by
  intro hwide
  rw [hwide]
  exact (m address).toNat_lt

/-- What was put at an address is there, as far as there is room for it. -/
theorem get_set_mod (k : Kind) (m : Contents) (address n : UInt16) :
    (Contents.get (Contents.set m address k.isWide n) address k.isWide).toNat % k.modulus =
      n.toNat % k.modulus := by
  cases hwide : k.isWide with
  | true => rw [Contents.get_set m address true n fun h => Bool.noConfusion h]
  | false =>
    rw [Kind.modulus_narrow hwide]
    simp [Contents.get, Contents.set]

/-- Integers are compared for equality. -/
theorem test_integer (hcounter : Room counter k.isWide) (hbound : Room bound k.isWide)
    (hfixed : k ≠ .fixed) (exit : LabelId) :
    Does (do
        compareEqual (.address (.fixed counter)) (.address (.fixed bound)) k.isWide
        branchTo .beq exit)
      p s (Tests k counter bound down exit) := by
  refine ((compareEqual_does _ _ _).bind fun s' _ => Does.straight (branchTo .beq exit)).mono ?_
  rintro code a b ⟨m, hcompare, hbranch⟩ v t ht -
  obtain ⟨u, hpath, hzero⟩ :=
    hcompare v _ _ (Place.holds_address hcounter v) (Place.holds_address hbound v)
  have hunit : k.unit = 1 := if_neg hfixed
  have hnear : (k.number (Contents.get v.main bound k.isWide) - k.number
      (Contents.get v.main counter k.isWide)).natAbs < k.unit ↔
      Contents.get v.main counter k.isWide = Contents.get v.main bound k.isWide := by
    rw [← Kind.number_inj (holdable_get k _ _) (holdable_get k _ _), hunit]
    omega
  refine ⟨u, hpath.trans ?_⟩
  by_cases hequal : Contents.get v.main counter k.isWide = Contents.get v.main bound k.isWide
  · rw [if_pos (hnear.2 hequal)]
    exact (hbranch.branch_taken ht (by rw [View.takes?, hzero, decide_eq_true hequal])).path
  · rw [if_neg (mt hnear.1 hequal)]
    exact (hbranch.branch_skipped ht (by rw [View.takes?, hzero, decide_eq_false hequal])).path

/-- The difference of two words, the low byte in Y and the high one in A. -/
theorem execAll_difference {high low : UInt16} (hhigh : Room high true)
    (hlow : Room low true) (v : View) :
    ∃ u, LinkedCode.execAll v
      [.instr .sec .implied, .instr .lda (.absolute (.fixed high)),
        .instr .sbc (.absolute (.fixed low)), .instr .tay .implied,
          .instr .lda (.absolute (.fixed (high + 1))),
            .instr .sbc (.absolute (.fixed (low + 1)))] = some u ∧
      v.Frame 0 [] u ∧ u.zero = decide (u.a = 0) ∧
      u.y.toNat + 256 * u.a.toNat =
        (Contents.get v.main high true - Contents.get v.main low true).toNat := by
  let v₁ := v.setCarry true
  let v₂ := v₁.setA (v.main high)
  let v₃ := v₂.add (~~~(v.main low))
  let v₄ := v₃.setY v₃.a
  let v₅ := v₄.setA (v.main (high + 1))
  have habove := hhigh.above_next (k := .u16) rfl
  have habove' := hlow.above_next (k := .u16) rfl
  refine ⟨v₅.add (~~~(v.main (low + 1))), ?_, .of_eq rfl rfl rfl fun _ _ => rfl, rfl, ?_⟩
  · change LinkedCode.execAll v₁
      [.instr .lda (.absolute (.fixed high)), .instr .sbc (.absolute (.fixed low)),
        .instr .tay .implied, .instr .lda (.absolute (.fixed (high + 1))),
        .instr .sbc (.absolute (.fixed (low + 1)))] = _
    rw [execAll_reads (w := v₁) (operand?_fixed v hhigh.above) rfl rfl rfl,
      execAll_reads (w := v₂) (operand?_fixed v hlow.above) rfl rfl rfl]
    change LinkedCode.execAll v₄
      [.instr .lda (.absolute (.fixed (high + 1))), .instr .sbc (.absolute (.fixed (low + 1)))] = _
    rw [execAll_reads (w := v₄) (operand?_fixed v habove) rfl rfl rfl,
      execAll_reads (w := v₅) (operand?_fixed v habove') rfl rfl rfl]
    rfl
  · have := (v.main high).toNat_lt
    have := (v.main low).toNat_lt
    have := (v.main (high + 1)).toNat_lt
    have := (v.main (low + 1)).toNat_lt
    rw [UInt16.toNat_sub, Contents.get, Contents.get, if_pos rfl, if_pos rfl,
      LinkedCode.toNat_wordOf, LinkedCode.toNat_wordOf]
    by_cases hcarry : 255 ≤ (v.main high).toNat + (255 - (v.main low).toNat) <;>
      simp [v₅, v₄, v₃, v₂, v₁, Machine.bit, hcarry] <;> omega

/-- Fixed-point numbers are subtracted: the loop is left when their difference is less than 1.0. -/
theorem difference_does {high low : UInt16} (hhigh : Room high true) (hlow : Room low true)
    (exit : LabelId) :
    Does (newLabel "for_more" >>= fun more => (do
        op .sec; mem .lda (.fixed high); mem .sbc (.fixed low); op .tay;
          mem .lda (.fixed (high + 1))
        mem .sbc (.fixed (low + 1)); branchTo .bne more; imm .cpy 0x10;
          branchTo .bcc exit; place more)) p s
      fun code a b => ∀ v t, code.At exit t → ∃ w, code.Path 0 [] a v
        (if (Contents.get v.main high true - Contents.get v.main low true).toNat < 16 then t else b)
          w := by
  have hsubtraction (s' : Emission) : Does (do
      op .sec; mem .lda (.fixed high); mem .sbc (.fixed low); op .tay; mem .lda (.fixed (high + 1))
      mem .sbc (.fixed (low + 1))) p s' (Lines
        [.instr .sec .implied, .instr .lda (.absolute (.fixed high)),
          .instr .sbc (.absolute (.fixed low)), .instr .tay .implied,
          .instr .lda (.absolute (.fixed (high + 1))),
          .instr .sbc (.absolute (.fixed (low + 1)))]) := .straight _
  have hbranches (more : LabelId) (s' : Emission) : Does (do
      branchTo .bne more; imm .cpy 0x10; branchTo .bcc exit;
        place more) p s' (Lines [.instr .bne (.relative more), .instr .cpy (.immediate 0x10),
          .instr .bcc (.relative exit), .bound more]) := .straight _
  have hwhole (more : LabelId) (s' : Emission) := (hsubtraction s').bind fun s'' _ =>
    hbranches more s''
  simp only [bind_assoc] at hwhole
  refine (Does.label fun more s' _ => hwhole more s').mono ?_
  rintro code a b ⟨more, m₁, hsubtract, h⟩ v t ht
  obtain ⟨m₂, hmore, h⟩ := h.cons
  obtain ⟨m₃, hcompare, h⟩ := h.cons
  obtain ⟨m₄, hexit, h⟩ := h.cons
  obtain ⟨hlabel, rfl⟩ := h.bound
  obtain ⟨u, hexec, hframe, hzero, hdifference⟩ := execAll_difference hhigh hlow v
  have hpath : code.Path 0 [] a v m₁ u := ⟨hsubtract.run hexec, hframe⟩
  have := u.y.toNat_lt
  rw [← hdifference]
  by_cases hhigher : u.a = 0
  · have hskipped : u.takes? .bne = some false := by
      rw [View.takes?, hzero, decide_eq_true hhigher]; rfl
    have hpath' : code.Path 0 [] m₂ u m₃ (u.compare u.y 0x10) :=
      hcompare.path rfl rfl (List.nil_subset _)
    have htakes : (u.compare u.y 0x10).takes? .bcc = some (decide (u.y.toNat < 16)) := by
      show some (!decide (16 ≤ u.y.toNat)) = _
      rw [← decide_not, decide_eq_decide.2 Nat.not_le]
    have hvalue : u.y.toNat + 256 * u.a.toNat = u.y.toNat := by
      rw [hhigher, UInt8.toNat_zero, Nat.mul_zero, Nat.add_zero]
    rw [hvalue]
    refine ⟨u.compare u.y 0x10,
      (hpath.trans (hmore.branch_skipped hlabel hskipped).path).trans (hpath'.trans ?_)⟩
    by_cases hless : u.y.toNat < 16
    · rw [if_pos hless]
      exact (hexit.branch_taken ht (htakes.trans (congrArg some (decide_eq_true hless)))).path
    · rw [if_neg hless]
      exact (hexit.branch_skipped ht (htakes.trans (congrArg some (decide_eq_false hless)))).path
  · have htaken : u.takes? .bne = some true := by
      rw [View.takes?, hzero, decide_eq_false hhigher]; rfl
    have hpos : 0 < u.a.toNat := Nat.pos_of_ne_zero fun h => hhigher (UInt8.toNat_inj.1 h)
    rw [if_neg (by omega)]
    exact ⟨u, hpath.trans (hmore.branch_taken hlabel htaken).path⟩

theorem test_fixed (hcounter : Room counter Kind.fixed.isWide)
    (hbound : Room bound Kind.fixed.isWide) (exit : LabelId) :
    Does (fixedLastStep (.fixed counter) (.fixed bound) down exit) p s
      (Tests .fixed counter bound down exit) := by
  have hnear {m n : UInt16} (h : Kind.fixed.number m ≤ Kind.fixed.number n) :
      (n - m).toNat < 16 ↔
          (Kind.fixed.number n - Kind.fixed.number m).natAbs < Kind.fixed.unit := by
    have := Kind.toNat_sub_number rfl h
    show _ ↔ _ < 16
    omega
  cases down with
  | false =>
    refine (difference_does hbound hcounter exit).mono fun code a b h v t ht horder => ?_
    rw [← if_congr (hnear (not_lt.1 horder)) rfl rfl]
    exact h v t ht
  | true =>
    refine (difference_does hcounter hbound exit).mono fun code a b h v t ht horder => ?_
    rw [← Int.natAbs_neg, Int.neg_sub, ← if_congr (hnear (not_lt.1 horder)) rfl rfl]
    exact h v t ht

/-! ## Rounds -/

/-- Code that comes to its end from every view in which it may run, with a related view. -/
def Leads (I : View → Prop) (R : View → View → Prop) : Deed :=
  fun code a b => ∀ v, I v → ∃ w, code.Reaches 0 a v b w ∧ R v w

/-- The body of a loop: it comes to its end, or goes on with the next round. -/
def Turns (I : View → Prop) (R : View → View → Prop) (next : LabelId) : Deed :=
  fun code a b => ∀ v, I v → ∃ w t, code.Reaches 0 a v t w ∧ (t = b ∨ code.At next t) ∧ R v w

/-- The stack, the slots and the memory are the same, but for the variables of a loop. -/
structure Idle (counter bound : UInt16) (wide : Bool) (v w : View) : Prop extends v.Steady w where
  main : ∀ byte, ¬Within counter wide byte → ¬Within bound wide byte → w.main byte = v.main byte

/-- The body runs once for each of the numbers, which is then in the counter, and nothing else is
done in between; at the end the code comes to `b`. -/
def Rounds (code : LinkedCode) (R : View → View → Prop) (k : Kind)
    (counter bound : UInt16) (top b : ℕ) :
    List ℤ → ℕ → View → View → Prop
  | [], a, v, w => code.Reaches 0 a v b w ∧ Idle counter bound k.isWide v w
  | i :: is, a, v, w => ∃ u u' m, code.Reaches 0 a v top u ∧ Idle counter bound k.isWide v u ∧
    k.number (Contents.get u.main counter k.isWide) = i ∧ code.Reaches 0 top u m u' ∧ R u u' ∧
    Rounds code R k counter bound top b is m u' w

/-- What the parts of a loop do: they may run again and again, and none of them touches the bound
nor, but for the first value, the counter. -/
structure Fits (I : View → Prop) (first last body : View → View → Prop) (counter bound : UInt16)
    (wide : Bool) : Prop where
  first : ∀ v w, I v → first v w → I w
  last : ∀ v w, I v → last v w →
    I w ∧ Contents.get w.main counter wide = Contents.get v.main counter wide
  body : ∀ v w, I v → body v w →
    I w ∧ Contents.get w.main counter wide = Contents.get v.main counter wide ∧
    Contents.get w.main bound wide = Contents.get v.main bound wide
  idle : ∀ v w, I v → Idle counter bound wide v w → I w

section

variable {I : View → Prop} {F L R : View → View → Prop} {wide : Bool} {code : LinkedCode}
  {a a' b top : ℕ} {u v w : View}

theorem Idle.trans (h : Idle counter bound wide u v) (h' : Idle counter bound wide v w) :
    Idle counter bound wide u w :=
  ⟨h.toSteady.trans h'.toSteady, fun byte hc hb => (h'.main byte hc hb).trans (h.main byte hc hb)⟩

theorem Idle.of_frame (h : v.Frame 0 [] w) : Idle counter bound wide v w :=
  ⟨h.steady, fun byte _ _ => congrFun h.main byte⟩

/-- Idle code in front of the rounds. -/
theorem Rounds.lead {is : List ℤ} (h : Rounds code R k counter bound top b is a' v w)
    (hreaches : code.Reaches 0 a u a' v)
    (hidle : Idle counter bound k.isWide u v) : Rounds code R k counter bound top b is a u w := by
  cases is with
  | nil => exact ⟨hreaches.andThen h.1, hidle.trans h.2⟩
  | cons i is =>
    obtain ⟨u', u'', m, hreaches', hidle', hrest⟩ := h
    exact ⟨u', u'', m, hreaches.andThen hreaches', hidle.trans hidle', hrest⟩

/-- Once the counter is in order with the bound, the loop runs to its end. -/
theorem rounds_run {next exit again : LabelId} {m₁ m₂ m₃ : ℕ}
    (hfits : Fits I F L R counter bound k.isWide)
    (hapart : ∀ byte, Within bound k.isWide byte → ¬Within counter k.isWide byte)
    (htop : code.At again top) (hbody : Turns I R next code top m₁) (hnext : code.At next m₁)
    (htest : Tests k counter bound down exit code m₁ m₂) (hstep : Steps counter k down code m₂ m₃)
    (hspares : code.Spares counter k.isWide)
    (hjump : code.Installed m₃ [.instr .jmp (.absolute (.ofLabel again))] b)
    (hexit : code.At exit b) (v : View) (hv : I v)
    (horder : InOrder k down (Contents.get v.main counter k.isWide)
      (Contents.get v.main bound k.isWide)) :
    ∃ w, Rounds code R k counter bound top b
      (counted down k.unit (k.number (Contents.get v.main counter k.isWide))
        (k.number (Contents.get v.main bound k.isWide))) top v w ∧ I w ∧
      (counted down k.unit (k.number (Contents.get v.main counter k.isWide))
        (k.number (Contents.get v.main bound k.isWide))).getLast? =
          some (k.number (Contents.get w.main counter k.isWide)) := by
  induction hr : (k.number (Contents.get v.main bound k.isWide) - k.number
    (Contents.get v.main counter k.isWide)).natAbs
    using Nat.strong_induction_on generalizing v with
  | _ r ih =>
    -- the body runs, and the code comes to the test
    obtain ⟨u, t, hreaches, ht, hu⟩ := hbody v hv
    obtain ⟨hI, hcounter, hbound⟩ := hfits.body v u hv hu
    obtain rfl : t = m₁ := ht.elim id fun h => h.2.symm.trans hnext.2
    obtain ⟨u₁, hpath⟩ := htest u b hexit (by rw [hcounter, hbound]; exact horder)
    rw [hcounter, hbound] at hpath
    have hmain : u₁.main = u.main := hpath.frame.main
    by_cases hnear : (k.number (Contents.get v.main bound k.isWide) -
        k.number (Contents.get v.main counter k.isWide)).natAbs < k.unit
    · rw [if_pos hnear] at hpath
      rw [counted_near horder hnear]
      refine ⟨u₁, ⟨v, u, t, .refl _ _ _, ?_, rfl, hreaches, hu, hpath.reaches,
        .of_frame hpath.frame⟩, hfits.idle _ _ hI (.of_frame hpath.frame), ?_⟩
      · exact .of_frame ((View.Frame.refl v))
      · rw [hmain, hcounter]
        rfl
    · rw [if_neg hnear] at hpath
      -- the counter goes one step on, and the code jumps back to the body
      obtain ⟨w₁, hstepped, hsteady, hstored⟩ := hstep hspares u₁
      have hturn : code.Reaches 0 t u top w₁ :=
        (hpath.reaches.andThen hstepped).andThen ((hjump.jump htop).mono (Nat.zero_le 1))
      rw [hmain] at hstored
      have hidle : Idle counter bound k.isWide u w₁ :=
        ⟨hpath.frame.steady.trans hsteady,
          fun byte hbyte _ => by rw [hstored]; exact Contents.set_of_not_within _ _ _ _ hbyte⟩
      have hbound' : Contents.get w₁.main bound k.isWide = Contents.get v.main bound k.isWide := by
        rw [hstored, Contents.get_set_of_apart _ _ _ _ hapart, hbound]
      have hcounter' : k.number (Contents.get w₁.main counter k.isWide) =
          if down then k.number (Contents.get v.main counter k.isWide) - k.unit
          else k.number (Contents.get v.main counter k.isWide) + k.unit := by
        refine Kind.number_stepped (holdable_get k _ _) (holdable_get k v.main bound)
          (holdable_get k _ _) ?_ horder (not_lt.1 hnear)
        rw [hstored, get_set_mod, hcounter]
      have horder' : InOrder k down (Contents.get w₁.main counter k.isWide)
          (Contents.get w₁.main bound k.isWide) := by
        unfold InOrder at horder ⊢
        rw [hcounter', hbound']
        cases down <;> simp at horder ⊢ <;> omega
      have hless : (k.number (Contents.get w₁.main bound k.isWide) - k.number
          (Contents.get w₁.main counter k.isWide)).natAbs <
          r := by
        have := k.unit_pos
        unfold InOrder at horder
        rw [hcounter', hbound']
        cases down <;> simp at horder ⊢ <;> omega
      obtain ⟨w, hrounds, hw, hlast⟩ := ih _ hless w₁ (hfits.idle u w₁ hI hidle) horder' rfl
      rw [hcounter', hbound'] at hrounds hlast
      rw [counted_far horder k.unit_pos (not_lt.1 hnear)]
      refine ⟨w, ⟨v, u, t, .refl _ _ _, .of_frame (View.Frame.refl v), rfl, hreaches, hu,
        hrounds.lead hturn hidle⟩, hw, ?_⟩
      rw [List.getLast?_cons, hlast]
      rfl

end

theorem below_iff_number {m n : UInt16} : Below k m n ↔ k.number m < k.number n := by
  unfold Below Kind.number
  split
  · exact Iff.rfl
  · exact Int.ofNat_lt.symm

/-! ## Whole loops -/

/-- The counter of a loop is a variable that numbers can be counted in, and its bound gets the
storage at `bound`, which lies behind what is taken so far. -/
structure Countable (p : Program) (s : Emission) (id : SymbolId) (k : Kind)
    (counter bound : UInt16) : Prop where
  counts : Variable p s id k counter
  kind : k.isInteger = true ∨ k = .fixed
  taken : (counter.toNat + width k.isWide : ℤ) ≤ s.allocator.next
  reserved : ∀ name, (s.allocator.allocateHidden name (Ty.scalar k).size).2 = .ok bound

/-- What the parts of a loop do once they are lowered, in code with a property: the bounds are
evaluated, and the body goes on with the next round or comes to its end. -/
structure Parts (p : Program) (s : Emission) (k : Kind) (first last : Expr) (body : Lower Unit)
    (H : LinkedCode → Prop) (I : View → Prop) (F L R : View → View → Prop) : Prop where
  first : ∀ s', s.Stays s' → Does (lowerExpr first (.scalar k)) p s' fun code a b => H code →
    Leads I F code a b
  last : ∀ s', s.Stays s' → Does (lowerExpr last (.scalar k)) p s' fun code a b => H code →
    Leads I L code a b
  body : ∀ s' labels, s.Stays s' → s'.loops = labels :: s.loops → s'.current = s.current →
    Lowers body p s' fun code a b => H code → Turns I R labels.next code a b

/-- What a loop does: the first number is evaluated and put into the counter, then the bound is
evaluated, and the body runs once for each number that is counted.  The last of them is left in the
counter, or the first number when there is none. -/
def Counts (I : View → Prop) (F L R : View → View → Prop) (k : Kind) (counter bound : UInt16)
    (down : Bool) : Deed :=
  fun code a b => ∀ v, I v → ∃ v₁ v₂ w a₁ a₂ a₃ top,
    (code.Reaches 0 a v a₁ v₁ ∧ F v v₁) ∧
    code.Reaches 0 a₁ v₁ a₂ (v₁.storeAt counter k.isWide) ∧
    (code.Reaches 0 a₂ (v₁.storeAt counter k.isWide) a₃ v₂ ∧ L (v₁.storeAt counter k.isWide) v₂) ∧
    Rounds code R k counter bound top b
      (counted down k.unit (k.number (v₁.value k.isWide)) (k.number (v₂.value k.isWide)))
      a₃ v₂ w ∧ I w ∧
    k.number (Contents.get w.main counter k.isWide) =
      (counted down k.unit (k.number (v₁.value k.isWide))
        (k.number (v₂.value k.isWide))).getLast?.getD
        (k.number (v₁.value k.isWide))

/-- The code in front of the rounds. -/
def enter (k : Kind) (counter bound : UInt16) (first last : Expr) (down : Bool)
    (exit : LabelId) : Lower Unit :=
  lowerExpr first (.scalar k) >>= fun _ => store (.fixed counter) k.isWide >>= fun _ =>
  lowerExpr last (.scalar k) >>= fun _ => store (.fixed bound) k.isWide >>= fun _ =>
  compareLess k (.address (.fixed (if down then counter else bound)))
    (.address (.fixed (if down then bound else counter))) >>=
  fun _ => branchTo (lessBranch k) exit

/-- The test behind the body. -/
def testLast (k : Kind) (counter bound : UInt16) (down : Bool) (exit : LabelId) : Lower Unit :=
  if k = .fixed then fixedLastStep (.fixed counter) (.fixed bound) down exit
  else do
    compareEqual (.address (.fixed counter)) (.address (.fixed bound)) k.isWide
    branchTo .beq exit

/-- The rounds. -/
def turn (k : Kind) (counter bound : UInt16) (down : Bool) (labels : LoopLabels)
    (body : Lower Unit) (top : LabelId) :
    Lower Unit :=
  place top >>= fun _ => withinLoop labels body >>= fun _ => place labels.next >>= fun _ =>
  testLast k counter bound down labels.exit >>= fun _ => step (.fixed counter) k down >>= fun _ =>
  jumpTo top >>= fun _ => place labels.exit

section

variable {id : SymbolId} {first last : Expr} {body : Lower Unit}
  {H : LinkedCode → Prop} {I : View → Prop}
  {F L R : View → View → Prop}

/-- A loop is lowered piece by piece. -/
theorem perform_lowerCount (first last : Expr) (down : Bool) (body : Lower Unit)
    (h : Countable p s id k counter bound) : ∃ allocator, s.allocator.Grows allocator ∧
    perform (lowerCount id first last down body) p s =
      perform (newLabel "for_next" >>= fun next => newLabel "for_end" >>= fun exit =>
        enter k counter bound first last down exit >>= fun _ => newLabel "for_top" >>= fun top =>
          turn k counter bound down { next, exit } body top) p { s with allocator :=
  allocator } := by
  obtain ⟨sym, hsymbol, htype⟩ := h.counts.symbol
  have hkind : (sym.type.isArray || !(sym.type.kind.isInteger || sym.type.kind = .fixed)) =
      false := by
    rw [htype]
    rcases h.kind with hk | rfl
    · simp [Ty.scalar, hk]
    · rfl
  have hreserved := h.reserved (sym.name ++ Text.bytesOf ".bound")
  have hgrows := s.allocator.allocateHidden_grows (sym.name ++ Text.bytesOf ".bound") (.scalar k)
  have hbound := perform_reserveBound (p := p) sym s
  rw [htype] at hbound
  rcases hallocated : s.allocator.allocateHidden (sym.name ++ Text.bytesOf ".bound")
    (Ty.scalar k).size with ⟨a, r⟩
  rw [hallocated] at hreserved hgrows hbound
  obtain rfl : r = .ok bound := hreserved
  refine ⟨a, hgrows, ?_⟩
  unfold lowerCount
  rw [perform_read_bind, hsymbol]
  dsimp only
  rw [hkind, if_neg Bool.false_ne_true, perform_bind_ok h.counts.perform_symbolRef,
    perform_bind_ok hbound, htype]
  have hscalar : (Ty.scalar k).kind = k := rfl
  refine congrArg (fun act => perform act p _) (bind_congr fun next => bind_congr fun exit => ?_)
  simp only [hscalar, enter, turn, testLast, bind_assoc]
  cases down <;> by_cases hfixed : k = .fixed <;>
    simp only [hfixed, if_true, if_false, Bool.false_eq_true, bind_assoc]

variable {a b : ℕ} {code : LinkedCode} {v : View}

theorem Countable.room (h : Countable p s id k counter bound) : Room counter k.isWide :=
  ⟨h.counts.above, h.counts.fits⟩

/-- The bound lies behind the counter. -/
theorem Countable.behind (h : Countable p s id k counter bound) :
    counter.toNat + width k.isWide ≤ bound.toNat ∧ bound.toNat + width k.isWide ≤ 0x10000 := by
  have hsize : (Ty.scalar k).size = width k.isWide := by
    rcases h.kind with hk | rfl
    · cases k <;> first | rfl | cases hk
    · rfl
  have hreserved := h.reserved []
  have htaken := h.taken
  have hwidth : width k.isWide ≤ 2 := by unfold width; split <;> decide
  unfold Allocator.allocateHidden at hreserved
  dsimp only at hreserved
  split at hreserved
  next a address hallocate =>
    obtain ⟨-, -, hlimit, hnext, htop, rfl, -⟩ := Allocator.allocate_eq hallocate
    obtain rfl := Except.ok.inj hreserved
    have hend := s.allocator.limit.toNat_lt
    dsimp only at hlimit hnext htop
    rw [hsize, Allocator.wrap_eq (by omega) (by omega)] at hlimit
    have haddress : (UInt16.ofNat s.allocator.next.toNat).toNat = s.allocator.next.toNat :=
      UInt16.toNat_ofNat_of_lt' (by change _ < 65536; omega)
    change _ ≤ (UInt16.ofNat s.allocator.next.toNat).toNat ∧
      (UInt16.ofNat s.allocator.next.toNat).toNat + _ ≤ _
    omega
  next => cases hreserved

theorem Countable.bound_room (h : Countable p s id k counter bound) : Room bound k.isWide :=
  ⟨by have := h.behind.1; have := h.counts.above; omega, h.behind.2⟩

theorem Countable.apart (h : Countable p s id k counter bound) (byte : UInt16)
    (hbound : Within bound k.isWide byte) :
    ¬Within counter k.isWide byte := by
  have hbehind := h.behind.1
  have hfits := h.behind.2
  intro hcounter
  have hlow : bound.toNat ≤ byte.toNat := by
    rcases hbound with rfl | ⟨hwide, rfl⟩
    · exact le_rfl
    · rw [hwide, width, if_pos rfl] at hfits
      rw [View.toNat_next (by omega)]
      omega
  have hhigh : byte.toNat < counter.toNat + width k.isWide := by
    rcases hcounter with rfl | ⟨hwide, rfl⟩
    · unfold width
      split <;> omega
    · rw [hwide, width, if_pos rfl] at hbehind ⊢
      rw [View.toNat_next (by omega)]
      omega
  omega

/-- A stored value changes its own bytes only. -/
theorem Idle.stored {address : UInt16} {wide : Bool} (hroom : Room address wide)
    (haddress : address = counter ∨ address = bound) (v : View) :
    Idle counter bound wide v (v.storeAt address wide) where
  toSteady := v.storeAt_steady wide hroom.above hroom.fits
  main byte hc hb := by
    rw [v.storeAt_main wide hroom.above hroom.fits]
    exact Contents.set_of_not_within _ _ _ _ (by rcases haddress with rfl | rfl <;> assumption)

theorem get_storeAt {address : UInt16} (hroom : Room address k.isWide) (v : View) :
    Contents.get (v.storeAt address k.isWide).main address k.isWide = v.value k.isWide := by
  rw [v.storeAt_main _ hroom.above hroom.fits]
  exact Contents.get_set _ _ _ _ fun hwide => by rw [hwide]; exact v.value_narrow_lt

/-- What the code in front of the rounds does: it leaves the loop when the first number is past the
bound. -/
def Enters (I : View → Prop) (F L : View → View → Prop) (k : Kind) (counter bound : UInt16)
    (down : Bool) (exit : LabelId) :
    Deed := fun code a b => ∀ v t, code.At exit t → I v → ∃ v₁ v₂ u a₁ a₂ a₃,
  (code.Reaches 0 a v a₁ v₁ ∧ F v v₁) ∧
  code.Reaches 0 a₁ v₁ a₂ (v₁.storeAt counter k.isWide) ∧
  (code.Reaches 0 a₂ (v₁.storeAt counter k.isWide) a₃ v₂ ∧ L (v₁.storeAt counter k.isWide) v₂) ∧
  Idle counter bound k.isWide v₂ u ∧ I u ∧
  Contents.get u.main counter k.isWide = v₁.value k.isWide ∧ Contents.get u.main bound k.isWide =
    v₂.value k.isWide ∧
  (InOrder k down (v₁.value k.isWide) (v₂.value k.isWide) → code.Reaches 0 a₃ v₂ b u) ∧
  (¬InOrder k down (v₁.value k.isWide) (v₂.value k.isWide) → code.Reaches 0 a₃ v₂ t u)

theorem enter_does (h : Countable p s id k counter bound)
    (hfits : Fits I F L R counter bound k.isWide)
    (hparts : Parts p s k first last body H I F L R) {s' : Emission} (hs : s.Stays s')
    (exit : LabelId) :
    Lowers (enter k counter bound first last down exit) p s' fun code a b =>
      H code → code.Spares counter k.isWide → code.Spares bound k.isWide →
        Enters I F L k counter bound down exit code a b := by
  have hfirst := (hparts.first s' hs).lowers
  have hcompare (s' : Emission) := (compareLess_does (p := p) (s := s') (k := k)
    (.address (.fixed (if down then counter else bound)))
      (.address (.fixed (if down then bound else counter)))).lowers
  refine (hfirst.bind fun s₁ hs₁ _ => (store_does counter k.isWide).lowers.bind fun s₂ hs₂ _ =>
    ((hparts.last s₂ (Path.trans hs (Path.trans hs₁ hs₂))).lowers.bind fun s₃ _ _ =>
      (store_does bound k.isWide).lowers.bind
      fun s₄ _ _ => (hcompare s₄).bind fun s₅ _ _ =>
        Lowers.straight (branchTo (lessBranch k) exit))).mono ?_
  rintro code a b ⟨a₁, hfirst, a₂, hcounter, a₃, hlast, a₄, hbound, a₅, hcompare, hbranch⟩ hH
    hspares hspares' v t ht hv
  obtain ⟨v₁, hreaches₁, hv₁⟩ := hfirst hH v hv
  have hI₁ := hfits.idle _ _ (hfits.first v v₁ hv hv₁) (Idle.stored h.room (.inl rfl) v₁)
  obtain ⟨v₂, hreaches₂, hv₂⟩ := hlast hH _ hI₁
  obtain ⟨hI₂, hkept⟩ := hfits.last _ v₂ hI₁ hv₂
  have hidle : Idle counter bound k.isWide v₂ (v₂.storeAt bound k.isWide) :=
    Idle.stored h.bound_room (.inr rfl) v₂
  have hcounter' : Contents.get (v₂.storeAt bound k.isWide).main counter k.isWide =
      v₁.value k.isWide := by
    rw [v₂.storeAt_main _ h.bound_room.above h.bound_room.fits,
        Contents.get_set_of_apart _ _ _ _ fun byte hc hb =>
      h.apart byte hb hc, hkept, get_storeAt h.room]
  have hbound' := get_storeAt h.bound_room v₂
  have hholds (address : UInt16) (hroom : Room address k.isWide) :=
    Place.holds_address hroom (v₂.storeAt bound k.isWide)
  obtain ⟨u, hpath, htakes⟩ := hcompare (v₂.storeAt bound k.isWide)
    (Contents.get (v₂.storeAt bound k.isWide).main (if down then counter else bound) k.isWide)
    (Contents.get (v₂.storeAt bound k.isWide).main (if down then bound else counter) k.isWide)
    (hholds _ (by split; exacts [h.room, h.bound_room]))
      (hholds _ (by split; exacts [h.bound_room, h.room]))
  have horder : Below k
      (Contents.get (v₂.storeAt bound k.isWide).main (if down then counter else bound) k.isWide)
      (Contents.get (v₂.storeAt bound k.isWide).main (if down then bound else counter) k.isWide) ↔
        ¬InOrder k down (v₁.value k.isWide) (v₂.value k.isWide) := by
    rw [InOrder, not_not, below_iff_number]
    cases down <;> simp [hcounter', hbound']
  have hreaches := (hbound hspares' v₂).andThen hpath.reaches
  have hidle' : Idle counter bound k.isWide v₂ u := hidle.trans (.of_frame hpath.frame)
  refine ⟨v₁, v₂, u, a₁, a₂, a₃, ⟨hreaches₁, hv₁⟩, hcounter hspares v₁, ⟨hreaches₂, hv₂⟩, hidle',
    hfits.idle _ _ hI₂ hidle',
    by rw [hpath.frame.main, hcounter'], by rw [hpath.frame.main, hbound'], fun hin =>
      ?_, fun hout => ?_⟩
  · exact hreaches.andThen
      (hbranch.branch_skipped ht (by rw [htakes, decide_eq_false (mt horder.1 (not_not.2 hin))]))
  · exact hreaches.andThen
      (hbranch.branch_taken ht (by rw [htakes, decide_eq_true (horder.2 hout)]))

instance (a b : AddressRef) (exit : LabelId) :
    Moves Emission.Level (fixedLastStep a b down exit) := by
  unfold fixedLastStep
  infer_instance

instance (exit : LabelId) : Moves Emission.Level (testLast k counter bound down exit) := by
  unfold testLast
  split <;> infer_instance

instance (r : AddressRef) : Moves Emission.Level (step r k down) := by
  unfold step
  infer_instance

theorem testLast_does (h : Countable p s id k counter bound) {s' : Emission} (exit : LabelId) :
    Does (testLast k counter bound down exit) p s' (Tests k counter bound down exit) := by
  unfold testLast
  by_cases hfixed : k = .fixed
  · subst hfixed
    exact test_fixed h.room h.bound_room exit
  · rw [if_neg hfixed]
    exact test_integer h.room h.bound_room hfixed exit

/-- What the rounds do once the counter is in order with the bound. -/
def Turning (I : View → Prop) (R : View → View → Prop) (k : Kind) (counter bound : UInt16)
    (down : Bool) : Deed :=
  fun code a b => ∀ v, I v →
    InOrder k down (Contents.get v.main counter k.isWide) (Contents.get v.main bound k.isWide) →
    ∃ w, Rounds code R k counter bound a b
        (counted down k.unit (k.number (Contents.get v.main counter k.isWide))
        (k.number (Contents.get v.main bound k.isWide))) a v w ∧ I w ∧
      (counted down k.unit (k.number (Contents.get v.main counter k.isWide))
        (k.number (Contents.get v.main bound k.isWide))).getLast? =
          some (k.number (Contents.get w.main counter k.isWide))

theorem turn_does (h : Countable p s id k counter bound)
    (hfits : Fits I F L R counter bound k.isWide)
    (hparts : Parts p s k first last body H I F L R) {s' : Emission} (hs : s.Stays s')
    (hlevel : s.Level s')
    (labels : LoopLabels) (again : LabelId) :
    Lowers (turn k counter bound down labels body again) p s' fun code a b =>
      code.At labels.exit b ∧
        (H code → code.Spares counter k.isWide → Turning I R k counter bound down code a b) := by
  have hbody {s₁ : Emission} (hs₁ : s'.Stays s₁) (hlevel₁ : s'.Level s₁) :
      Lowers (withinLoop labels body) p s₁
      fun code a b => H code → Turns I R labels.next code a b := by
    have hsame : s₁.Writes { s₁ with loops := labels :: s₁.loops } [] :=
      .of_eq rfl rfl rfl rfl rfl rfl rfl
    exact .within (hparts.body _ labels (Path.trans hs (Path.trans hs₁ hsame.toStays))
      (congrArg (labels :: ·) (hlevel₁.loops.trans hlevel.loops))
        (hlevel₁.current.trans hlevel.current))
  have hend (s₁ : Emission) : Lowers (jumpTo again >>= fun _ => place labels.exit) p s₁
      (Lines [.instr .jmp (.absolute (.ofLabel again)), .bound labels.exit]) := .straight _
  have htest (s₁ : Emission) : Lowers (testLast k counter bound down labels.exit) p s₁
      (Tests k counter bound down labels.exit) := (testLast_does h labels.exit).lowers
  have hstep (s₁ : Emission) : Lowers (step (.fixed counter) k down) p s₁ (Steps counter k down) :=
    (step_does h.room).lowers
  refine ((Lowers.straight (place again)).bind fun s₁ hs₁ hlevel₁ =>
      (hbody hs₁ hlevel₁).bind fun s₂ _ _ =>
    (Lowers.straight (place labels.next)).bind fun s₃ _ _ => (htest s₃).bind fun s₄ _ _ =>
      (hstep s₄).bind fun s₅ _ _ => hend s₅).mono ?_
  rintro code a b ⟨a₁, htop, a₂, hbody, a₃, hnext, a₄, htest, a₅, hstep, hend⟩
  obtain ⟨htop, rfl⟩ := htop.bound
  obtain ⟨hnext, rfl⟩ := hnext.bound
  obtain ⟨m, hjump, hend⟩ := hend.cons
  obtain ⟨hexit, rfl⟩ := hend.bound
  exact ⟨hexit, fun hH hspares v =>
    rounds_run hfits h.apart htop (hbody hH) hnext htest hstep hspares hjump hexit v⟩

theorem lowerCount_counts (h : Countable p s id k counter bound)
    (hfits : Fits I F L R counter bound k.isWide)
    (hparts : Parts p s k first last body H I F L R) :
    Lowers (lowerCount id first last down body) p s fun code a b =>
      H code → code.Spares counter k.isWide → code.Spares bound k.isWide →
        Counts I F L R k counter bound down code a b := by
  obtain ⟨allocator, hgrows, hperform⟩ := perform_lowerCount first last down body h
  have hreserved : s.Writes { s with allocator := allocator } [] :=
    ⟨⟨⟨.refl _, hgrows, [], rfl⟩, rfl, rfl, rfl, rfl⟩, .refl _⟩
  have hwhole : Lowers (newLabel "for_next" >>= fun next => newLabel "for_end" >>= fun exit =>
      enter k counter bound first last down exit >>= fun _ => newLabel "for_top" >>= fun top =>
        turn k counter bound down { next, exit } body top) p { s with allocator :=
          allocator } fun code a b =>
      H code → code.Spares counter k.isWide → code.Spares bound k.isWide →
          Counts I F L R k counter bound down code a b := by
    refine .label fun next s₁ hs₁ hlevel₁ => .label fun exit s₂ hs₂ hlevel₂ => ?_
    have hs : s.Stays s₂ := Path.trans hreserved.toStays (Path.trans hs₁ hs₂)
    have hlevel : s.Level s₂ :=
      ⟨hlevel₂.loops.trans hlevel₁.loops, hlevel₂.current.trans hlevel₁.current⟩
    have hturn (s₃ : Emission) (hs₃ : s₂.Stays s₃) (hlevel₃ : s₂.Level s₃) :
        Lowers (newLabel "for_top" >>= fun top =>
        turn k counter bound down { next, exit } body top) p s₃ fun code a b => code.At exit b ∧
          (H code → code.Spares counter k.isWide → Turning I R k counter bound down code a b) :=
      .label fun top s₄ hs₄ hlevel₄ => turn_does h hfits hparts (Path.trans hs (Path.trans hs₃ hs₄))
        (Path.trans hlevel (Path.trans hlevel₃ hlevel₄)) { next, exit } top
    refine ((enter_does h hfits hparts hs exit).bind hturn).mono ?_
    rintro code a b ⟨m, henter, hexit, hturn⟩ hH hspares hspares' v hv
    obtain ⟨v₁, v₂, u, a₁, a₂, a₃, hfirst, hstore, hlast, hidle, hu, hcounter, hbound, hin, hout⟩ :=
      henter hH hspares hspares' v b hexit hv
    by_cases horder : InOrder k down (v₁.value k.isWide) (v₂.value k.isWide)
    · obtain ⟨w, hrounds, hw, hend⟩ := hturn hH hspares u hu (by rwa [hcounter, hbound])
      rw [hcounter, hbound] at hrounds hend
      exact ⟨v₁, v₂, w, a₁, a₂, a₃, m, hfirst, hstore, hlast, hrounds.lead (hin horder) hidle,
        hw, by rw [hend]; rfl⟩
    · have hnone : counted down k.unit (k.number (v₁.value k.isWide))
          (k.number (v₂.value k.isWide)) = [] :=
        counted_past (not_not.1 horder)
      refine ⟨v₁, v₂, u, a₁, a₂, a₃, m, hfirst, hstore, hlast, ?_, hu, ?_⟩
      · rw [hnone]
        exact ⟨hout horder, hidle⟩
      · rw [hnone, hcounter]
        rfl
  obtain ⟨⟨s', ls, hperform', hwrites, hdeed⟩, hlevel⟩ := hwhole
  refine ⟨⟨s', ls, hperform.trans hperform', hreserved.trans hwrites, hdeed⟩, ?_⟩
  rw [hperform]
  exact ⟨hlevel.loops, hlevel.current⟩

/-- **Counting loops run their body once for every number**, whatever the bounds are, and end.  The
body is any code that leaves the counter and the bound as they are and does not leave the loop. -/
theorem loops_counted {block : Block} (head : StmtHead) (h : Countable p s id k counter bound)
    (hfits : Fits I F L R counter bound k.isWide)
    (hparts : Parts p s k first last (lowerBlock block) H I F L R) :
    Lowers (lowerStmt (.count head id first last down block)) p s fun code a b =>
      H code → code.Spares counter k.isWide → code.Spares bound k.isWide →
        Counts I F L R k counter bound down code a b := by
  unfold lowerStmt
  exact lowerCount_counts h hfits hparts

end

/-! ### The last bytes are added up -/

/-- A program with two variables. -/
def twoBytes : Program :=
  { symbols := .of [{ name := Text.bytesOf "i", type := .u8 },
    { name := Text.bytesOf "total", type := .u8 }] }

/-- The variables of the program. -/
def byteScope : Scope := fun id => if id = 1 ∨ id = 2 then some .u8 else none

/-- Their addresses. -/
def bytePlace (id : SymbolId) : UInt16 := if id = 1 then 0xC000 else 0xC001

/-- The state in which they have them. -/
def bytesPlaced : Emission :=
  { workspace := { target := .c64 }
    allocator := { Allocator.ofTarget .c64 with next := 0xC002, slots :=
      #[⟨1, [], 0xC000, 1⟩, ⟨2, [], 0xC001, 1⟩] }
    reports := .filtering (.ofLimit 0) }

/-- The loop `for i = 250 to 255: total += i`. -/
def series : Stmt :=
  let number (i : Int64) : Expr := .literal { type := .u8 } { int := i }
  .count { tag := 8 } 1 (number 250) (number 255) false
    (.of [.assign { tag := 1 } (.var { type := .u8 } 2) (.var { type := .u8 } 1) .add true] false
      .none)

theorem bytes_placed : byteScope.Placed twoBytes bytesPlaced bytePlace := by
  intro id k hid
  unfold byteScope at hid
  split at hid
  next h =>
    obtain rfl := Option.some.inj hid
    rcases h with rfl | rfl
    · exact ⟨rfl, ⟨_, rfl, rfl⟩, rfl, by decide, by decide⟩
    · exact ⟨rfl, ⟨_, rfl, rfl⟩, rfl, by decide, by decide⟩
  next => cases hid

theorem bytes_reading (m : Contents) :
    byteScope.Matches bytePlace (byteScope.reading bytePlace m) m := by
  refine Scope.matches_reading fun id hid => ?_
  unfold byteScope at hid
  split at hid <;> cases hid

/-- A bound of the loop is evaluated. -/
def Given (i : ℤ) (v w : View) : Prop := w.main = v.main ∧ ((w.value false).toNat : ℤ) = i

/-- The body adds the counter to the total. -/
def Added (v w : View) : Prop :=
  w.main = Function.update v.main 0xC001 (v.main 0xC001 + v.main 0xC000)

theorem number_given {s : Emission} {i : Int64} (hs : bytesPlaced.Stays s)
    (hi : 0 ≤ i.toInt ∧ i.toInt ≤ 255) :
    Does (lowerExpr (.literal { type := .u8 } { int := i }) (.scalar .u8))
      twoBytes s fun code a b =>
      code.Spares 0xC001 false → Leads (fun _ => True) (Given i.toInt) code a b := by
  have hscalar : (Expr.literal { type := .u8 } { int := i }).Scalar byteScope .u8 :=
    .literal rfl rfl rfl ⟨rfl, hi.1, hi.2⟩
  refine (lowerExpr_evaluates hscalar rfl rfl (bytes_placed.stays hs) (Nat.zero_le _)).mono
    fun code a b h _ v _ => ?_
  obtain ⟨w, hpath, hw⟩ := h v
  have hvalue := (hw _ (bytes_reading v.main)).toNat rfl
  refine ⟨w, hpath.reaches, hpath.frame.main, hvalue.trans ?_⟩
  show i.toInt % 256 % 256 = i.toInt
  omega

theorem sum_scalar :
    (compoundValue (.var { type := .u8 } 2) (.var { type := .u8 } 1) .add .none).Scalar
      byteScope .u8 :=
  @Expr.Scalar.binary _ _ _ _ _ _ _ (.common .u8 .u8 .u8 .u8) (.var rfl rfl rfl)
    (.var rfl rfl rfl) rfl rfl

theorem body_adds {s : Emission} {labels : LoopLabels} (hs : bytesPlaced.Stays s) :
    Lowers (lowerBlock
      (.of [.assign { tag := 1 } (.var { type := .u8 } 2) (.var { type := .u8 } 1) .add true]
        false .none))
      twoBytes s fun code a b => code.Spares 0xC001 false →
        Turns (fun _ => True) Added labels.next code a b := by
  have hvariable : Variable twoBytes s 2 .u8 0xC001 := bytes_placed.stays hs 2 .u8 rfl
  have hwritable (sym : Symbol) (hsym : twoBytes.symbol? 2 = some sym) : sym.symbolClass ≠
      .constant := by
    obtain rfl := Option.some.inj hsym
    decide
  have hassign : Does
      (lowerAssign (.var { type := .u8 } 2) (.var { type := .u8 } 1) .add true .none) twoBytes s
      fun code a b => code.Spares 0xC001 false →
          Turns (fun _ => True) Added labels.next code a b := by
    refine .after (perform_lowerAssign hvariable hwritable rfl) (.refl s) ?_
    refine ((lowerExpr_evaluates sum_scalar rfl rfl (bytes_placed.stays hs) (by decide)).bind
        fun s' _ =>
      store_does 0xC001 false).mono ?_
    rintro code a b ⟨m, hsum, hstore⟩ hspares v -
    obtain ⟨u, hpath, hu⟩ := hsum v
    refine ⟨_, b, hpath.reaches.andThen (hstore hspares u), .inl rfl, ?_⟩
    have hcounter : byteScope.reading bytePlace v.main 1 = (v.main 0xC000).toNat :=
      (bytes_reading v.main 1 .u8 rfl).eq_toNat rfl
    have htotal : byteScope.reading bytePlace v.main 2 = (v.main 0xC001).toNat :=
      (bytes_reading v.main 2 .u8 rfl).eq_toNat rfl
    have hvalue : (u.a.toNat : ℤ) =
        Kind.u8.keep (Kind.u8.keep (Kind.u8.keep (byteScope.reading bytePlace v.main 2) +
        Kind.u8.keep (byteScope.reading bytePlace v.main 1))) % 256 :=
          (hu _ (bytes_reading v.main)).toNat rfl
    change (u.a.toNat : ℤ) =
      ((byteScope.reading bytePlace v.main 2 % 256 + byteScope.reading bytePlace v.main 1 % 256) %
        256) %
      256 % 256 at hvalue
    rw [hcounter, htotal] at hvalue
    have hsum : u.a = v.main 0xC001 + v.main 0xC000 := by
      rw [← UInt8.toNat_inj, UInt8.toNat_add]
      omega
    show (u.write 0xC001 u.a).main = _
    rw [View.main_write _ (by decide), hsum, hpath.frame.main]
  exact (hassign.lowers.bind fun s' _ _ => .pure).mono fun code a b h => by
    obtain ⟨m, h, hnil⟩ := h
    obtain rfl := hnil.nil
    exact h

/-- The loop up to the largest byte adds up six numbers. -/
theorem series_counted :
    Lowers (lowerStmt series) twoBytes bytesPlaced fun code a b => code.Spares 0xC001 false →
    code.Spares 0xC000 false → code.Spares 0xC002 false →
      Counts (fun _ => True) (Given 250) (Given 255) Added .u8 0xC000 0xC002 false code a b := by
  have hreserved (name : Bytes) :
    (bytesPlaced.allocator.allocateHidden name (Ty.scalar .u8).size).2 = .ok 0xC002 := rfl
  have hfits : Fits (fun _ => True) (Given 250) (Given 255) Added 0xC000 0xC002 false := by
    refine ⟨fun _ _ _ _ => trivial, fun v w _ h => ⟨trivial, ?_⟩, fun v w _ h => ⟨trivial, ?_, ?_⟩,
      fun _ _ _ _ => trivial⟩
    · rw [h.1]
    · exact congrArg UInt8.toUInt16
        ((congrFun h 0xC000).trans (Function.update_of_ne (by decide) _ _))
    · exact congrArg UInt8.toUInt16
        ((congrFun h 0xC002).trans (Function.update_of_ne (by decide) _ _))
  exact loops_counted { tag := 8 } ⟨bytes_placed 1 .u8 rfl, .inl rfl, by decide, hreserved⟩ hfits
    ⟨fun s hs => number_given hs (by decide), fun s hs => number_given hs (by decide),
      fun s labels hs _ _ => body_adds hs⟩

end Lowering

end Breadbin
