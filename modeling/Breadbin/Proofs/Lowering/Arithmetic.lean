import Mathlib.Data.Int.ModEq
import Breadbin.Proofs.Lowering.Folding
import Breadbin.Proofs.Program.Evaluation
import Breadbin.Proofs.Lowering.Elements
import Breadbin.Proofs.Routine.Calls
import Breadbin.Proofs.Routine.Chance

/-!
# Arithmetic

The operations of the processor on the bits of integers and truth values, and the code of operators.
-/

/-!
## Numbers as bits

A value is held as bits that denote a number of its kind.  Operations on the bits are told in
natural numbers, and what they denote is what the operation gives for the numbers.
-/

namespace Breadbin

/-- Bits of a kind that stand for a number. -/
structure Kind.Denotes (k : Kind) (bits : UInt16) (n : ℤ) : Prop where
  fits : Conversion.FitsKind k bits
  value : Conversion.valueOfBits bits k = n

namespace Kind

variable {k : Kind} {bits bits' : UInt16} {n i : ℤ}

/-- How many values a kind of its width has. -/
def modulus (k : Kind) : ℕ := if k.isWide then 65536 else 256

theorem modulus_wide (h : k.isWide = true) : k.modulus = 65536 := if_pos h

theorem modulus_narrow (h : k.isWide = false) : k.modulus = 256 := by
  rw [modulus, h]
  rfl

/-- Integers that agree but for multiples of the modulus are kept alike. -/
theorem keep_congr (hk : k.isInteger = true) {j : ℤ} (h : i % k.modulus = j % k.modulus) :
    k.keep i = k.keep j := by
  cases k <;> first | cases hk; done | skip
  case u8 | u16 => exact h
  case i8 =>
    change i.bmod 256 = j.bmod 256
    rw [← Int.emod_bmod i, ← Int.emod_bmod j]
    exact congrArg (Int.bmod · 256) h
  case i16 =>
    change i.bmod 65536 = j.bmod 65536
    rw [← Int.emod_bmod i, ← Int.emod_bmod j]
    exact congrArg (Int.bmod · 65536) h

theorem keep_emod (hk : k.isInteger = true) (i : ℤ) : k.keep i % k.modulus = i % k.modulus := by
  cases k <;> first | cases hk; done | skip
  case u8 | u16 => exact Int.emod_emod_of_dvd _ (Int.dvd_refl _)
  case i8 | i16 => exact Int.bmod_emod

/-- The bits of an integer are read as its kind keeps them. -/
theorem valueOfBits_eq_keep (hk : k.isInteger = true) (bits : UInt16) :
    Conversion.valueOfBits bits k = k.keep bits.toNat := by
  have := bits.toNat_lt
  cases k <;> first | cases hk; done | skip
  case u16 =>
    change (bits.toNat : ℤ) = bits.toNat % 65536
    omega
  all_goals rfl

theorem valueOfBits_emod (hk : k.isIntegral = true) (bits : UInt16) :
    Conversion.valueOfBits bits k % k.modulus = bits.toNat % k.modulus := by
  by_cases hinteger : k.isInteger = true
  · rw [valueOfBits_eq_keep hinteger, keep_emod hinteger]
  · obtain rfl : k = .bool := by simpa [isIntegral, hinteger] using hk
    rw [modulus_narrow rfl]
    exact Int.emod_emod_of_dvd (bits.toNat : ℤ) (Int.dvd_refl 256)

namespace Denotes

theorem zero (hk : k.isIntegral = true) : k.Denotes 0 0 := by
  have hall : ∀ k ∈ integralKinds, Conversion.valueOfBits 0 k = 0 := by decide
  exact ⟨⟨fun _ => by decide, fun _ => by decide⟩, hall k (Kind.mem_integralKinds hk)⟩

theorem keep (h : k.Denotes bits n) (hk : k.isIntegral = true) : k.keep n = n := by
  rw [← h.value]
  by_cases hbool : k = .bool
  · subst hbool
    have := h.fits.2 rfl
    change (if (bits.toNat : ℤ) % 256 = 0 then (0 : ℤ) else 1) = (bits.toNat : ℤ) % 256
    split <;> omega
  · have hinteger : k.isInteger = true := by simpa [isIntegral, hbool] using hk
    rw [valueOfBits_eq_keep hinteger, keep_keep]

theorem emod (h : k.Denotes bits n) (hk : k.isIntegral = true) :
    n % k.modulus = bits.toNat % k.modulus := by
  rw [← h.value]
  exact valueOfBits_emod hk bits

/-- The bits are as many as the kind has. -/
theorem toNat_lt (h : k.Denotes bits n) : bits.toNat < k.modulus := by
  cases hwide : k.isWide with
  | true => exact modulus_wide hwide ▸ bits.toNat_lt
  | false => exact modulus_narrow hwide ▸ h.fits.1 hwide

/-- A number is known by its residue. -/
theorem toNat (h : k.Denotes bits n) (hk : k.isIntegral = true) :
    (bits.toNat : ℤ) = n % k.modulus := by
  rw [h.emod hk]
  exact (Int.emod_eq_of_lt (by omega) (by exact_mod_cast h.toNat_lt)).symm

theorem of_emod (hk : k.isInteger = true) (hbits : bits.toNat < k.modulus)
    (h : (bits.toNat : ℤ) % k.modulus = i % k.modulus) : k.Denotes bits (k.keep i) := by
  refine ⟨⟨fun hnarrow => by simpa [modulus, hnarrow] using hbits, fun hbool => ?_⟩, ?_⟩
  · rw [hbool] at hk
    cases hk
  · rw [valueOfBits_eq_keep hk]
    exact keep_congr hk h

theorem zero_iff (h : k.Denotes bits n) (hk : k.isIntegral = true) : bits = 0 ↔ n = 0 := by
  have hnat := h.toNat hk
  rw [← UInt16.toNat_inj, UInt16.toNat_zero]
  constructor
  · intro hzero
    obtain rfl : bits = 0 := UInt16.toNat_inj.1 hzero
    rw [← h.value]
    cases k
    case i8 => exact (Int.zero_bmod : (0 : ℤ).bmod 256 = 0)
    case i16 => exact (Int.zero_bmod : (0 : ℤ).bmod 65536 = 0)
    all_goals rfl
  · rintro rfl
    rw [Int.zero_emod] at hnat
    exact_mod_cast hnat

/-- The bits of a statement. -/
theorem boolBits (p : Prop) [Decidable p] :
    Kind.bool.Denotes (Literal.boolBits (decide p)) (truth p) := by
  by_cases hp : p
  · rw [decide_eq_true hp, truth, if_pos hp]
    exact ⟨⟨fun _ => by decide, fun _ => by decide⟩, rfl⟩
  · rw [decide_eq_false hp, truth, if_neg hp]
    exact ⟨⟨fun _ => by decide, fun _ => by decide⟩, rfl⟩

/-- A conversion keeps what the target holds. -/
theorem onBits {c : Conversion} (h : c.source.Denotes bits n) (hc : Lowering.Direct c)
    (hsource : c.source.isIntegral = true) (htarget : c.target.isIntegral = true) :
    c.target.Denotes (c.onBits bits) (c.target.keep n) := by
  by_cases hbool : c.target = .bool
  · have hkind := hc.kind
    by_cases hsame : c.source = .bool
    · have hnone : c.kind = .none := by rw [hkind, hsame, hbool]; rfl
      have hkeep := h.keep hsource
      rw [hsame] at h hkeep
      rw [hbool, hkeep, Conversion.onBits, hnone]
      exact h
    · have htoBool : c.kind = .toBool := by
        have hall : ∀ k ∈ Lowering.plainKinds, k ≠ .bool →
          Conversion.classify k .bool = .toBool := by decide
        rw [hkind, hbool]
        exact hall _ hc.source hsame
      have hzero := h.zero_iff hsource
      rw [hbool, Conversion.onBits, htoBool]
      have hbits := boolBits (bits ≠ 0)
      simp only [ne_eq, hzero] at hbits
      simpa [truth, Kind.keep, hzero] using hbits
  · have hinteger : c.target.isInteger = true := by simpa [isIntegral, hbool] using htarget
    rw [Conversion.onBits_integer hc h.fits hsource hinteger, h.value]
    have hnat := Conversion.toNat_bitsOfInt n c.target.isWide
    cases hwide : c.target.isWide with
    | true =>
      rw [hwide, if_pos rfl] at hnat
      refine of_emod hinteger ?_ ?_ <;> rw [modulus_wide hwide]
      · exact UInt16.toNat_lt _
      · push_cast
        omega
    | false =>
      rw [hwide, if_neg (by decide)] at hnat
      refine of_emod hinteger ?_ ?_ <;> rw [modulus_narrow hwide]
      · omega
      · push_cast
        omega

/-! ### Operations -/

theorem modEq (h : k.Denotes bits n) (hk : k.isIntegral = true) :
    n ≡ bits.toNat [ZMOD k.modulus] := h.emod hk

theorem integral_of_integer (hk : k.isInteger = true) :
    k.isIntegral = true := by rw [isIntegral, hk]; rfl

/-- Unsigned numbers are their bits. -/
theorem eq_toNat (h : k.Denotes bits n) (hk : k.isUnsigned = true) : n = bits.toNat := by
  have hlt := h.toNat_lt
  rw [← h.value]
  cases k <;> first | cases hk; done | skip
  case u8 =>
    rw [modulus_narrow rfl] at hlt
    change (bits.toNat : ℤ) % 256 = _
    omega
  case u16 => rfl

/-- Signed numbers are read in two halves. -/
theorem eq_bmod (h : k.Denotes bits n) (hk : k.isInteger = true) (hsigned : k.isSigned = true) :
    n = (bits.toNat : ℤ).bmod k.modulus := by
  rw [← h.value]
  cases k <;> first | cases hk; done | cases hsigned; done | rfl

section

variable {a b r : UInt16} {x y : ℤ} (hk : k.isInteger = true) (ha : k.Denotes a x)
  (hb : k.Denotes b y)
  (hr : r.toNat < k.modulus)

include hk ha

theorem neg (h : r.toNat = (k.modulus - a.toNat) % k.modulus) :
    k.Denotes r (UnaryOp.neg.apply k x) := by
  have hlt := ha.toNat_lt
  refine of_emod hk (h ▸ Nat.mod_lt _ (by omega))
    (Int.ModEq.trans ?_ (ha.modEq (integral_of_integer hk)).neg.symm)
  rw [h, Int.natCast_emod, Nat.cast_sub hlt.le]
  refine (Int.mod_modEq _ _).trans ?_
  simp [Int.ModEq]

theorem bitNot (h : r.toNat = k.modulus - 1 - a.toNat) :
    k.Denotes r (UnaryOp.bitNot.apply k x) := by
  have hlt := ha.toNat_lt
  refine of_emod hk (by omega)
    (Int.ModEq.trans ?_ ((ha.modEq (integral_of_integer hk)).neg.sub_right 1).symm)
  have hcast : (r.toNat : ℤ) = k.modulus - 1 - a.toNat := by omega
  rw [hcast, show (k.modulus : ℤ) - 1 - a.toNat = -a.toNat - 1 + k.modulus by ring]
  simp [Int.ModEq]

/-- A step of a shift to the left. -/
theorem twice (hr : r.toNat = 2 * a.toNat % k.modulus) : k.Denotes r (k.keep (x * 2)) := by
  have hlt := ha.toNat_lt
  refine of_emod hk (hr ▸ Nat.mod_lt _ (by omega))
    (Int.ModEq.trans ?_ ((ha.modEq (integral_of_integer hk)).mul_right 2).symm)
  rw [hr, Int.natCast_emod]
  refine (Int.mod_modEq _ _).trans ?_
  rw [Nat.cast_mul, mul_comm]
  rfl

/-- A step of a shift to the right of an unsigned number. -/
theorem half (hunsigned : k.isSigned = false) (hr : r.toNat = a.toNat / 2) :
    k.Denotes r (x / 2) := by
  have hk' : k.isUnsigned = true := by cases k <;> first | rfl | cases hk; done | cases hunsigned
  have hkept := ha.keep (integral_of_integer hk)
  have hlt := ha.toNat_lt
  have hx := ha.eq_toNat hk'
  have hhalf : k.keep (x / 2) = x / 2 := by
    rw [keep_eq_iff hk] at hkept ⊢
    cases k <;> first | cases hk'; done | skip
    all_goals
      simp only [range] at hkept ⊢
      omega
  rw [← hhalf]
  refine of_emod hk (by omega) ?_
  rw [hr, hx]
  rfl

/-- A step of a shift to the right of a signed number, which keeps the sign. -/
theorem halfSigned (hsigned : k.isSigned = true)
    (hr : r.toNat = a.toNat / 2 + if k.modulus ≤ 2 * a.toNat then k.modulus / 2 else 0) :
    k.Denotes r (x / 2) := by
  have hlt := ha.toNat_lt
  have hx := ha.eq_bmod hk hsigned
  have hkept := ha.keep (integral_of_integer hk)
  have hhalf : k.keep (x / 2) = x / 2 := by
    rw [keep_eq_iff hk] at hkept ⊢
    cases k <;> first | cases hk; done | cases hsigned; done | skip
    all_goals
      simp only [range] at hkept ⊢
      omega
  rw [← hhalf]
  have hmod : k.modulus = 256 ∨ k.modulus = 65536 := by
    unfold modulus
    split <;> simp
  rw [Int.bmod_def] at hx
  refine of_emod hk ?_ ?_ <;> rcases hmod with hm | hm <;> rw [hm] at hr hlt hx ⊢ <;>
    push_cast at hx ⊢ <;>
    split at hr <;> split at hx <;> omega

include hb

theorem add (h : r.toNat = (a.toNat + b.toNat) % k.modulus) :
    k.Denotes r (BinaryOp.add.apply k x y) := by
  have hlt := ha.toNat_lt
  have hk' := integral_of_integer hk
  refine of_emod hk (h ▸ Nat.mod_lt _ (by omega))
    (Int.ModEq.trans ?_ ((ha.modEq hk').add (hb.modEq hk')).symm)
  rw [h, Int.natCast_emod, Nat.cast_add]
  exact Int.mod_modEq _ _

theorem sub (h : r.toNat = (a.toNat + k.modulus - b.toNat) % k.modulus) :
    k.Denotes r (BinaryOp.sub.apply k x y) := by
  have hlt := hb.toNat_lt
  have hk' := integral_of_integer hk
  refine of_emod hk (h ▸ Nat.mod_lt _ (by omega))
    (Int.ModEq.trans ?_ ((ha.modEq hk').sub (hb.modEq hk')).symm)
  rw [h, Int.natCast_emod, Nat.cast_sub (by omega), Nat.cast_add]
  refine (Int.mod_modEq _ _).trans ?_
  rw [show (a.toNat : ℤ) + k.modulus - b.toNat = a.toNat - b.toNat + k.modulus by ring]
  simp [Int.ModEq]

theorem mul (h : r.toNat = a.toNat * b.toNat % k.modulus) :
    k.Denotes r (BinaryOp.mul.apply k x y) := by
  have hlt := ha.toNat_lt
  have hk' := integral_of_integer hk
  refine of_emod hk (h ▸ Nat.mod_lt _ (by omega))
    (Int.ModEq.trans ?_ ((ha.modEq hk').mul (hb.modEq hk')).symm)
  rw [h, Int.natCast_emod, Nat.cast_mul]
  exact Int.mod_modEq _ _

theorem div (hunsigned : k.isSigned = false)
    (h : r.toNat = Routine.quotient k.modulus a.toNat b.toNat) :
    k.Denotes r (BinaryOp.div.apply k x y) := by
  have hk' : k.isUnsigned = true := by cases k <;> first | rfl | cases hk; done | cases hunsigned
  have hlt := ha.toNat_lt
  rw [Routine.quotient] at h
  rw [BinaryOp.apply, ha.eq_toNat hk', hb.eq_toNat hk']
  by_cases hzero : b.toNat = 0
  · rw [if_pos hzero] at h
    rw [hzero, Nat.cast_zero, if_pos rfl]
    refine of_emod hk (by omega) (Int.ModEq.symm ?_)
    rw [h, Nat.cast_sub (by omega)]
    simp [Int.ModEq]
  · rw [if_neg hzero] at h
    rw [if_neg (by exact_mod_cast hzero), ← Int.ofNat_tdiv, ← h]
    refine of_emod hk ?_ rfl
    rw [h]
    exact Nat.lt_of_le_of_lt (Nat.div_le_self _ _) hlt

theorem mod (hunsigned : k.isSigned = false) (h : r.toNat = a.toNat % b.toNat) :
    k.Denotes r (BinaryOp.mod.apply k x y) := by
  have hk' : k.isUnsigned = true := by cases k <;> first | rfl | cases hk; done | cases hunsigned
  have hlt := ha.toNat_lt
  have hsame : (if (b.toNat : ℤ) = 0 then (a.toNat : ℤ) else (a.toNat : ℤ).tmod b.toNat) =
      r.toNat := by
    rw [h]
    split
    next hzero => rw [show b.toNat = 0 by exact_mod_cast hzero, Nat.mod_zero]
    next => exact (Int.ofNat_tmod _ _).symm
  rw [BinaryOp.apply, ha.eq_toNat hk', hb.eq_toNat hk', hsame]
  exact of_emod hk (h ▸ Nat.lt_of_le_of_lt (Nat.mod_le _ _) hlt) rfl

theorem divSigned (hsigned : k.isSigned = true)
    (h : (r.toNat : ℤ) = Routine.signedQuotient k.modulus a.toNat b.toNat) :
    k.Denotes r (BinaryOp.div.apply k x y) := by
  have hlt := ha.toNat_lt
  have hzero : y = 0 ↔ b.toNat = 0 := by
    rw [← hb.zero_iff (integral_of_integer hk), ← UInt16.toNat_inj, UInt16.toNat_zero]
  rw [Routine.signedQuotient, ← ha.eq_bmod hk hsigned, ← hb.eq_bmod hk hsigned] at h
  rw [BinaryOp.apply]
  by_cases hb0 : b.toNat = 0
  · rw [if_pos hb0] at h
    rw [if_pos (hzero.2 hb0)]
    refine of_emod hk (by omega) (Int.ModEq.symm ?_)
    rw [h]
    simp [Int.ModEq]
  · rw [if_neg hb0] at h
    rw [if_neg fun hy => hb0 (hzero.1 hy)]
    have hpos : (0 : ℤ) < k.modulus := by omega
    have hbound := Int.emod_lt_of_pos (x.tdiv y) hpos
    refine of_emod hk (by omega) ?_
    rw [h]
    exact Int.mod_modEq _ _

theorem modSigned (hsigned : k.isSigned = true)
    (h : (r.toNat : ℤ) = Routine.signedRemainder k.modulus a.toNat b.toNat) :
    k.Denotes r (BinaryOp.mod.apply k x y) := by
  have hlt := ha.toNat_lt
  rw [Routine.signedRemainder, ← ha.eq_bmod hk hsigned, ← hb.eq_bmod hk hsigned] at h
  have hsame : (if y = 0 then x else x.tmod y) = x.tmod y := by
    split
    next hzero => rw [hzero, Int.tmod_zero]
    next => rfl
  rw [BinaryOp.apply, hsame]
  have hpos : (0 : ℤ) < k.modulus := by omega
  have hbound := Int.emod_lt_of_pos (x.tmod y) hpos
  refine of_emod hk (by omega) ?_
  rw [h]
  exact Int.mod_modEq _ _

/-- Operations on single bits take no heed of the bits that a kind leaves out. -/
theorem bitwise {f : ℕ → ℕ → ℕ} (hf : ∀ i j n, f i j % 2 ^ n = f (i % 2 ^ n) (j % 2 ^ n))
    {g : UInt16 → UInt16 → UInt16} (hg : ∀ i j, (g i j).toNat = f i.toNat j.toNat) (h : r = g a b) :
    k.Denotes r (k.keep (g (UInt16.ofInt x) (UInt16.ofInt y)).toNat) := by
  obtain ⟨e, he⟩ : ∃ e, k.modulus = 2 ^ e := by
    unfold modulus
    split
    · exact ⟨16, rfl⟩
    · exact ⟨8, rfl⟩
  have hlow {bits : UInt16} {n : ℤ} (hbits : k.Denotes bits n) :
      (UInt16.ofInt n).toNat % 2 ^ e = bits.toNat := by
    have hnat := hbits.toNat (integral_of_integer hk)
    have hof := toNat_uint16_ofInt n
    have hdvd : ((2 ^ e : ℕ) : ℤ) ∣ 65536 := by
      rw [← he]
      unfold modulus
      split <;> decide
    rw [← he] at hdvd ⊢
    have := Int.emod_emod_of_dvd n hdvd
    rw [← hof] at this
    exact_mod_cast this.trans hnat.symm
  have hlt := ha.toNat_lt
  have hlt' := hb.toNat_lt
  have hbits : r.toNat = (g (UInt16.ofInt x) (UInt16.ofInt y)).toNat % 2 ^ e := by
    rw [h, hg, hg, hf, hlow ha, hlow hb]
  refine of_emod hk ?_ ?_
  · rw [hbits, he]
    exact Nat.mod_lt _ (Nat.two_pow_pos e)
  · rw [hbits, ← he, Int.natCast_emod]
    exact Int.mod_modEq _ _

theorem bitAnd (h : r = a &&& b) : k.Denotes r (BinaryOp.bitAnd.apply k x y) :=
  bitwise hk ha hb (fun _ _ _ => Nat.and_mod_two_pow) UInt16.toNat_and h

theorem bitOr (h : r = a ||| b) : k.Denotes r (BinaryOp.bitOr.apply k x y) :=
  bitwise hk ha hb (fun _ _ _ => Nat.or_mod_two_pow) UInt16.toNat_or h

theorem bitXor (h : r = a ^^^ b) : k.Denotes r (BinaryOp.bitXor.apply k x y) :=
  bitwise hk ha hb (fun _ _ _ => Nat.xor_mod_two_pow) UInt16.toNat_xor h

end

/-- Bits are equal when the numbers are. -/
theorem eq_iff {a b : UInt16} {x y : ℤ} (hk : k.isIntegral = true) (ha : k.Denotes a x)
    (hb : k.Denotes b y) :
    a = b ↔ x = y := by
  constructor
  · rintro rfl
    rw [← ha.value, ← hb.value]
  · rintro rfl
    rw [← UInt16.toNat_inj]
    exact_mod_cast (ha.toNat hk).trans (hb.toNat hk).symm

end Denotes

end Kind

end Breadbin

/-!
## The code of operators

The operands of an operator lie in slots, or the left one in A and X.  What its code leaves denotes
what the operator gives for the numbers that the operands denote.
-/

namespace Breadbin

namespace Machine

/-- The value in a slot. -/
def View.slot (v : View) (wide : Bool) (z : UInt8) : UInt16 :=
  if wide then Cpu.wordOf (v.zp z) (v.zp (z + 1)) else (v.zp z).toUInt16

theorem View.toNat_slot (v : View) (wide : Bool) (z : UInt8) :
    (v.slot wide z).toNat = if wide then v.word z else (v.zp z).toNat := by
  cases wide with
  | true => exact LinkedCode.toNat_wordOf _ _
  | false => exact UInt8.toNat_toUInt16 _

theorem View.slot_congr {v w : View} {z : UInt8} (hlo : w.zp z = v.zp z)
    (hhi : w.zp (z + 1) = v.zp (z + 1)) (wide : Bool) : w.slot wide z = v.slot wide z := by
  rw [slot, slot, hlo, hhi]

end Machine

namespace Lowering

open Assembly Machine ZeroPage

variable {p : Program} {s : Emission} {k : Kind}

/-- The slots that the code of expressions changes. -/
def valueSlots : List UInt8 :=
  [scratch, scratch + 1, intA, intA + 1, intB, intB + 1, intR, intR + 1,
    intRemainder, intRemainder + 1, work, work + 1, work + 2, work + 3]

/-- An operation on the integer slots. -/
def Calculates (d : ℕ) (k : Kind) (f : ℤ → ℤ → ℤ) : Deed :=
  Computes d valueSlots fun v w => ∀ x y, k.Denotes (v.slot k.isWide intA) x →
    k.Denotes (v.slot k.isWide intB) y →
    k.Denotes (w.value k.isWide) (f x y)

/-! ### Byte by byte -/

instance (mn : Mnemonic) (wide : Bool) : Straight (bytewise mn wide) :=
  inferInstanceAs (Straight (do
    zp .lda intA
    zp mn intB
    if wide then
      op .tay
      zp .lda (intA + 1)
      zp mn (intB + 1)
      op .tax
      op .tya))

/-- What is left of a calculation is known by its bits. -/
theorem calculates_of_bits {act : Lower Unit} {d : ℕ}
    {R : UInt16 → UInt16 → UInt16 → Prop} {f : ℤ → ℤ → ℤ}
    (hact : Does act p s (Computes d valueSlots fun v w =>
      R (v.slot k.isWide intA) (v.slot k.isWide intB) (w.value k.isWide)))
    (hR : ∀ {a b r x y}, k.Denotes a x → k.Denotes b y → R a b r → k.Denotes r (f x y)) :
    Does act p s (Calculates d k f) :=
  hact.mono fun _ _ _ h => h.imp fun _ _ _ hw _ _ ha hb => hR ha hb hw

theorem add_calculates (hk : k.isInteger = true) :
    Does (op .clc >>= fun _ => bytewise .adc k.isWide) p s
      (Calculates 0 k (BinaryOp.add.apply k)) := by
  refine calculates_of_bits (R := fun a b r => r.toNat = (a.toNat + b.toNat) % k.modulus) ?_
    fun ha hb h => .add hk ha hb h
  cases hwide : k.isWide with
  | true =>
    refine Does.computes (op .clc >>= fun _ => bytewise .adc true) (fun v => ⟨_, rfl, ?_⟩) rfl
      (by decide)
    have := (v.zp intA).toNat_lt
    have := (v.zp (intA + 1)).toNat_lt
    have := (v.zp intB).toNat_lt
    have := (v.zp (intB + 1)).toNat_lt
    rw [View.toNat_value, View.toNat_slot, View.toNat_slot, Kind.modulus_wide hwide]
    by_cases hcarry : 256 ≤ (v.zp intA).toNat + (v.zp intB).toNat <;>
      simp [View.word, hcarry, Machine.bit] <;> omega
  | false =>
    refine Does.computes (op .clc >>= fun _ => bytewise .adc false) (fun v => ⟨_, rfl, ?_⟩) rfl
      (by decide)
    rw [View.toNat_value, View.toNat_slot, View.toNat_slot, Kind.modulus_narrow hwide]
    simp

theorem sub_calculates (hk : k.isInteger = true) :
    Does (op .sec >>= fun _ => bytewise .sbc k.isWide) p s
      (Calculates 0 k (BinaryOp.sub.apply k)) := by
  refine calculates_of_bits
    (R := fun a b r => r.toNat = (a.toNat + k.modulus - b.toNat) % k.modulus) ?_
    fun ha hb h => .sub hk ha hb h
  cases hwide : k.isWide with
  | true =>
    refine Does.computes (op .sec >>= fun _ => bytewise .sbc true) (fun v => ⟨_, rfl, ?_⟩) rfl
      (by decide)
    have := (v.zp intA).toNat_lt
    have := (v.zp (intA + 1)).toNat_lt
    have := (v.zp intB).toNat_lt
    have := (v.zp (intB + 1)).toNat_lt
    rw [View.toNat_value, View.toNat_slot, View.toNat_slot, Kind.modulus_wide hwide]
    by_cases hcarry : 256 ≤ (v.zp intA).toNat + (255 - (v.zp intB).toNat) + 1 <;>
      simp [View.word, hcarry, Machine.bit] <;> omega
  | false =>
    refine Does.computes (op .sec >>= fun _ => bytewise .sbc false) (fun v => ⟨_, rfl, ?_⟩) rfl
      (by decide)
    have := (v.zp intA).toNat_lt
    have := (v.zp intB).toNat_lt
    rw [View.toNat_value, View.toNat_slot, View.toNat_slot, Kind.modulus_narrow hwide]
    simp [Machine.bit]
    omega

theorem wordOf_bitwise {f : UInt16 → UInt16 → UInt16} {g : UInt8 → UInt8 → UInt8} {h : ℕ → ℕ → ℕ}
    (hf : ∀ i j, (f i j).toNat = h i.toNat j.toNat) (hg : ∀ i j, (g i j).toNat = h i.toNat j.toNat)
    (hlow : ∀ i j n, h i j % 2 ^ n = h (i % 2 ^ n) (j % 2 ^ n))
    (hhigh : ∀ i j n, h i j / 2 ^ n = h (i / 2 ^ n) (j / 2 ^ n))
    (a a' b b' : UInt8) : Cpu.wordOf (g a b) (g a' b') = f (Cpu.wordOf a a') (Cpu.wordOf b b') := by
  have := a.toNat_lt
  have := b.toNat_lt
  have := (g a b).toNat_lt
  apply UInt16.toNat_inj.1
  rw [LinkedCode.toNat_wordOf, hf, LinkedCode.toNat_wordOf, LinkedCode.toNat_wordOf, hg, hg]
  have hl := hlow (a.toNat + 256 * a'.toNat) (b.toNat + 256 * b'.toNat) 8
  have hh := hhigh (a.toNat + 256 * a'.toNat) (b.toNat + 256 * b'.toNat) 8
  rw [show (a.toNat + 256 * a'.toNat) % 2 ^ 8 =
    a.toNat by omega, show (b.toNat + 256 * b'.toNat) % 2 ^ 8 = b.toNat by omega] at hl
  rw [show (a.toNat + 256 * a'.toNat) / 2 ^ 8 =
    a'.toNat by omega, show (b.toNat + 256 * b'.toNat) / 2 ^ 8 = b'.toNat by omega] at hh
  omega

theorem and_calculates (hk : k.isInteger = true) :
    Does (bytewise .and k.isWide) p s (Calculates 0 k (BinaryOp.bitAnd.apply k)) := by
  refine calculates_of_bits (R := fun a b r => r = a &&& b) ?_ fun ha hb h => .bitAnd hk ha hb h
  cases k.isWide with
  | true =>
    exact Does.computes
      (bytewise .and true) (fun v => ⟨_, rfl, wordOf_bitwise UInt16.toNat_and UInt8.toNat_and
      (fun _ _ _ => Nat.and_mod_two_pow) (fun _ _ _ => Nat.and_div_two_pow)
        _ _ _ _⟩) rfl (by decide)
  | false => exact Does.computes (bytewise .and false) (fun v =>
      ⟨_, rfl, UInt8.toUInt16_and _ _⟩) rfl (by decide)

theorem or_calculates (hk : k.isInteger = true) :
    Does (bytewise .ora k.isWide) p s (Calculates 0 k (BinaryOp.bitOr.apply k)) := by
  refine calculates_of_bits (R := fun a b r => r = a ||| b) ?_ fun ha hb h => .bitOr hk ha hb h
  cases k.isWide with
  | true =>
    exact Does.computes
      (bytewise .ora true) (fun v => ⟨_, rfl, wordOf_bitwise UInt16.toNat_or UInt8.toNat_or
      (fun _ _ _ => Nat.or_mod_two_pow) (fun _ _ _ => Nat.or_div_two_pow) _ _ _ _⟩) rfl (by decide)
  | false => exact Does.computes (bytewise .ora false) (fun v =>
      ⟨_, rfl, UInt8.toUInt16_or _ _⟩) rfl (by decide)

theorem xor_calculates (hk : k.isInteger = true) :
    Does (bytewise .eor k.isWide) p s (Calculates 0 k (BinaryOp.bitXor.apply k)) := by
  refine calculates_of_bits (R := fun a b r => r = a ^^^ b) ?_ fun ha hb h => .bitXor hk ha hb h
  cases k.isWide with
  | true =>
    exact Does.computes
      (bytewise .eor true) (fun v => ⟨_, rfl, wordOf_bitwise UInt16.toNat_xor UInt8.toNat_xor
      (fun _ _ _ => Nat.xor_mod_two_pow) (fun _ _ _ => Nat.xor_div_two_pow)
        _ _ _ _⟩) rfl (by decide)
  | false => exact Does.computes (bytewise .eor false) (fun v =>
      ⟨_, rfl, UInt8.toUInt16_xor _ _⟩) rfl (by decide)

/-! ### Routines -/

theorem perform_callRoutine (id : RoutineId) (p : Program) (s : Emission) :
    ∃ s' l, perform (callRoutine id) p s = (.ok (), s') ∧
    s.Writes s' [.instr .jsr (.absolute (.ofLabel l))] ∧ s'.workspace.label? id = some l := by
  have hplain : [Line.instr .jsr (.absolute (.ofLabel (s.workspace.require id).2))].any
    Line.isAlign = false := rfl
  have hcall := ((Routine.Workspace.Writes.refl (s.workspace.require id).1).writing hplain).toGrows
  have hgrows := (s.workspace.require_grows id).trans hcall
  refine ⟨_, _, rfl,
    ⟨⟨⟨⟨hgrows.target, hgrows.stream.precedes⟩, .refl _, [], rfl⟩, rfl, rfl, rfl, rfl⟩, hgrows⟩, ?_⟩
  exact hcall.labels id _ (s.workspace.label?_require id)

/-- A call of a routine of which it is known what it does. -/
theorem callRoutine_does {id : RoutineId} {r : LinkedCode.Behaviour} (hr : behaviour? id = some r)
    (hd : r.depth ≤ 254) :
    Does (callRoutine id) p s (Computes (r.depth + 2) r.slots r.ends) := by
  obtain ⟨s', l, hperform, hwrites, hlabel⟩ := perform_callRoutine id p s
  refine ⟨s', _, hperform, hwrites, fun code a b hcode hsupplies v => ?_⟩
  obtain ⟨target, hat, hbehaves⟩ := hsupplies id l hlabel r hr
  exact hbehaves.call hat hcode hd v

theorem mul_calculates (hk : k.isInteger = true) :
    Does (callRoutine (if k.isWide then .mul16 else .mul8)) p s
      (Calculates 2 k (BinaryOp.mul.apply k)) := by
  refine calculates_of_bits (R := fun a b r => r.toNat = a.toNat * b.toNat % k.modulus) ?_
    fun ha hb h => .mul hk ha hb h
  cases hwide : k.isWide with
  | true =>
    have hroutine : Does (callRoutine .mul16) p s _ := callRoutine_does rfl (by decide)
    refine hroutine.mono fun code a b h =>
      (h.widen (by decide) (by decide)).imp fun v w _ hw => ?_
    rw [View.toNat_value, View.toNat_slot, View.toNat_slot, Kind.modulus_wide hwide]
    exact hw
  | false =>
    have hroutine : Does (callRoutine .mul8) p s _ := callRoutine_does rfl (by decide)
    refine hroutine.mono fun code a b h =>
      (h.widen (by decide) (by decide)).imp fun v w _ hw => ?_
    rw [View.toNat_value, View.toNat_slot, View.toNat_slot, Kind.modulus_narrow hwide]
    exact hw

/-- How deep the call of the routine of an operator goes down the stack. -/
def routineDepth (op : BinaryOp) (k : Kind) : ℕ :=
  match op with
  | .mul => 2
  | .div | .mod => if k.isSigned then 4 else 2
  | _ => 0

/-- What a division leaves: the quotient in the registers, and the remainder in its slot. -/
def Divides (k : Kind) : Deed :=
  Computes (routineDepth .div k) valueSlots fun v w => ∀ x y, k.Denotes (v.slot k.isWide intA) x →
    k.Denotes (v.slot k.isWide intB) y →
    k.Denotes (w.value k.isWide) (BinaryOp.div.apply k x y) ∧
      k.Denotes (w.slot k.isWide intRemainder) (BinaryOp.mod.apply k x y)

/-- What is left of a division is known by its bits. -/
theorem divides_of_routine {id : RoutineId} {r : LinkedCode.Behaviour} (hr : behaviour? id = some r)
    (hdepth : r.depth + 2 ≤ routineDepth .div k) (hslots : r.slots ⊆ valueSlots)
    (hends : ∀ v w x y, r.ends v w → k.Denotes (v.slot k.isWide intA) x →
      k.Denotes (v.slot k.isWide intB) y → k.Denotes (w.value k.isWide) (BinaryOp.div.apply k x y) ∧
        k.Denotes (w.slot k.isWide intRemainder) (BinaryOp.mod.apply k x y)) :
    Does (callRoutine id) p s (Divides k) :=
  have hshallow : routineDepth .div k ≤ 4 := by
    simp only [routineDepth]
    split <;> omega
  (callRoutine_does hr (by omega)).mono fun _ _ _ h =>
    (h.widen hdepth hslots).imp fun v w _ hw x y hx hy => hends v w x y hw hx hy

theorem division_does (hk : k.isInteger = true) :
    Does (callRoutine (divisionRoutine k)) p s (Divides k) := by
  cases k <;> first | cases hk; done | skip
  case u8 =>
    refine divides_of_routine (r := Routine.byteDivision) rfl (by decide) (by decide)
      fun v w x y hw hx hy => ?_
    have hquotient := hw.1
    have hremainder := hw.2.2
    refine ⟨.div rfl hx hy rfl ?_, .mod rfl hx hy rfl ?_⟩ <;>
      simpa only [View.toNat_value, View.toNat_slot, Kind.isWide, Bool.false_eq_true, if_false]
  case i8 =>
    refine divides_of_routine (r := Routine.signedByteDivision) rfl (by decide) (by decide)
      fun v w x y hw hx hy => ?_
    obtain ⟨hquotient, hremainder⟩ := hw
    refine ⟨.divSigned rfl hx hy rfl ?_, .modSigned rfl hx hy rfl ?_⟩ <;>
      simpa only [View.toNat_value, View.toNat_slot, Kind.isWide, Bool.false_eq_true, if_false]
  case u16 =>
    refine divides_of_routine (r := Routine.wordDivision) rfl (by decide) (by decide)
      fun v w x y hw hx hy => ?_
    have hquotient := hw.1
    have hremainder := hw.2.2
    refine ⟨.div rfl hx hy rfl ?_, .mod rfl hx hy rfl ?_⟩ <;>
      simpa only [View.toNat_value, View.toNat_slot, Kind.isWide, if_true]
  case i16 =>
    refine divides_of_routine (r := Routine.signedWordDivision) rfl (by decide) (by decide)
      fun v w x y hw hx hy => ?_
    obtain ⟨hquotient, hremainder⟩ := hw
    refine ⟨.divSigned rfl hx hy rfl ?_, .modSigned rfl hx hy rfl ?_⟩ <;>
      simpa only [View.toNat_value, View.toNat_slot, Kind.isWide, if_true]

end Lowering

end Breadbin

/-!
## The code of shifts and of operators before their operand

A shift moves its value by one bit as often as Y says.  A byte is shifted in A, a word in its slot.
-/

namespace Breadbin.Lowering

open Assembly Machine ZeroPage

variable {p : Program} {s : Emission} {k : Kind}

/-! ### Shifts -/

/-- The number that a shift by so many bits gives. -/
def shifted (left : Bool) (k : Kind) (x : ℤ) (n : ℕ) : ℤ :=
  if left then k.keep (x * 2 ^ n) else x / 2 ^ n

theorem shifted_zero {left : Bool} {x : ℤ} (h : k.keep x = x) : shifted left k x 0 = x := by
  unfold shifted
  split
  · rw [pow_zero, mul_one, h]
  · rw [pow_zero, Int.ediv_one]

/-- A shift by one more bit. -/
theorem shifted_succ (hk : k.isInteger = true) (left : Bool) (x : ℤ) (n : ℕ) :
    shifted left k (shifted left k x n) 1 = shifted left k x (n + 1) := by
  unfold shifted
  split
  · rw [pow_one]
    refine Kind.keep_congr hk ?_
    rw [Int.mul_emod, Kind.keep_emod hk, ← Int.mul_emod, pow_succ, mul_assoc]
  · rw [pow_one, pow_succ, Int.ediv_ediv_of_nonneg (by positivity)]

/-- The value while it is shifted. -/
def inShift (k : Kind) (v : View) : UInt16 :=
  if k.isWide then v.slot true scratch else v.value false

theorem toNat_inShift (k : Kind) (v : View) :
    (inShift k v).toNat = if k.isWide then v.word scratch else v.a.toNat := by
  unfold inShift
  split
  · exact v.toNat_slot true scratch
  · exact v.toNat_value false

/-- What a step of a shift makes of the bits. -/
def stepBits (left : Bool) (k : Kind) (n : ℕ) : ℕ :=
  if left then 2 * n % k.modulus
  else n / 2 + if k.isSigned = true ∧ k.modulus ≤ 2 * n then k.modulus / 2 else 0

theorem denotes_stepBits (hk : k.isInteger = true) (left : Bool) {m n : UInt16} {x : ℤ}
    (h : k.Denotes m x)
    (hn : n.toNat = stepBits left k m.toNat) : k.Denotes n (shifted left k x 1) := by
  unfold stepBits at hn
  unfold shifted
  rw [pow_one]
  cases left with
  | true => exact h.twice hk hn
  | false =>
    cases hsigned : k.isSigned with
    | true => exact h.halfSigned hk hsigned (by simpa [hsigned] using hn)
    | false => exact h.half hk hsigned (by simpa [hsigned] using hn)

instance (left : Bool) (k : Kind) : Straight (shiftStep left k) :=
  inferInstanceAs (Straight (do
    if left then
      if k.isWide then
        zp .asl scratch
        zp .rol (scratch + 1)
      else op .asl
    else if k.isWide then
      if k.isSigned then
        zp .lda (scratch + 1)
        imm .cmp 0x80
        zp .ror (scratch + 1)
        zp .ror scratch
      else
        zp .lsr (scratch + 1)
        zp .ror scratch
    else if k.isSigned then
      imm .cmp 0x80
      op .ror
    else op .lsr))

theorem shiftStep_does (left : Bool) (k : Kind) :
    Does (shiftStep left k) p s (Computes 0 [scratch, scratch + 1] fun v w =>
    w.y = v.y ∧ (inShift k w).toNat = stepBits left k (inShift k v).toNat) := by
  simp only [toNat_inShift, stepBits]
  refine (Does.straight (shiftStep left k)).mono fun code a b h v => ?_
  -- what the instructions do, whatever their number
  have hrun {ls : List Line} (h : Lines ls code a b) (hlevel : ls.all isLevel = true)
      (hslots : ls.flatMap slots ⊆ [scratch, scratch + 1]) {P : View → Prop}
      (hexec : ∃ w, LinkedCode.execAll v ls = some w ∧ P w) : ∃ w,
          code.Path 0 [scratch, scratch + 1] a v b w ∧ P w := by
    obtain ⟨w, hw, hP⟩ := hexec
    exact ⟨w, h.path hw hlevel hslots, hP⟩
  have ha := v.a.toNat_lt
  cases left <;> cases hwide : k.isWide <;> cases hsigned : k.isSigned <;>
    simp only [Straight.lines, hwide, hsigned, if_true, Bool.false_eq_true, if_false] at h ⊢
  case false.false.false =>
    refine hrun h rfl (by decide) ⟨_, rfl, rfl, ?_⟩
    simp
    omega
  case false.false.true =>
    refine hrun h rfl (by decide) ⟨_, rfl, rfl, ?_⟩
    have hsign : 256 ≤ 2 * v.a.toNat ↔ 128 ≤ v.a.toNat := by omega
    rw [Kind.modulus_narrow hwide]
    by_cases hneg : 128 ≤ v.a.toNat <;> simp [hsign, hneg] <;> omega
  case false.true.false =>
    obtain ⟨w, hw, hword, -, hy⟩ := shiftRight_word v scratch
    exact hrun h rfl (by decide) ⟨w, hw, hy, by rw [hword]; simp⟩
  case false.true.true =>
    have := (v.zp scratch).toNat_lt
    have hhi := (v.zp (scratch + 1)).toNat_lt
    have hsign : 65536 ≤ 2 * v.word scratch ↔ 128 ≤ (v.zp (scratch + 1)).toNat := by
      rw [View.word]
      omega
    refine hrun h rfl (by decide) ⟨_, rfl, rfl, ?_⟩
    rw [Kind.modulus_wide hwide]
    simp only [hsign, true_and]
    rcases Nat.mod_two_eq_zero_or_one (v.zp (scratch + 1)).toNat with hbit | hbit <;>
      by_cases hneg : 128 ≤ (v.zp (scratch + 1)).toNat <;> simp [View.word, hbit, hneg] <;> omega
  case true.false.false | true.false.true =>
    refine hrun h rfl (by decide) ⟨_, rfl, rfl, ?_⟩
    rw [Kind.modulus_narrow hwide]
    simp
  case true.true.false | true.true.true =>
    obtain ⟨w, hw, hword, -, -, hy⟩ := shiftLeft_word v scratch
    refine hrun h rfl (by decide) ⟨w, hw, hy, ?_⟩
    rw [hword, Kind.modulus_wide hwide]

/-- The rounds of a shift: with `n` rounds to go, all the others have been made. -/
theorem shiftRounds {code : LinkedCode} {a m b : ℕ} {left : Bool} {again done : LabelId}
    (hk : k.isInteger = true) (hagain : code.At again a)
    (hstep : Computes 0 [scratch, scratch + 1] (fun v w =>
      w.y = v.y ∧ (inShift k w).toNat = stepBits left k (inShift k v).toNat) code a m)
    (hcount : Lines [.instr .dey .implied, .instr .bne (.relative again), .bound done] code m b)
    (v : View) (hy : v.y ≠ 0) :
    ∃ w, code.Path 0 [scratch, scratch + 1] a v b w ∧ ∀ x, k.Denotes (inShift k v) x →
      k.Denotes (inShift k w) (shifted left k x v.y.toNat) := by
  obtain ⟨e, hdey, hcount⟩ := hcount.cons
  obtain ⟨e', hbranch, hcount⟩ := hcount.cons
  obtain ⟨-, rfl⟩ := hcount.bound
  let Inv (n : ℕ) (w : View) : Prop := n ≤ v.y.toNat ∧ ∀ x, k.Denotes (inShift k v) x →
    k.Denotes (inShift k w) (shifted left k x (v.y.toNat - n))
  have hround (n : ℕ) (u : View) (hu : Inv (n + 1) u) : ∃ w, code.Path 0 [scratch, scratch + 1] a u
      (if w.y = 0 then b else a) w ∧ w.y = u.y - 1 ∧ Inv n w := by
    obtain ⟨hle, hvalue⟩ := hu
    obtain ⟨u', hpath, hy', hbits⟩ := hstep u
    have hdown : code.Path 0 [scratch, scratch + 1] m u' e (u'.setY (u'.y - 1)) :=
      hdey.path rfl rfl (by decide)
    refine ⟨u'.setY (u'.y - 1),
      (hpath.trans hdown).trans (hbranch.again (n := u'.y - 1) hagain rfl),
      congrArg (· - 1) hy', by omega, ?_⟩
    intro x hx
    have hnext := denotes_stepBits hk left (hvalue x hx) hbits
    rwa [shifted_succ hk, show v.y.toNat - (n + 1) + 1 = v.y.toNat - n by omega] at hnext
  obtain ⟨n, hn⟩ : ∃ n, v.y.toNat = n + 1 := Nat.exists_eq_succ_of_ne_zero fun h =>
    hy (eq_zero_iff.2 h)
  have hstart : Inv (n + 1) v := by
    refine ⟨by omega, fun x hx => ?_⟩
    rw [hn, Nat.sub_self, shifted_zero (hx.keep (Kind.Denotes.integral_of_integer hk))]
    exact hx
  obtain ⟨w, hpath, -, hw⟩ := LinkedCode.Path.countdown View.y Inv hround n v hn hstart
  exact ⟨w, hpath, hw⟩

theorem shiftByY_does (hk : k.isInteger = true) (left : Bool) : Does (shiftByY left k) p s
    (Computes 0 [scratch, scratch + 1] fun v w => ∀ x, k.Denotes (v.value k.isWide) x →
      k.Denotes (w.value k.isWide) (shifted left k x v.y.toNat)) := by
  have hput (s : Emission) : Does (if k.isWide then storeSlot scratch true else pure ()) p s
      (Computes 0 [scratch, scratch + 1] fun v w =>
        w.y = v.y ∧ inShift k w = v.value k.isWide) := by
    cases hwide : k.isWide with
    | true =>
      refine Does.computes (storeSlot scratch true) (fun v => ⟨_, rfl, rfl, ?_⟩) rfl (by decide)
      simp [inShift, hwide, View.slot, View.value]
    | false =>
      refine Does.computes (pure ()) (fun v => ⟨v, rfl, rfl, ?_⟩) rfl (by decide)
      rw [inShift, hwide]
      rfl
  have hget (s : Emission) : Does (if k.isWide then loadSlot scratch true else pure ()) p s
      (Computes 0 [scratch, scratch + 1] fun v w => w.value k.isWide = inShift k v) := by
    cases hwide : k.isWide with
    | true =>
      refine Does.computes (loadSlot scratch true) (fun v => ⟨_, rfl, ?_⟩) rfl (by decide)
      rw [inShift, hwide]
      rfl
    | false =>
      refine Does.computes (pure ()) (fun v => ⟨v, rfl, ?_⟩) rfl (by decide)
      rw [inShift, hwide]
      rfl
  have hact : shiftByY left k = (if k.isWide then storeSlot scratch true else pure ()) >>= fun _ =>
      newLabel "shift" >>= fun again => newLabel "shift_end" >>= fun done =>
      (do imm .cpy 0; branchTo .beq done; place again) >>= fun _ => shiftStep left k >>= fun _ =>
      (do op .dey; branchTo .bne again; place done) >>= fun _ =>
      if k.isWide then loadSlot scratch true else pure () := by
    simp only [shiftByY, bind_assoc]
    split <;> simp only [pure_bind]
  rw [hact]
  refine ((hput s).bind fun s₁ _ => Does.label fun again s₂ _ => Does.label fun done s₃ _ =>
    (Does.straight _).bind fun s₄ _ => (shiftStep_does left k).bind fun s₅ _ =>
    (Does.straight _).bind fun s₆ _ => hget s₆).mono ?_
  rintro code a b ⟨m₁, hput, again, done, m₂, htest, m₃, hstep, m₄, hcount, hget⟩ v
  obtain ⟨u, hpath, hy, hu⟩ := hput v
  obtain ⟨e₁, hcompare, htest⟩ := htest.cons
  obtain ⟨e₂, hleave, htest⟩ := htest.cons
  obtain ⟨hagain, rfl⟩ := htest.bound
  have hdone : code.At done m₄ := by
    obtain ⟨e, -, hrest⟩ := hcount.split [_, _]
    obtain ⟨hdone, rfl⟩ := hrest.bound
    exact hdone
  have hcompared : code.Path 0 [scratch, scratch + 1] m₁ u e₁ (u.compare u.y 0) :=
    hcompare.path rfl rfl (by decide)
  -- the value behind the rounds, if there are any
  obtain ⟨w, hpath', hw⟩ : ∃ w, code.Path 0 [scratch, scratch + 1] e₁ (u.compare u.y 0) m₄ w ∧
      ∀ x, k.Denotes (inShift k u) x → k.Denotes (inShift k w) (shifted left k x u.y.toNat) := by
    by_cases hzero : u.y = 0
    · have htaken : (u.compare u.y 0).takes? .beq = some true := by simp [View.takes?, hzero]
      refine ⟨_, (hleave.branch_taken hdone htaken).path, fun x hx => ?_⟩
      rw [hzero, UInt8.toNat_zero, shifted_zero (hx.keep (Kind.Denotes.integral_of_integer hk))]
      exact hx
    · have hskipped : (u.compare u.y 0).takes? .beq = some false := by simp [View.takes?, hzero]
      obtain ⟨w, hpath', hw⟩ := shiftRounds hk hagain hstep hcount (u.compare u.y 0) hzero
      exact ⟨w, (hleave.branch_skipped hdone hskipped).path.trans hpath', hw⟩
  obtain ⟨w', hpath'', hw'⟩ := hget w
  refine ⟨w', hpath.trans (hcompared.trans (hpath'.trans hpath'')), fun x hx => ?_⟩
  rw [hw', ← hy]
  exact hw x (hu ▸ hx)

/-! ### Operators before their operand -/

/-- An operation on the value. -/
def Changes (k : Kind) (f : ℤ → ℤ) : Deed :=
  Computes 0 [] fun v w => ∀ x, k.Denotes (v.value k.isWide) x → k.Denotes (w.value k.isWide) (f x)

instance (wide : Bool) : Straight (complement wide) :=
  inferInstanceAs (Straight (do
    imm .eor 0xFF
    if wide then
      op .tay
      op .txa
      imm .eor 0xFF
      op .tax
      op .tya))

theorem complement_does (hk : k.isInteger = true) :
    Does (complement k.isWide) p s (Changes k (UnaryOp.bitNot.apply k)) := by
  have hbits : Does (complement k.isWide) p s (Computes 0 [] fun v w =>
      (w.value k.isWide).toNat = k.modulus - 1 - (v.value k.isWide).toNat) := by
    cases hwide : k.isWide with
    | true =>
      refine Does.computes (complement true) (fun v => ⟨_, rfl, ?_⟩) rfl (by decide)
      have := v.a.toNat_lt
      have := v.x.toNat_lt
      rw [View.toNat_value, View.toNat_value, Kind.modulus_wide hwide]
      simp
      omega
    | false =>
      refine Does.computes (complement false) (fun v => ⟨_, rfl, ?_⟩) rfl (by decide)
      rw [View.toNat_value, View.toNat_value, Kind.modulus_narrow hwide]
      simp
  exact hbits.mono fun code a b h => h.imp fun v w _ hw x hx => hx.bitNot hk hw

theorem negate_does (hk : k.isInteger = true) :
    Does (negate (.scalar k)) p s (Changes k (UnaryOp.neg.apply k)) := by
  have hfloat : k ≠ .float := by
    rintro rfl
    cases hk
  have hbits : Does (negate (.scalar k)) p s (Computes 0 [] fun v w =>
      (w.value k.isWide).toNat = (k.modulus - (v.value k.isWide).toNat) % k.modulus) := by
    have hact : negate (.scalar k) = (do
        imm .eor 0xFF
        op .clc
        imm .adc 1
        if k.isWide then
          op .tay
          op .txa
          imm .eor 0xFF
          imm .adc 0
          op .tax
          op .tya) := if_neg hfloat
    rw [hact]
    cases hwide : k.isWide with
    | true =>
      refine Does.computes _ (fun v => ⟨_, rfl, ?_⟩) rfl (by decide)
      have := v.a.toNat_lt
      have := v.x.toNat_lt
      have hcarry : 255 ≤ 255 - v.a.toNat ↔ v.a.toNat = 0 := by omega
      rw [View.toNat_value, View.toNat_value, Kind.modulus_wide hwide]
      by_cases hzero : v.a.toNat = 0 <;> simp [hcarry, hzero] <;> omega
    | false =>
      refine Does.computes _ (fun v => ⟨_, rfl, ?_⟩) rfl (by decide)
      have := v.a.toNat_lt
      rw [View.toNat_value, View.toNat_value, Kind.modulus_narrow hwide]
      simp
      omega
  exact hbits.mono fun code a b h => h.imp fun v w _ hw x hx => hx.neg hk hw

/-- The negation of a truth value. -/
theorem not_does : Does (imm .eor 1) p s (Changes .bool (UnaryOp.not.apply .bool)) := by
  refine Does.computes (imm .eor 1) (fun v => ⟨_, rfl, fun x hx => ?_⟩) rfl (by decide)
  have hone := hx.fits.2 rfl
  have hzero := hx.zero_iff rfl
  have hbits := Kind.Denotes.boolBits (x = 0)
  rw [← UInt16.toNat_inj, View.toNat_value] at hzero
  rw [View.toNat_value] at hone
  change v.a.toNat ≤ 1 at hone
  change v.a.toNat = 0 ↔ x = 0 at hzero
  have hflipped : (v.a ^^^ 1).toUInt16 = Literal.boolBits (decide (x = 0)) := by
    obtain ha | ha : v.a = 0 ∨ v.a = 1 := by
      rw [← UInt8.toNat_inj, ← UInt8.toNat_inj, UInt8.toNat_zero, UInt8.toNat_one]
      omega
    · rw [decide_eq_true (hzero.1 (by rw [ha]; rfl)), ha]
      rfl
    · rw [decide_eq_false (fun hx => absurd (hzero.2 hx) (by rw [ha]; decide)), ha]
      rfl
  show Kind.bool.Denotes (v.a ^^^ 1).toUInt16 _
  rw [hflipped]
  exact hbits

end Breadbin.Lowering
