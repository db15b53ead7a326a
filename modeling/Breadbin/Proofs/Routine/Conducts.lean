import Breadbin.Numeric.Fixed
import Breadbin.Placement.Target
import Breadbin.Proofs.Machine.Conduct
import Breadbin.Proofs.Machine.Contents
import Breadbin.Proofs.Numeric.Conversion
import Breadbin.Proofs.Routine.SignedDivision
import Breadbin.Routine.Basic
import Breadbin.Routine.Chance

/-!
# The conducts of the routines

For every routine the slots and the memory that it may change, the registers it keeps and how deep
it goes down the stack.  Of those that calculate it is also said what they return.
-/

namespace Breadbin.Routine

open Machine Numeric ZeroPage

/-- The bytes of a word. -/
def word (z : UInt8) : List UInt8 := [z, z + 1]

/-- The first work bytes. -/
def workBytes (n : Nat) : List UInt8 := (List.range n).map fun i => work + UInt8.ofNat i

/-- Memory behind the stack page that routines change. -/
inductive Buffer where
  /-- numbers are turned into text here -/
  | conversion
  /-- strings are joined here -/
  | concatenation
  /-- the registers of the voice that random numbers start from -/
  | voices
  deriving DecidableEq

/-- The first addresses and the sizes of a buffer. -/
def Buffer.areas (t : Target) : Buffer → List (Nat × Nat)
  | conversion => [(t.conversionBase.toNat, t.conversionSize.toNat)]
  | concatenation => [(t.concatenationBase.toNat, Target.concatenationSize)]
  | voices => [(voiceFrequency.toNat, 2), (voiceControl.toNat, 1)]

/-- Characters are printed by the trap. -/
structure PrintsByTrap (t : Target) (u : View) : Prop where
  trapped : u.chrout = t.chrout
  nonzero : t.chrout ≠ 0
  inside : t.chrout ≠ Cpu.returnTrap

theorem PrintsByTrap.trap {t : Target} {u : View} (h : PrintsByTrap t u) :
    u.chrout = t.chrout ∧ t.chrout ≠ 0 ∧ t.chrout ≠ Cpu.returnTrap :=
  ⟨h.trapped, h.nonzero, h.inside⟩

/-- The characters of a text as bytes. -/
def spelled (s : String) : List UInt8 := s.toList.map Char.toUInt8

/-- The digits of a word and a zero fit in behind an offset. -/
def hasRoom (t : Target) (u : View) : Prop :=
  u.y.toNat + (spelled (toString (u.word intA))).length < 256 ∧
    u.y.toNat + (spelled (toString (u.word intA))).length < t.conversionSize.toNat

/-- The byte that a sign is kept in. -/
def signByte (negative : Bool) : UInt8 := if negative then 0x80 else 0

/-- A word is returned in A and X as well. -/
def returnsWord (z : UInt8) (w : View) : Prop := w.a = w.zp z ∧ w.x = w.zp (z + 1)

/-- A byte is returned in A as well. -/
def returnsByte (z : UInt8) (w : View) : Prop := w.a = w.zp z

/-- An address is returned in A and X. -/
def returnsAddress (address : UInt16) (w : View) : Prop :=
  w.a = address.toUInt8 ∧ w.x = (address >>> 8).toUInt8

/-! ## Integers and fixed-point numbers -/

def multipliesBytes (u w : View) : Prop :=
  returnsByte intR w ∧ (w.zp intR).toNat = (u.zp intA).toNat * (u.zp intB).toNat % 256

def multipliesWords (u w : View) : Prop :=
  returnsWord intR w ∧ w.word intR = u.word intA * u.word intB % 65536

/-- The quotient and the remainder are those of two bytes. -/
def dividesBytes (u w : View) : Prop :=
  returnsByte intR w ∧ (w.zp intR).toNat = quotient 256 (u.zp intA).toNat (u.zp intB).toNat ∧
    (w.zp intRemainder).toNat = (u.zp intA).toNat % (u.zp intB).toNat

/-- The quotient and the remainder are those of two words. -/
def dividesWords (u w : View) : Prop :=
  returnsWord intR w ∧ w.word intR = quotient 65536 (u.word intA) (u.word intB) ∧
    w.word intRemainder = u.word intA % u.word intB

/-- The quotient and the remainder are those of two bytes with signs. -/
def dividesSignedBytes (u w : View) : Prop :=
  returnsByte intR w ∧
    ((w.zp intR).toNat : ℤ) = signedQuotient 256 (u.zp intA).toNat (u.zp intB).toNat ∧
    ((w.zp intRemainder).toNat : ℤ) = signedRemainder 256 (u.zp intA).toNat (u.zp intB).toNat

/-- The quotient and the remainder are those of two words with signs. -/
def dividesSignedWords (u w : View) : Prop :=
  returnsWord intR w ∧ (w.word intR : ℤ) = signedQuotient 65536 (u.word intA) (u.word intB) ∧
    (w.word intRemainder : ℤ) = signedRemainder 65536 (u.word intA) (u.word intB)

/-- The fixed-point number of a word. -/
def fixedOf (n : ℕ) : Fixed := ⟨UInt16.ofNat n⟩

/-- The result is that of an operation on fixed-point numbers. -/
def calculatesFixed (op : Fixed → Fixed → Fixed) (u w : View) : Prop :=
  returnsWord fixR w ∧ w.word fixR = (op (fixedOf (u.word fixA)) (fixedOf (u.word fixB))).raw.toNat

/-! ## Floating-point numbers -/

/-- An unpacked number with its leading one in its place is packed. -/
def packs (u w : View) : Prop :=
  returnsWord floatR w ∧ ∀ s, u.zp work = signByte s → 8192 ≤ u.word floatR →
    u.word floatR < 16384 →
    w.word floatR = signBit s + packed (signed (u.zp (work + 1))) (u.word floatR)

/-- The result is the exact one, rounded. -/
def calculates (op : Datum → Datum → Datum) (u w : View) : Prop :=
  returnsWord floatR w ∧
    (op (datumOf (u.word floatA)) (datumOf (u.word floatB))).Rounds (Half.ofWord (w.word floatR))

/-- How numbers compare, as a signed byte; what is no number counts as greater. -/
def ordinal : Option Ordering → UInt8
  | some .lt => 0xFF
  | some .eq => 0
  | _ => 1

def compares (u w : View) : Prop :=
  w.a = ordinal ((datumOf (u.word floatA)).compare? (datumOf (u.word floatB)))

/-- A magnitude is packed with the sign in the first work byte. -/
def packsMagnitude (u w : View) : Prop :=
  returnsWord floatR w ∧ ∀ s, u.zp work = signByte s → IsPacked s (u.word intA) (w.word floatR)

def packsWord (u w : View) : Prop :=
  returnsWord floatR w ∧ IsPacked false (u.word intA) (w.word floatR)

def packsSignedWord (u w : View) : Prop :=
  returnsWord floatR w ∧
    IsPacked (signOf (u.word intA)) (magnitude 65536 (u.word intA)) (w.word floatR)

/-- A fixed-point number is rounded. -/
def roundsFixed (u w : View) : Prop :=
  returnsWord floatR w ∧
    (Datum.ofRat ((u.word fixA : ℤ).bmod 65536 / 16)).Rounds (Half.ofWord (w.word floatR))

/-- The bias by which the exponent of a number is too large when it is truncated. -/
def biasOf (u : View) : ℕ := (u.zp (work + 5)).toNat

/-- A number is truncated to a magnitude of sixteen bits, and its sign is kept. -/
def truncates (u w : View) : Prop :=
  biasOf u ≤ 100 → w.word floatR = (datumOf (u.word floatA)).whole 65535 (2 ^ (28 - biasOf u : ℤ)) ∧
    w.zp work = signByte (datumOf (u.word floatA)).negative

/-- A magnitude with the sign in the first work byte saturates to a word with a sign. -/
def saturates (u w : View) : Prop :=
  returnsWord intR w ∧ ∀ s, u.zp work = signByte s →
    (w.word intR : ℤ) =
      (if s then max (-32768) (-(u.word floatR : ℤ)) else min 32767 (u.word floatR : ℤ)) % 65536

/-- A number is truncated to an integer in a range. -/
def truncatesTo (z : UInt8) (lo hi : ℤ) (k : ℚ) (u w : View) : Prop :=
  returnsWord z w ∧ (w.word z : ℤ) = (datumOf (u.word floatA)).truncate lo hi k % 65536

/-! ## Strings -/

/-- A slot points to a string that starts where the concatenation buffer does or keeps clear of
it. -/
def Joinable (t : Target) (u : View) (z : UInt8) (s : List UInt8) : Prop :=
  u.Spells (workBytes 4) (u.pointer z) s ∧ (u.pointer z = t.concatenationBase ∨ ∀ i ≤ s.length,
    (u.pointer z + UInt16.ofNat i).toNat < t.concatenationBase.toNat ∨
      t.concatenationBase.toNat + Target.concatenationSize ≤ (u.pointer z + UInt16.ofNat i).toNat)

/-- Two strings are joined in the buffer as far as there is room, and the rest of the memory stays
as it is. -/
def joins (t : Target) (u w : View) : Prop :=
  returnsAddress t.concatenationBase w ∧ ∀ s₁ s₂, Joinable t u string1 s₁ →
    Joinable t u string2 s₂ →
    w.main = Contents.place u.main t.concatenationBase.toNat ((s₁ ++ s₂).take 255 ++ [0])

/-- The digits of a word are written behind an offset, which moves past them, and so is a zero. -/
def formats (t : Target) (u w : View) : Prop :=
  w.y.toNat = u.y.toNat + (spelled (toString (u.word intA))).length ∧
    w.main = Contents.place u.main (t.conversionBase.toNat + u.y.toNat)
      (spelled (toString (u.word intA)) ++ [0])

/-- A text is left in the conversion buffer, and the rest of the memory stays as it is. -/
def converts (t : Target) (text : View → String) (u w : View) : Prop :=
  returnsAddress t.conversionBase w ∧
    w.main = Contents.place u.main t.conversionBase.toNat (spelled (text u) ++ [0])

/-- The digits in front of a string. -/
def digits (s : List UInt8) : List UInt8 := s.takeWhile fun c => 0x30 ≤ c ∧ c ≤ 0x39

/-- The value of digits. -/
def decimalOf (s : List UInt8) : ℕ := s.foldl (fun n c => 10 * n + (c.toNat - 0x30)) 0

/-- A string without the blanks in front. -/
def unindented (s : List UInt8) : List UInt8 := s.dropWhile (· = 0x20)

/-- The value of the digits in front of a string, perhaps behind a minus sign. -/
def signedDecimal : List UInt8 → ℤ
  | 0x2D :: s => -decimalOf (digits s)
  | s => decimalOf (digits s)

/-- The digits of a string behind an index become a word. -/
def parses (u w : View) : Prop :=
  ∀ s, u.Spells (word intR ++ workBytes 3) (u.pointer string1) s → u.y.toNat ≤ s.length →
    w.word intR = decimalOf (digits (s.drop u.y.toNat)) % 65536

def readsWord (u w : View) : Prop :=
  returnsWord intR w ∧ ∀ s, u.Spells (word intR ++ workBytes 3) (u.pointer string1) s →
    w.word intR = decimalOf (digits (unindented s)) % 65536

def readsSignedWord (u w : View) : Prop :=
  returnsWord intR w ∧ ∀ s, u.Spells (word intR ++ workBytes 4) (u.pointer string1) s →
    (w.word intR : ℤ) = signedDecimal (unindented s) % 65536

/-! ## Random numbers -/

/-- The state of the generator. -/
def seedOf (u : View) : UInt16 := UInt16.ofNat (u.word seed)

/-- The generator makes one step. -/
def advances (u w : View) : Prop := seedOf w = nextSeed (seedOf u)

def drawsWord (u w : View) : Prop := returnsWord seed w ∧ advances u w

/-- A number of a range is drawn. -/
def drawsFromRange (u w : View) : Prop :=
  returnsWord intR w ∧ advances u w ∧ UInt16.ofNat (w.word intR) =
    rangeValue (nextSeed (seedOf u)) (UInt16.ofNat (u.word intA)) (UInt16.ofNat (u.word intB))

/-! ## The tables -/

/-- How deep a routine goes down the stack, what it may change and what it keeps. -/
structure Bounds where
  depth : Nat
  slots : List UInt8
  buffers : List Buffer := []
  keepsX : Bool := false
  keepsY : Bool := false

/-- Arithmetic with floating-point numbers uses up its operands. -/
def calculationBounds : Bounds where
  depth := 0
  slots := word floatR ++ word floatA ++ word floatB ++ workBytes 4

def bounds : RoutineId → Bounds
  | .mul8 => { depth := 0, slots := word intR ++ workBytes 2 }
  | .mul16 => { depth := 0, slots := word intR ++ workBytes 4 }
  | .divU8 => { depth := 0, slots := word intR ++ word intRemainder ++ workBytes 1 }
  | .divS8 =>
    { depth := 2
      slots := word intR ++ word intRemainder ++ word intA ++ word intB ++ workBytes 4 }
  | .divU16 => { depth := 0, slots := word intR ++ word intRemainder }
  | .divS16 =>
    { depth := 2
      slots := word intR ++ word intRemainder ++ word intA ++ word intB ++ workBytes 2 }
  | .fixedMul => { depth := 0, slots := word fixR ++ word fixA ++ word fixB ++ workBytes 1 }
  | .fixedDiv => { depth := 0, slots := word fixR ++ word fixA ++ word fixB ++ workBytes 6 }
  | .floatPack => { depth := 0, slots := word floatR ++ [work + 1, work + 2] }
  | .floatAdd | .floatSub | .floatMul | .floatDiv => calculationBounds
  | .floatCompare => { depth := 0, slots := word floatA ++ word floatB }
  | .floatOfMagnitude => { depth := 0, slots := word floatR ++ [work + 1, work + 2] }
  | .floatOfU16 => { depth := 0, slots := word floatR ++ workBytes 3 }
  | .floatOfI16 => { depth := 0, slots := word floatR ++ word intA ++ workBytes 3 }
  | .floatTruncate => { depth := 0, slots := word floatR ++ word floatA ++ workBytes 2 }
  | .floatSaturate => { depth := 0, slots := word intR ++ word floatR }
  | .floatToU16 | .floatToI16 =>
    { depth := 2, slots := word intR ++ word floatA ++ word floatR ++ workBytes 2 ++ [work + 5] }
  | .floatOfFixed => { depth := 2, slots := word floatR ++ word intA ++ workBytes 3 }
  | .floatToFixed =>
    { depth := 2
      slots := word fixR ++ word intR ++ word floatA ++ word floatR ++ workBytes 2 ++ [work + 5] }
  | .stringConcat => { depth := 0, slots := workBytes 4, buffers := [.concatenation] }
  | .stringEqual | .stringLength => { depth := 0, slots := [] }
  | .formatU16 => { depth := 0, slots := word intA ++ workBytes 3, buffers := [.conversion] }
  | .textOfU16 | .textOfI16 =>
    { depth := 2, slots := word intA ++ workBytes 3, buffers := [.conversion] }
  | .textOfFixed =>
    { depth := 2, slots := word intA ++ word fixA ++ workBytes 4, buffers := [.conversion] }
  | .textOfFloat =>
    { depth := 4
      slots :=
        word intA ++ word intR ++ word fixA ++ word fixR ++ word floatA ++ word floatR ++
          workBytes 6
      buffers := [.conversion] }
  | .textOfBool => { depth := 0, slots := [] }
  | .parseU16 => { depth := 0, slots := word intR ++ workBytes 3 }
  | .u16OfText => { depth := 2, slots := word intR ++ workBytes 3 }
  | .i16OfText => { depth := 2, slots := word intR ++ workBytes 4 }
  | .printString => { depth := 2, slots := word string1, keepsX := true }
  | .printLineEnd => { depth := 0, slots := [] }
  | .randomSeed => { depth := 0, slots := word seed, keepsX := true, keepsY := true }
  | .randomNext => { depth := 0, slots := word seed, keepsY := true }
  | .randomInit => { depth := 1, slots := word seed, buffers := [.voices] }
  | .stringAt => { depth := 0, slots := workBytes 1, keepsX := true }
  | .randomRange =>
    { depth := 2
      slots :=
        word intR ++ word intA ++ word intB ++ word intRemainder ++ workBytes 2 ++ word seed }

/-- What a routine relies on. -/
def starts (t : Target) : RoutineId → View → Prop
  | .formatU16 => hasRoom t
  | .printString | .printLineEnd => PrintsByTrap t
  | _ => fun _ => True

/-- What holds when a routine returns. -/
def ends (t : Target) : RoutineId → Since
  | .mul8 => multipliesBytes
  | .mul16 => multipliesWords
  | .divU8 => dividesBytes
  | .divS8 => dividesSignedBytes
  | .divU16 => dividesWords
  | .divS16 => dividesSignedWords
  | .fixedMul => calculatesFixed .mul
  | .fixedDiv => calculatesFixed .div
  | .floatPack => packs
  | .floatAdd => calculates .add
  | .floatSub => calculates .sub
  | .floatMul => calculates .mul
  | .floatDiv => calculates .div
  | .floatCompare => compares
  | .floatOfMagnitude => packsMagnitude
  | .floatOfU16 => packsWord
  | .floatOfI16 => packsSignedWord
  | .floatTruncate => truncates
  | .floatSaturate => saturates
  | .floatToU16 => truncatesTo intR 0 65535 1
  | .floatToI16 => truncatesTo intR (-32768) 32767 1
  | .floatOfFixed => roundsFixed
  | .floatToFixed => truncatesTo fixR (-32768) 32767 16
  | .stringConcat => joins t
  | .formatU16 => formats t
  | .textOfU16 => converts t fun u => toString (u.word intA)
  | .textOfI16 => converts t fun u => toString ((u.word intA : ℤ).bmod 65536)
  | .textOfFixed => converts t fun u => (fixedOf (u.word fixA)).text
  | .textOfFloat => converts t fun u =>
      (fixedOf ((datumOf (u.word floatA)).truncate (-32768) 32767 16 % 65536).toNat).text
  | .parseU16 => parses
  | .u16OfText => readsWord
  | .i16OfText => readsSignedWord
  | .randomNext => drawsWord
  | .randomRange => drawsFromRange
  | _ => fun _ _ => True

/-- What a routine may change, what it keeps and what holds at its end. -/
def conduct (t : Target) (id : RoutineId) : Conduct where
  depth := (bounds id).depth
  slots := (bounds id).slots
  areas := (bounds id).buffers.flatMap (Buffer.areas t)
  keepsX := (bounds id).keepsX
  keepsY := (bounds id).keepsY
  starts := starts t id
  ends := ends t id

/-- The conduct of arithmetic with floating-point numbers. -/
def calculation (op : Datum → Datum → Datum) : Conduct where
  depth := calculationBounds.depth
  slots := calculationBounds.slots
  ends := calculates op

end Breadbin.Routine
