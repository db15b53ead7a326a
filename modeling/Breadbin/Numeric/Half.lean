import Breadbin.Numeric.Fixed

/-!
# Half-precision numbers

One sign, five exponent and ten fraction bits.
-/

namespace Breadbin.Numeric

/-- A half-precision number by its pattern. -/
structure Half where
  raw : UInt16
  deriving DecidableEq, Repr, Inhabited

namespace Half

/-- The sign bit. -/
def negative (h : Half) : Bool := 0x8000 ≤ h.raw

/-- The biased exponent field. -/
def exponentField (h : Half) : Nat := h.raw.toNat / 1024 % 32

/-- The fraction field. -/
def fractionField (h : Half) : Nat := h.raw.toNat % 1024

/-- Whether the pattern stands for no number. -/
def isNan (h : Half) : Bool := h.exponentField = 31 && h.fractionField != 0

/-- Whether the pattern is an infinity. -/
def isInfinite (h : Half) : Bool := h.exponentField = 31 && h.fractionField == 0

/-- The magnitude of a finite pattern as `m * 2 ^ e`. -/
def magnitude (h : Half) : Nat × Int :=
  match h.exponentField with
  | 0 => (h.fractionField, -24)
  | x => (1024 + h.fractionField, (x : Int) - 25)

/-- The pattern that stands for no number. -/
def nan : Half := ⟨0x7E00⟩

/-- Builds a pattern from the sign and the lower fifteen bits. -/
def ofSigned (negative : Bool) (lower : Nat) : Half :=
  ⟨UInt16.ofNat ((if negative then 0x8000 else 0) + lower)⟩

/-- The lower fifteen bits of the pattern nearest to `m * 2 ^ e`, a tie going to the even one.
Below the normal range the unit is `2 ^ -24`; what rounds past the largest number is infinite. -/
def lowerBits (m : Nat) (e : Int) : Nat :=
  let top : Int := (bitLength m : Int) + e - 1
  if top < -14 then roundScaled .even m (e + 24)
  else if 15 < top then 0x7C00
  else (top + 14).toNat * 1024 + roundScaled .even m (e + 10 - top)

/-- The nearest half-precision number, a tie going to the even one. -/
def ofDouble (d : Double) : Half :=
  match d.value with
  | .nan => nan
  | .infinite neg => ofSigned neg 0x7C00
  | .finite neg m e => if m = 0 then ofSigned neg 0 else ofSigned neg (lowerBits m e)

/-- The value, exactly. -/
def toDouble (h : Half) : Double :=
  if h.isNan then Double.quietNan
  else if h.isInfinite then Double.infinity h.negative
  else Double.ofScaled h.negative h.magnitude.1 h.magnitude.2

/-- The value in sixteenths, truncated towards zero and saturated; no number counts as zero. -/
def toFixed (h : Half) : Fixed :=
  if h.isNan then ⟨0⟩
  else if h.isInfinite then Fixed.ofMagnitude h.negative 32768
  else Fixed.ofMagnitude h.negative (floorScaled h.magnitude.1 (h.magnitude.2 + 4))

/-- The text of a half-precision number is that of its fixed-point value. -/
def text (h : Half) : String := h.toFixed.text

end Half

end Breadbin.Numeric
