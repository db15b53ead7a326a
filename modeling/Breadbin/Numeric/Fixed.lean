import Breadbin.Numeric.Double

/-!
# Fixed-point numbers

Twelve bits before the point and four after it, in two's complement: a number is stored as sixteen
times its value.
-/

namespace Breadbin.Numeric

/-- A fixed-point number by its stored pattern. -/
structure Fixed where
  raw : UInt16
  deriving DecidableEq, Repr, Inhabited

namespace Fixed

/-- Sixteen times the value. -/
def units (f : Fixed) : Int :=
  if f.raw < 0x8000 then f.raw.toNat else (f.raw.toNat : Int) - 65536

/-- The number nearest to `units / 16` that can be stored; what lies outside saturates. -/
def saturate (units : Int) : Fixed :=
  if units < -32768 then ⟨0x8000⟩
  else if 32767 < units then ⟨0x7FFF⟩
  else ⟨UInt16.ofNat (units % 65536).toNat⟩

/-- Whether sixteen times a value fits the stored pattern. -/
def fits (units : Int) : Bool :=
  -32768 ≤ units ∧ units ≤ 32767

/-- Rounds to the nearest sixteenth, a half going away from zero; says whether the result fits. -/
def ofDouble (d : Double) : Fixed × Bool :=
  match d.value with
  | .nan => (⟨0⟩, false)
  | .infinite neg => (saturate (if neg then -32769 else 32768), false)
  | .finite neg m e =>
    let units := signed neg (roundScaled .away m (e + 4))
    (saturate units, fits units)

/-- Moves an integer into the format; says whether it fits. -/
def ofInt (i : Int) : Fixed × Bool :=
  if i < -2048 then (saturate (-32768), false)
  else if 2047 < i then (saturate 32767, false)
  else (saturate (16 * i), true)

/-- Whether a value lies between the smallest and the largest number of the format. -/
def inRange (d : Double) : Bool :=
  d.geScaled (-32768) (-4) && d.leScaled 32767 (-4)

/-- The value, exactly. -/
def toDouble (f : Fixed) : Double :=
  Double.ofScaled (f.units < 0) f.units.natAbs (-4)

/-- The integer part, rounded down. -/
def toInt (f : Fixed) : Int := f.units.fdiv 16

/-- The digits of a number of sixteenths; four always suffice. -/
def fractionDigits : Nat → Nat → List Char
  | 0, _ => []
  | n + 1, sixteenths =>
    let d := sixteenths * 10
    let rest := d % 16
    Char.ofNat (48 + d / 16) :: (if rest = 0 then [] else fractionDigits n rest)

/-- The exact decimal, with at least one digit after the point. -/
def text (f : Fixed) : String :=
  let m := f.units.natAbs
  (if f.units < 0 then "-" else "") ++ toString (m / 16) ++ "."
    ++ String.ofList (fractionDigits 4 (m % 16))

/-- A magnitude with its sign, saturated. -/
def ofMagnitude (negative : Bool) (m : Nat) : Fixed :=
  saturate (signed negative m)

/-- The product, its magnitude rounded down to a sixteenth. -/
def mul (f g : Fixed) : Fixed :=
  ofMagnitude ((f.units < 0) != (g.units < 0)) (f.units.natAbs * g.units.natAbs / 16)

/-- The quotient, its magnitude rounded down to a sixteenth.  Division by zero saturates towards the
sign of the dividend. -/
def div (f g : Fixed) : Fixed :=
  if g.units = 0 then ofMagnitude (f.units < 0) 32768
  else ofMagnitude ((f.units < 0) != (g.units < 0)) (f.units.natAbs * 16 / g.units.natAbs)

end Fixed

end Breadbin.Numeric
