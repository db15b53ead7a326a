import Breadbin.Text.Digits

/-!
# Double-precision values

Literals of the source language are written as double-precision values.  They are kept as bit
patterns, so that a pattern survives storage unchanged, and read as exact dyadic numbers.
-/

/-! ## Rounding of quotients and scaled integers

All arithmetic on non-integers is exact: a magnitude is a natural number times a power of two, and
rounding happens once, by an explicit rule for ties.
-/

namespace Breadbin.Numeric

/-- Where a value exactly between two neighbours goes. -/
inductive Tie where
  | even
  | away
  deriving DecidableEq, Repr

/-- The natural number nearest to `num / den`. -/
def roundDiv (tie : Tie) (num den : Nat) : Nat :=
  let q := num / den
  let r := num % den
  if 2 * r < den then q
  else if den < 2 * r then q + 1
  else
    match tie with
    | .away => q + 1
    | .even => if q % 2 = 0 then q else q + 1

/-- The natural number nearest to `m * 2 ^ e`. -/
def roundScaled (tie : Tie) (m : Nat) (e : Int) : Nat :=
  if 0 ≤ e then m * Nat.pow 2 e.toNat else roundDiv tie m (Nat.pow 2 (-e).toNat)

/-- The largest natural number not above `m * 2 ^ e`. -/
def floorScaled (m : Nat) (e : Int) : Nat :=
  if 0 ≤ e then m * Nat.pow 2 e.toNat else m / Nat.pow 2 (-e).toNat

/-- The number of binary digits; zero has none. -/
def bitLength (n : Nat) : Nat :=
  if n = 0 then 0 else Nat.log2 n + 1

/-- The value with its sign. -/
def signed (negative : Bool) (m : Nat) : Int :=
  if negative then -(m : Int) else m

end Breadbin.Numeric

namespace Breadbin.Numeric

/-- A bit pattern with one sign, eleven exponent and fifty-two fraction bits. -/
structure Double where
  bits : UInt64
  deriving DecidableEq, Repr, Inhabited

namespace Double

/-- What a pattern stands for; a finite one is `± m * 2 ^ e`. -/
inductive Value where
  | nan
  | infinite (negative : Bool)
  | finite (negative : Bool) (m : Nat) (e : Int)
  deriving DecidableEq, Repr

/-- The number with all bits clear. -/
def zero : Double := ⟨0⟩

/-- The sign bit. -/
def negative (d : Double) : Bool :=
  d.bits.toNat / 0x8000000000000000 = 1

/-- The biased exponent field. -/
def exponentField (d : Double) : Nat :=
  d.bits.toNat / 0x10000000000000 % 0x800

/-- The fraction field. -/
def fractionField (d : Double) : Nat :=
  d.bits.toNat % 0x10000000000000

/-- Reads a pattern. -/
def value (d : Double) : Value :=
  let f := d.fractionField
  match d.exponentField with
  | 0 => .finite d.negative f (-1074)
  | 2047 => if f = 0 then .infinite d.negative else .nan
  | x => .finite d.negative (0x10000000000000 + f) ((x : Int) - 1075)

/-- Builds a pattern from its three fields. -/
def ofFields (negative : Bool) (exponent fraction : Nat) : Double :=
  ⟨UInt64.ofNat ((if negative then 0x8000000000000000 else 0) +
    exponent * 0x10000000000000 + fraction)⟩

/-- The pattern nearest to `± m * 2 ^ e`, a tie going to the even one.  The fraction may carry into
the exponent field, which then counts up to the next binade or to infinity. -/
def ofScaled (negative : Bool) (m : Nat) (e : Int) : Double :=
  if m = 0 then ofFields negative 0 0
  else
    let top : Int := (bitLength m : Int) + e
    let low : Int := max (top - 53) (-1074)
    let r := roundScaled .even m (e - low)
    let raw := (low + 1074).toNat * 0x10000000000000 + r
    if 2047 * 0x10000000000000 ≤ raw then ofFields negative 2047 0
    else ofFields negative 0 raw

/-- The pattern nearest to an integer. -/
def ofInt (i : Int) : Double :=
  ofScaled (i < 0) i.natAbs 0

/-- The pattern nearest to `± n / d`.  The quotient is cut after enough binary digits, and a last
digit records whether anything was cut off. -/
def ofRatio (negative : Bool) (n d : Nat) : Double :=
  let extra := 64 + bitLength d
  let q := n * Nat.pow 2 extra / d
  let rest := if n * Nat.pow 2 extra % d = 0 then 0 else 1
  ofScaled negative (2 * q + rest) (-(extra : Int) - 1)

/-- Infinity of either sign. -/
def infinity (negative : Bool) : Double := ofFields negative 2047 0

/-- A quiet not-a-number pattern. -/
def quietNan : Double := ⟨0x7FF8000000000001⟩

/-- Whether the pattern stands for no number. -/
def isNan (d : Double) : Bool :=
  d.value = .nan

/-- `± m * 2 ^ e ≤ bound * 2 ^ low` for finite values, exactly. -/
def leScaled (d : Double) (bound : Int) (low : Int) : Bool :=
  match d.value with
  | .nan => false
  | .infinite neg => neg
  | .finite neg m e =>
    if low ≤ e then signed neg (m * Nat.pow 2 (e - low).toNat) ≤ bound
    else signed neg m ≤ bound * Nat.pow 2 (low - e).toNat

/-- `bound * 2 ^ low ≤ ± m * 2 ^ e` for finite values, exactly. -/
def geScaled (d : Double) (bound : Int) (low : Int) : Bool :=
  match d.value with
  | .nan => false
  | .infinite neg => !neg
  | .finite neg m e =>
    if low ≤ e then bound ≤ signed neg (m * Nat.pow 2 (e - low).toNat)
    else bound * Nat.pow 2 (low - e).toNat ≤ signed neg m

end Double

end Breadbin.Numeric

/-! ## Numbers with a fixed number of decimal places

The exact value of a double is rounded to the nearest decimal with so many places, a half going to
the even neighbour.
-/

namespace Breadbin.Numeric

/-- A natural number of units of the last place, written with a point. -/
def pointed (places n : Nat) : String :=
  let whole := toString (n / Nat.pow 10 places)
  if places = 0 then whole
  else whole ++ "." ++ Text.decimalPadded '0' places (n % Nat.pow 10 places)

/-- The text of a double with so many decimal places. -/
def Double.withPlaces (places : Nat) (d : Double) : String :=
  match d.value with
  | .nan => "NaN"
  | .infinite negative => if negative then "-Inf" else "+Inf"
  | .finite negative m e =>
    let sign := if negative then "-" else ""
    sign ++ pointed places (roundScaled .even (m * Nat.pow 10 places) e)

end Breadbin.Numeric
