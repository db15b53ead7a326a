import Breadbin.Numeric.Double

/-!
# Shortest decimals

The text of a double-precision value is the decimal with the fewest digits that reads back as the
same value, and of those the one nearest to it.  The value lies in the interval of reals that round
to it; for every digit count the two neighbours on that decimal grid are tried in exact arithmetic.
-/

namespace Breadbin.Numeric

/-- `digits * 10 ^ exponent`, where `digits` has as many figures as the text needs. -/
structure Decimal where
  digits : Nat
  exponent : Int
  deriving DecidableEq, Repr

namespace Shortest

/-- The reals that round to `m * 2 ^ e`, in quarters of a unit: from `low` to `high`, ends included
when `closed`. -/
structure Interval where
  low : Nat
  mid : Nat
  high : Nat
  e : Int
  closed : Bool

/-- The interval of a finite non-zero value.  Below a power of two the neighbours stand half as far
apart. -/
def interval (m : Nat) (e : Int) : Interval :=
  let half := if m = 0x10000000000000 ∧ e ≠ -1074 then 1 else 2
  ⟨4 * m - half, 4 * m, 4 * m + 2, e - 2, m % 2 = 0⟩

/-- Numerator and denominator of `n * 2 ^ e * 10 ^ (-k)`. -/
def scaled (n : Nat) (e k : Int) : Nat × Nat :=
  (n * Nat.pow 2 e.toNat * Nat.pow 10 (-k).toNat, Nat.pow 2 (-e).toNat * Nat.pow 10 k.toNat)

/-- Whether `d * 10 ^ k` lies in the interval. -/
def Interval.holds (i : Interval) (d : Nat) (k : Int) : Bool :=
  let lo := scaled i.low i.e k
  let hi := scaled i.high i.e k
  if i.closed then lo.1 ≤ d * lo.2 ∧ d * hi.2 ≤ hi.1
  else lo.1 < d * lo.2 ∧ d * hi.2 < hi.1

/-- The nearer of the two neighbours of the value on the grid of multiples of `10 ^ k`, if one of
them lies in the interval. -/
def Interval.pick (i : Interval) (k : Int) : Option Nat :=
  let mid := scaled i.mid i.e k
  let d := mid.1 / mid.2
  match i.holds d k, i.holds (d + 1) k with
  | false, false => none
  | true, false => some d
  | false, true => some (d + 1)
  | true, true => some (roundDiv .even mid.1 mid.2)

/-- How many decimal digits a number has. -/
def digitCount (n : Nat) : Nat := (toString n).length

/-- The power of ten at or just below the value, or one off: the search starts there. -/
def leading (m : Nat) (e : Int) : Int :=
  let s := scaled m e 0
  if s.2 ≤ s.1 then (digitCount (s.1 / s.2) : Int) - 1
  else -((digitCount (s.2 / s.1) : Int))

/-- Tries the grids from coarse to fine. -/
def search (i : Interval) : Nat → Int → Option (Nat × Int)
  | 0, _ => none
  | n + 1, k =>
    match i.pick k with
    | some d => if d = 0 then search i n (k - 1) else some (d, k)
    | none => search i n (k - 1)

/-- Moves zeros at the end of the digits into the exponent. -/
def trim : Nat → Nat → Int → Decimal
  | 0, d, k => ⟨d, k⟩
  | n + 1, d, k => if d % 10 = 0 then trim n (d / 10) (k + 1) else ⟨d, k⟩

/-- The shortest decimal of `m * 2 ^ e` for a non-zero `m`. -/
def ofScaled (m : Nat) (e : Int) : Decimal :=
  match search (interval m e) 22 (leading m e + 1) with
  | some (d, k) => trim 20 d k
  | none => ⟨m, 0⟩

end Shortest

namespace Double


/-- A decimal point is put into the digits. -/
def positional (digits : String) (point : Int) : String :=
  if point ≤ 0 then
    "0." ++ String.ofList (List.replicate (-point).toNat '0') ++ digits
  else if (digits.length : Int) ≤ point then
    digits ++ String.ofList (List.replicate (point - digits.length).toNat '0')
  else
    (digits.take point.toNat).toString ++ "." ++ (digits.drop point.toNat).toString

/-- One digit, the others after a point, and a power of ten with at least two digits. -/
def scientific (digits : String) (exponent : Int) : String :=
  let more := (digits.drop 1).toString
  let mantissa := (digits.take 1).toString ++ (if more.isEmpty then "" else "." ++ more)
  let e := exponent.natAbs
  mantissa ++ "e" ++ (if exponent < 0 then "-" else "+") ++
    (if e < 10 then "0" else "") ++ toString e

/-- The general text of a value: the shortest digits, with a power of ten when the first digit
stands below the fourth place after the point or above the sixth before it. -/
def general (d : Double) : String :=
  match d.value with
  | .nan => "NaN"
  | .infinite neg => if neg then "-Inf" else "+Inf"
  | .finite neg m e =>
    let body :=
      if m = 0 then "0"
      else
        let s := Shortest.ofScaled m e
        let digits := toString s.digits
        let top : Int := (digits.length : Int) + s.exponent - 1
        if top < -4 ∨ 6 ≤ top then scientific digits top
        else positional digits (top + 1)
    if neg then "-" ++ body else body

end Double

end Breadbin.Numeric
