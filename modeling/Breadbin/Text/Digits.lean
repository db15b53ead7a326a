import Breadbin.Text.Bytes

/-!
# Numbers in fixed-width positional notation
-/

namespace Breadbin.Text

/-- The digit written for a value below sixteen. -/
def hexDigit (upper : Bool) (d : Nat) : Char :=
  if d < 10 then Char.ofNat (48 + d)
  else Char.ofNat ((if upper then 55 else 87) + d)

/-- The low `width` hexadecimal digits of a number, most significant first. -/
def hexFixed (upper : Bool) : (width : Nat) → Nat → List Char
  | 0, _ => []
  | w + 1, n => hexFixed upper w (n / 16) ++ [hexDigit upper (n % 16)]

/-- How many hexadecimal digits a number needs; zero needs one. -/
def hexWidth (n : Nat) : Nat :=
  Nat.log2 n / 4 + 1

/-- A number in hexadecimal with at least `width` digits. -/
def hexNat (upper : Bool) (width n : Nat) : String :=
  String.ofList (hexFixed upper (max width (hexWidth n)) n)

/-- Lower-case hexadecimal with at least `width` digits. -/
def hexLower (width n : Nat) : String := hexNat false width n

/-- Upper-case hexadecimal with at least `width` digits. -/
def hexUpper (width n : Nat) : String := hexNat true width n

/-- Decimal, filled up on the left with `fill` to at least `width` characters. -/
def decimalPadded (fill : Char) (width n : Nat) : String :=
  let digits := toString n
  String.ofList (List.replicate (width - digits.length) fill) ++ digits

/-- Spaces on the right up to `width` characters. -/
def padRight (width : Nat) (s : String) : String :=
  s ++ String.ofList (List.replicate (width - s.length) ' ')

/-- Spaces on the left up to `width` characters. -/
def padLeft (width : Nat) (s : String) : String :=
  String.ofList (List.replicate (width - s.length) ' ') ++ s

/-- `n` copies of a character. -/
def copies (n : Nat) (c : Char) : String :=
  String.ofList (List.replicate n c)

end Breadbin.Text

/-! ## Bytes as hexadecimal digits

Every byte is two digits, the high one first.
-/

namespace Breadbin.Text

/-- The digits of bytes. -/
def hexOf (s : Bytes) : String :=
  String.ofList (s.flatMap fun b => hexFixed false 2 b.toNat)

/-- The value of a digit in either case. -/
def digitValue? (c : Char) : Option Nat :=
  if '0' ≤ c ∧ c ≤ '9' then some (c.toNat - 48)
  else if 'a' ≤ c ∧ c ≤ 'f' then some (c.toNat - 87)
  else if 'A' ≤ c ∧ c ≤ 'F' then some (c.toNat - 55)
  else none

/-- The bytes of pairs of digits; reading stops where there is no pair. -/
def ofHexDigits (read : Array UInt8) : List Char → Array UInt8
  | high :: low :: rest =>
    match digitValue? high, digitValue? low with
    | some h, some l => ofHexDigits (read.push (UInt8.ofNat (16 * h + l))) rest
    | _, _ => read
  | _ => read

/-- The bytes that digits spell. -/
def ofHex (s : String) : Bytes := (ofHexDigits #[] s.toList).toList

end Breadbin.Text
