import Breadbin.Text.Digits

/-!
# Numbers, moments and strings of configuration files

Numbers and moments are first cut out of the text by the characters that may occur in them, and then
checked as a whole.
-/

namespace Breadbin.Toml

/-- Whether a character is one of the ten digits. -/
def isDigit (c : Char) : Bool := '0' ≤ c && c ≤ '9'

/-- Whether a character is a digit of some base up to sixteen. -/
def isHexDigit (c : Char) : Bool := (Text.digitValue? c).isSome

/-- Every underscore stands between two digits, and a digit stands at the end. -/
def underscoresOk (cs : List Char) : Bool :=
  go false cs
where
  go (afterDigit : Bool) : List Char → Bool
    | [] => afterDigit
    | c :: rest => if c = '_' && !afterDigit then false else go (isHexDigit c) rest

/-- A zero stands in front of other digits. -/
def leadingZero : List Char → Bool
  | '0' :: c :: _ => !(c = 'b' || c = 'o' || c = 'x')
  | '-' :: '0' :: _ :: _ | '+' :: '0' :: _ :: _ => true
  | _ => false

/-- The value of digits in a base; underscores do not count. -/
def digitsValue? (base : Nat) (cs : List Char) : Option Nat :=
  match cs.filter (· ≠ '_') with
  | [] => none
  | ds => ds.foldlM (fun n c => do
      let d ← Text.digitValue? c
      if d < base then return base * n + d else none) 0

/-- The value of a number with a sign or a base. -/
def signedValue? : List Char → Option Int
  | '-' :: cs => do return -((← digitsValue? 10 cs) : Int)
  | '+' :: cs => do return ((← digitsValue? 10 cs) : Int)
  | '0' :: 'x' :: cs => do return ((← digitsValue? 16 cs) : Int)
  | '0' :: 'o' :: cs => do return ((← digitsValue? 8 cs) : Int)
  | '0' :: 'b' :: cs => do return ((← digitsValue? 2 cs) : Int)
  | cs => do return ((← digitsValue? 10 cs) : Int)

/-- The value of a whole number of at most 64 bits. -/
def int? (cs : List Char) : Option Int := do
  guard (underscoresOk cs && !leadingZero cs)
  let n ← signedValue? cs
  guard (-0x8000000000000000 ≤ n && n < 0x8000000000000000)
  return n

/-- What stands before the first character of a kind, and what follows that character. -/
def cutAt (p : Char → Bool) (cs : List Char) : List Char × Option (List Char) :=
  match cs.dropWhile (!p ·) with
  | [] => (cs, none)
  | _ :: rest => (cs.takeWhile (!p ·), some rest)

/-- Drops a sign. -/
def unsigned : List Char → List Char
  | '-' :: cs | '+' :: cs => cs
  | cs => cs

/-- The value of a nonempty row of digits that may hold underscores. -/
def part? (cs : List Char) : Option Nat := do
  guard (underscoresOk cs && cs.all fun c => isDigit c || c = '_')
  digitsValue? 10 cs

/-- `mantissa * 10 ^ exponent` is not beyond the largest double, even after rounding. -/
def inRange (mantissa : Nat) (exponent : Int) : Bool :=
  let size : Int := (Nat.toDigits 10 mantissa).length + exponent
  if mantissa = 0 || size < 300 then true
  else if 400 < size then false
  else
    mantissa * Nat.pow 10 exponent.toNat <
      (Nat.pow 2 1024 - Nat.pow 2 970) * Nat.pow 10 (-exponent).toNat

/-- The digits of a fraction, if there is one. -/
def places? : Option (List Char) → Option (List Char)
  | none => some []
  | some ds => (part? ds).map fun _ => ds.filter (· ≠ '_')

/-- The value of an exponent, if there is one. -/
def power? : Option (List Char) → Option Int
  | none => some 0
  | some ds => (part? (unsigned ds)).map fun n => if ds.head? = some '-' then -(n : Int) else n

/-- A number with a fraction or an exponent that a double can hold. -/
def isFloat (cs : List Char) : Bool :=
  let (number, exponent) := cutAt (fun c => c = 'e' || c = 'E') cs
  let (whole, fraction) := cutAt (· = '.') (unsigned number)
  match part? whole, places? fraction, power? exponent with
  | some _, some places, some power =>
    !leadingZero (cutAt (· = '.') number).1 &&
      ((digitsValue? 10 (whole ++ places)).any fun m => inRange m (power - places.length))
  | _, _, _ => false

/-- The value of exactly `n` digits at the front, and what follows them. -/
def fixedDigits? (n : Nat) (cs : List Char) : Option (Nat × List Char) := do
  let ds := cs.take n
  guard (ds.length = n && ds.all isDigit)
  return (← digitsValue? 10 ds, cs.drop n)

/-- Drops a character that has to stand at the front. -/
def expect? (c : Char) : List Char → Option (List Char)
  | d :: rest => if c = d then some rest else none
  | [] => none

/-- The number of days of a month. -/
def daysIn (year month : Nat) : Nat :=
  if month = 2 then
    if year % 4 = 0 && (year % 100 ≠ 0 || year % 400 = 0) then 29 else 28
  else if month = 4 || month = 6 || month = 9 || month = 11 then 30 else 31

/-- Drops a date. -/
def date? (cs : List Char) : Option (List Char) := do
  let (year, cs) ← fixedDigits? 4 cs
  let (month, cs) ← fixedDigits? 2 (← expect? '-' cs)
  let (day, cs) ← fixedDigits? 2 (← expect? '-' cs)
  guard (1 ≤ month && month ≤ 12 && 1 ≤ day && day ≤ daysIn year month)
  return cs

/-- Drops a time of day. -/
def time? (cs : List Char) : Option (List Char) := do
  let (hour, cs) ← fixedDigits? 2 cs
  let (minute, cs) ← fixedDigits? 2 (← expect? ':' cs)
  let (second, cs) ← fixedDigits? 2 (← expect? ':' cs)
  guard (hour < 24 && minute < 60 && second < 60)
  match cs with
  | '.' :: c :: rest => if isDigit c then some (rest.dropWhile isDigit) else none
  | _ => some cs

/-- Drops a distance from universal time. -/
def offset? : List Char → Option (List Char)
  | 'Z' :: rest => some rest
  | c :: rest => do
    guard (c = '+' || c = '-')
    let (hour, cs) ← fixedDigits? 2 rest
    let (minute, cs) ← fixedDigits? 2 (← expect? ':' cs)
    guard (hour ≤ 24 && minute < 60)
    return cs
  | [] => none

/-- A date, a time of day, or both, perhaps with the distance from universal time. -/
def isMoment (cs : List Char) : Bool :=
  let cs := cs.map fun c => if c = 't' || c = ' ' then 'T' else if c = 'z' then 'Z' else c
  match date? cs with
  | none => time? cs == some []
  | some [] => true
  | some rest =>
    match expect? 'T' rest >>= time? with
    | none => false
    | some rest => rest.isEmpty || offset? rest == some []

/-- The character that an escape stands for, and what follows the escape. -/
def escape? : List Char → Option (Char × List Char)
  | 'b' :: rest => some ('\x08', rest)
  | 't' :: rest => some ('\t', rest)
  | 'n' :: rest => some ('\n', rest)
  | 'f' :: rest => some ('\x0c', rest)
  | 'r' :: rest => some ('\r', rest)
  | '"' :: rest => some ('"', rest)
  | '\\' :: rest => some ('\\', rest)
  | 'u' :: rest => code? 4 rest
  | 'U' :: rest => code? 8 rest
  | _ => none
where
  code? (n : Nat) (cs : List Char) : Option (Char × List Char) := do
    let ds := cs.take n
    guard (ds.length = n)
    let value ← digitsValue? 16 (ds.filter (· ≠ '_'))
    guard (ds.all isHexDigit && Nat.isValidChar value)
    return (Char.ofNat value, cs.drop n)

end Breadbin.Toml
