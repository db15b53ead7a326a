/-!
# The routines of the library

Compiled programs call a fixed set of routines.  Each has a name, the routines it calls itself and a
contract that says where it takes its inputs and leaves its outputs.
-/

namespace Breadbin

/-- A routine of the library, in the order in which the library is emitted. -/
inductive RoutineId where
  | mul8
  | mul16
  | divU8
  | divS8
  | divU16
  | divS16
  | fixedMul
  | fixedDiv
  | floatPack
  | floatAdd
  | floatSub
  | floatMul
  | floatDiv
  | floatCompare
  | floatOfMagnitude
  | floatOfU16
  | floatOfI16
  | floatTruncate
  | floatSaturate
  | floatToU16
  | floatToI16
  | floatOfFixed
  | floatToFixed
  | stringConcat
  | stringEqual
  | stringLength
  | formatU16
  | textOfU16
  | textOfI16
  | textOfFixed
  | textOfFloat
  | textOfBool
  | parseU16
  | u16OfText
  | i16OfText
  | printString
  | printLineEnd
  | randomSeed
  | randomNext
  | randomInit
  | stringAt
  | randomRange
  deriving DecidableEq, Repr, Inhabited

/-- Where a routine takes its inputs, leaves its outputs, and what it changes besides. -/
structure Contract where
  inputs : String := ""
  outputs : String := ""
  clobbers : String := ""
  preserves : String := ""
  deriving DecidableEq, Repr, Inhabited

namespace RoutineId

/-- All routines in order. -/
def all : List RoutineId :=
  [mul8, mul16, divU8, divS8, divU16, divS16, fixedMul,
    fixedDiv, floatPack, floatAdd, floatSub, floatMul, floatDiv, floatCompare,
    floatOfMagnitude, floatOfU16, floatOfI16, floatTruncate, floatSaturate, floatToU16, floatToI16,
    floatOfFixed, floatToFixed, stringConcat, stringEqual, stringLength, formatU16, textOfU16,
    textOfI16, textOfFixed, textOfFloat, textOfBool, parseU16, u16OfText, i16OfText,
    printString, printLineEnd, randomSeed, randomNext, randomInit, stringAt, randomRange]

/-- The number of a routine. -/
def number (id : RoutineId) : Nat := all.idxOf id

/-- The routine with a number. -/
def ofNumber? (n : Nat) : Option RoutineId := all[n]?

/-- The name a routine has in listings. -/
def name : RoutineId → String
  | mul8 => "mul8"
  | mul16 => "mul16"
  | divU8 => "divu8"
  | divS8 => "divs8"
  | divU16 => "divu16"
  | divS16 => "divs16"
  | fixedMul => "fix_mul"
  | fixedDiv => "fix_div"
  | floatPack => "flt_pack"
  | floatAdd => "flt_add"
  | floatSub => "flt_sub"
  | floatMul => "flt_mul"
  | floatDiv => "flt_div"
  | floatCompare => "flt_cmp"
  | floatOfMagnitude => "flt_from_int"
  | floatOfU16 => "u16_to_flt"
  | floatOfI16 => "i16_to_flt"
  | floatTruncate => "flt_trunc"
  | floatSaturate => "flt_sat_i16"
  | floatToU16 => "flt_to_u16"
  | floatToI16 => "flt_to_i16"
  | floatOfFixed => "fix_to_flt"
  | floatToFixed => "flt_to_fix"
  | stringConcat => "str_concat"
  | stringEqual => "str_eq"
  | stringLength => "str_len"
  | formatU16 => "fmt_u16"
  | textOfU16 => "u16_to_str"
  | textOfI16 => "i16_to_str"
  | textOfFixed => "fix_to_str"
  | textOfFloat => "flt_to_str"
  | textOfBool => "bool_to_str"
  | parseU16 => "parse_u16"
  | u16OfText => "str_to_u16"
  | i16OfText => "str_to_i16"
  | printString => "print_str"
  | printLineEnd => "print_nl"
  | randomSeed => "rand_seed"
  | randomNext => "rand_next"
  | randomInit => "rand_init"
  | stringAt => "str_at"
  | randomRange => "rand_range"

/-- The routine with a name. -/
def ofName? (s : String) : Option RoutineId := all.find? fun id => id.name == s

/-- The name of the routine with a number; a number past the last one is shown as such. -/
def textOfNumber (n : Nat) : String :=
  ((ofNumber? n).map name).getD s!"ID({n})"

/-- The routines that a routine calls. -/
def calls : RoutineId → List RoutineId
  | divS8 => [divU8]
  | divS16 => [divU16]
  | floatAdd => [floatPack]
  | floatSub => [floatAdd]
  | floatMul => [floatPack]
  | floatDiv => [floatPack]
  | floatOfMagnitude => [floatPack]
  | floatOfU16 => [floatOfMagnitude]
  | floatOfI16 => [floatOfMagnitude]
  | floatToU16 => [floatTruncate]
  | floatToI16 => [floatTruncate, floatSaturate]
  | floatOfFixed => [floatOfI16]
  | floatToFixed => [floatTruncate, floatSaturate]
  | textOfU16 => [formatU16]
  | textOfI16 => [formatU16]
  | textOfFixed => [formatU16]
  | textOfFloat => [floatToFixed, textOfFixed]
  | u16OfText => [parseU16]
  | i16OfText => [parseU16]
  | randomInit => [randomSeed]
  | randomRange => [randomNext, divU16]
  | _ => []

/-- Whether a routine only serves other routines. -/
def isInternal : RoutineId → Bool
  | floatPack | floatOfMagnitude | floatTruncate | floatSaturate | formatU16 | parseU16 => true
  | _ => false

/-- How a routine is called. -/
def contract : RoutineId → Contract
  | mul8 =>
    { inputs := "IntA, IntB (bytes)"
      outputs := "A = IntR = low byte of the product"
      clobbers := "X, Work..Work+1" }
  | mul16 =>
    { inputs := "IntA, IntB"
      outputs := "A/X = IntR = low word of the product"
      clobbers := "Y, Work..Work+3" }
  | divU8 =>
    { inputs := "IntA dividend, IntB divisor (bytes)"
      outputs := "A = IntR = quotient, IntRem = remainder"
      clobbers := "X, Work" }
  | divS8 =>
    { inputs := "IntA dividend, IntB divisor (signed bytes)"
      outputs := "A = IntR = quotient, IntRem = remainder"
      clobbers := "X, IntA, IntB, Work..Work+3" }
  | divU16 =>
    { inputs := "IntA dividend, IntB divisor"
      outputs := "A/X = IntR = quotient, IntRem = remainder"
      clobbers := "Y" }
  | divS16 =>
    { inputs := "IntA dividend, IntB divisor (signed)"
      outputs := "A/X = IntR = quotient, IntRem = remainder"
      clobbers := "Y, IntA, IntB, Work..Work+1" }
  | fixedMul =>
    { inputs := "FixA, FixB"
      outputs := "A/X = FixR = saturated product"
      clobbers := "X, FixA, FixB, Work" }
  | fixedDiv =>
    { inputs := "FixA dividend, FixB divisor"
      outputs := "A/X = FixR = saturated quotient"
      clobbers := "X, FixA, FixB, Work..Work+5" }
  | floatPack =>
    { inputs := "Work sign, Work+1 exponent, FltR mantissa"
      outputs := "A/X = FltR = rounded half"
      clobbers := "Work+1..Work+2" }
  | floatAdd =>
    { inputs := "FltA, FltB"
      outputs := "A/X = FltR = FltA + FltB"
      clobbers := "X, Y, FltA, FltB, Work..Work+3" }
  | floatSub =>
    { inputs := "FltA, FltB"
      outputs := "A/X = FltR = FltA - FltB"
      clobbers := "X, Y, FltA, FltB, Work..Work+3" }
  | floatMul =>
    { inputs := "FltA, FltB"
      outputs := "A/X = FltR = FltA * FltB"
      clobbers := "X, FltA, FltB, Work..Work+3" }
  | floatDiv =>
    { inputs := "FltA, FltB"
      outputs := "A/X = FltR = FltA / FltB"
      clobbers := "Y, FltA, FltB, Work..Work+3" }
  | floatCompare =>
    { inputs := "FltA, FltB"
      outputs := "A = $FF (less), 0 (equal) or 1 (greater or unordered)"
      clobbers := "FltA, FltB" }
  | floatOfMagnitude =>
    { inputs := "Work sign, IntA magnitude"
      outputs := "A/X = FltR"
      clobbers := "Work+1..Work+2" }
  | floatOfU16 => { inputs := "IntA", outputs := "A/X = FltR", clobbers := "Work..Work+2" }
  | floatOfI16 =>
    { inputs := "IntA (signed)"
      outputs := "A/X = FltR"
      clobbers := "IntA, Work..Work+2" }
  | floatTruncate =>
    { inputs := "FltA, Work+5 bias (28 integer, 24 fixed)"
      outputs := "Work sign, FltR magnitude ($FFFF when too large)"
      clobbers := "X, FltA, Work+1" }
  | floatSaturate =>
    { inputs := "Work sign, FltR magnitude"
      outputs := "A/X = IntR, saturated to the i16 range"
      clobbers := "FltR" }
  | floatToU16 =>
    { inputs := "FltA"
      outputs := "A/X = IntR, truncated and saturated, negatives give 0"
      clobbers := "X, FltA, FltR, Work..Work+1, Work+5" }
  | floatToI16 =>
    { inputs := "FltA"
      outputs := "A/X = IntR, truncated and saturated"
      clobbers := "X, FltA, FltR, Work..Work+1, Work+5" }
  | floatOfFixed => { inputs := "FixA", outputs := "A/X = FltR", clobbers := "IntA, Work..Work+2" }
  | floatToFixed =>
    { inputs := "FltA"
      outputs := "A/X = FixR, truncated and saturated"
      clobbers := "X, IntR, FltA, FltR, Work..Work+1, Work+5" }
  | stringConcat =>
    { inputs := "StrP1 left, StrP2 right"
      outputs := "A/X = concatenation buffer"
      clobbers := "Y, Work..Work+3" }
  | stringEqual =>
    { inputs := "StrP1, StrP2"
      outputs := "A = 1 when equal, else 0"
      clobbers := "Y" }
  | stringLength => { inputs := "StrP1", outputs := "A = length", clobbers := "Y" }
  | formatU16 =>
    { inputs := "IntA, Y = offset into the conversion buffer"
      outputs := "Y = offset of the terminator"
      clobbers := "X, IntA, Work..Work+2" }
  | textOfU16 =>
    { inputs := "IntA"
      outputs := "A/X = conversion buffer"
      clobbers := "X, Y, IntA, Work..Work+2" }
  | textOfI16 =>
    { inputs := "IntA (signed)"
      outputs := "A/X = conversion buffer"
      clobbers := "X, Y, IntA, Work..Work+2" }
  | textOfFixed =>
    { inputs := "FixA"
      outputs := "A/X = conversion buffer"
      clobbers := "X, Y, IntA, FixA, Work..Work+3" }
  | textOfFloat =>
    { inputs := "FltA"
      outputs := "A/X = conversion buffer"
      clobbers := "X, Y, IntA, IntR, FixA, FixR, FltA, FltR, Work..Work+5" }
  | textOfBool => { inputs := "IntA (byte)", outputs := "A/X = constant \"TRUE\" or \"FALSE\"" }
  | parseU16 =>
    { inputs := "StrP1, Y = first character"
      outputs := "IntR = value of the leading decimal digits, modulo 65536"
      clobbers := "Y, Work..Work+2" }
  | u16OfText => { inputs := "StrP1", outputs := "A/X = IntR", clobbers := "Y, Work..Work+2" }
  | i16OfText => { inputs := "StrP1", outputs := "A/X = IntR", clobbers := "X, Y, Work..Work+3" }
  | printString => { inputs := "A/X = string", clobbers := "A, Y, StrP1", preserves := "X" }
  | printLineEnd => { clobbers := "A" }
  | randomSeed => { inputs := "A/X = seed", outputs := "Seed", preserves := "X, Y" }
  | randomNext => { inputs := "Seed", outputs := "A/X = Seed = next state", preserves := "Y" }
  | randomInit => { outputs := "Seed", clobbers := "A, X" }
  | stringAt =>
    { inputs := "StrP1, A = index"
      outputs := "A = character, 0 at or past the end"
      clobbers := "Y, Work"
      preserves := "X" }
  | randomRange =>
    { inputs := "IntA = from, IntB = to"
      outputs := "A/X = IntR = from + next state mod (to - from + 1)"
      clobbers := "Y, IntA, IntB, IntRem, Work, Work+1" }

/-- A routine behind all the routines it needs, each of them once. -/
def postorder (id : RoutineId) : List RoutineId :=
  (expand 6 id).eraseDups
where
  /-- The calls of a routine, unfolded to a depth no chain of calls exceeds. -/
  expand : Nat → RoutineId → List RoutineId
    | 0, id => [id]
    | n + 1, id => (calls id).flatMap (expand n) ++ [id]

/-- A routine and all the routines it needs, in order. -/
def closure (id : RoutineId) : List RoutineId :=
  all.filter (postorder id).contains

end RoutineId

end Breadbin
