/-!
# Types

The kinds of scalars, and the types that are made of them.
-/

namespace Breadbin

/-!
## Scalar kinds

Every value has a scalar kind.  Integers and truth values occupy one or two bytes; a string is the
two-byte address of a zero-terminated byte sequence.
-/

/-- The kind of a scalar.  A stored program may carry a code that names no kind. -/
inductive Kind where
  | invalid
  | void
  | u8
  | i8
  | u16
  | i16
  | fixed
  | float
  | bool
  | string
  | unknown (code : UInt8)
  deriving DecidableEq, Repr, Inhabited

namespace Kind

/-- The kinds by code, from zero on. -/
def known : List Kind :=
  [invalid, void, u8, i8, u16, i16, fixed, float, bool, string]

/-- The kind with a code. -/
def ofCode (code : UInt8) : Kind :=
  known[code.toNat]?.getD (unknown code)

/-- The code of a kind. -/
def code : Kind → UInt8
  | invalid => 0
  | void => 1
  | u8 => 2
  | i8 => 3
  | u16 => 4
  | i16 => 5
  | fixed => 6
  | float => 7
  | bool => 8
  | string => 9
  | unknown c => c

/-- The spelling of a kind. -/
def text : Kind → String
  | invalid => "invalid"
  | void => "void"
  | u8 => "u8"
  | i8 => "i8"
  | u16 => "u16"
  | i16 => "i16"
  | fixed => "fixed"
  | float => "float"
  | bool => "bool"
  | string => "string"
  | unknown c => s!"Kind({c.toNat})"

/-- The kind with a spelling; `invalid` is not a spelling of the language. -/
def parse? (s : String) : Option Kind :=
  (known.drop 1).find? fun k => k.text == s

/-- The four integer kinds. -/
def isInteger : Kind → Bool
  | u8 | i8 | u16 | i16 => true
  | _ => false

/-- The kinds that hold negative numbers. -/
def isSigned : Kind → Bool
  | i8 | i16 | fixed | float => true
  | _ => false

/-- The integer kinds without negative numbers. -/
def isUnsigned : Kind → Bool
  | u8 | u16 => true
  | _ => false

/-- Integers, fixed point and floating point. -/
def isNumeric (k : Kind) : Bool :=
  k.isInteger || k == fixed || k == float

/-- Integers and truth values. -/
def isIntegral (k : Kind) : Bool :=
  k.isInteger || k == bool

/-- The storage size in bytes. -/
def size : Kind → Nat
  | u8 | i8 | bool => 1
  | u16 | i16 | fixed | float | string => 2
  | _ => 0

/-- Whether values travel in two registers, low byte in A and high byte in X. -/
def isWide (k : Kind) : Bool := k.size == 2

/-- The smallest and the largest value of an integer kind. -/
def range : Kind → Int × Int
  | u8 => (0, 0xFF)
  | i8 => (-0x80, 0x7F)
  | u16 => (0, 0xFFFF)
  | i16 => (-0x8000, 0x7FFF)
  | bool => (0, 1)
  | _ => (0, 0)

/-- The natural kind of an integer without a type: the narrowest unsigned kind that holds it, or the
narrowest signed one for a negative number. -/
def ofLiteral (v : Int) : Kind :=
  if 0 ≤ v ∧ v ≤ 0xFF then u8
  else if 0 ≤ v ∧ v ≤ 0xFFFF then u16
  else if -0x80 ≤ v ∧ v < 0 then i8
  else i16

end Kind

/-!
## Types

A type is a scalar kind or an array of scalars of one kind.
-/

/-- A scalar, or an array of `length` scalars.  The length of a scalar means nothing, but a stored
program keeps it. -/
structure Ty where
  kind : Kind
  isArray : Bool := false
  length : UInt16 := 0
  deriving DecidableEq, Repr, Inhabited

namespace Ty

/-- The type of single values of a kind. -/
def scalar (k : Kind) : Ty := { kind := k }

/-- The type of arrays. -/
def array (element : Kind) (n : UInt16) : Ty := { kind := element, isArray := true, length := n }

/-- Whether the type names a kind at all. -/
def isValid (t : Ty) : Bool := t.kind != .invalid

/-- The element type of an array; a scalar is its own element. -/
def element (t : Ty) : Ty := scalar t.kind

/-- The storage size in bytes. -/
def size (t : Ty) : Nat :=
  if t.isArray then t.length.toNat * t.kind.size else t.kind.size

/-- Whether a value of the type occupies two registers. -/
def isWide (t : Ty) : Bool := !t.isArray && t.kind.isWide

/-- The spelling of a type. -/
def text (t : Ty) : String :=
  if t.isArray then s!"{t.kind.text}[{t.length.toNat}]" else t.kind.text

abbrev invalid : Ty := scalar .invalid
abbrev void : Ty := scalar .void
abbrev u8 : Ty := scalar .u8
abbrev i8 : Ty := scalar .i8
abbrev u16 : Ty := scalar .u16
abbrev i16 : Ty := scalar .i16
abbrev fixed : Ty := scalar .fixed
abbrev float : Ty := scalar .float
abbrev bool : Ty := scalar .bool
abbrev string : Ty := scalar .string

end Ty

end Breadbin
