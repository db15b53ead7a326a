import Breadbin.Ty.Basic

/-!
# Operators

Each operator accepts families of kinds on either side; its entry says what the common kind of both
operands may be and how the result is typed.
-/

namespace Breadbin

/-- A binary operator.  A stored program may carry a code that names none. -/
inductive BinaryOp where
  | add | sub | mul | div | mod
  | bitAnd | bitOr | bitXor
  | shl | shr
  | eq | ne | lt | le | gt | ge
  | and | or
  | unknown (code : UInt8)
  deriving DecidableEq, Repr, Inhabited

/-- An operator with one operand. -/
inductive UnaryOp where
  | neg | not | bitNot
  | unknown (code : UInt8)
  deriving DecidableEq, Repr, Inhabited

/-- A set of families of kinds, one bit each. -/
structure Families where
  mask : UInt16
  deriving DecidableEq, Repr, Inhabited

namespace Families

def none : Families := ⟨0⟩
def unsigned : Families := ⟨2⟩
def signed : Families := ⟨4⟩
def fixed : Families := ⟨8⟩
def float : Families := ⟨16⟩
def bool : Families := ⟨32⟩
def string : Families := ⟨64⟩

/-- All kinds of both sets. -/
def union (a b : Families) : Families := ⟨a.mask ||| b.mask⟩

def integer : Families := unsigned.union signed
def numeric : Families := (integer.union fixed).union float
def any : Families := (numeric.union bool).union string

/-- A non-empty set within another. -/
def within (f set : Families) : Bool :=
  f.mask != 0 && f.mask &&& set.mask == f.mask

end Families

/-- The family of a kind; a kind without values has none. -/
def Kind.family : Kind → Families
  | .u8 | .u16 => .unsigned
  | .i8 | .i16 => .signed
  | .fixed => .fixed
  | .float => .float
  | .bool => .bool
  | .string => .string
  | _ => .none

/-- How the result of a binary operation is typed. -/
inductive ResultRule where
  /-- the common type of the operands -/
  | common
  /-- the type of the left operand -/
  | left
  /-- a truth value -/
  | truth
  deriving DecidableEq, Repr

/-- What a binary operator accepts.  An empty set of common families means no restriction. -/
structure BinaryRule where
  left : Families
  right : Families
  common : Families
  result : ResultRule
  deriving DecidableEq, Repr

namespace BinaryOp

/-- The operators by code, from zero on. -/
def known : List BinaryOp :=
  [add, sub, mul, div, mod, bitAnd, bitOr, bitXor, shl, shr, eq, ne, lt, le, gt, ge, and, or]

/-- The operator with a code. -/
def ofCode (code : UInt8) : BinaryOp :=
  known[code.toNat]?.getD (unknown code)

/-- The code of an operator. -/
def code : BinaryOp → UInt8
  | add => 0 | sub => 1 | mul => 2 | div => 3 | mod => 4
  | bitAnd => 5 | bitOr => 6 | bitXor => 7
  | shl => 8 | shr => 9
  | eq => 10 | ne => 11 | lt => 12 | le => 13 | gt => 14 | ge => 15
  | and => 16 | or => 17
  | unknown c => c

/-- The spelling of an operator. -/
def text : BinaryOp → String
  | add => "+" | sub => "-" | mul => "*" | div => "/" | mod => "%"
  | bitAnd => "&" | bitOr => "|" | bitXor => "^"
  | shl => "<<" | shr => ">>"
  | eq => "==" | ne => "!=" | lt => "<" | le => "<=" | gt => ">" | ge => ">="
  | and => "and" | or => "or"
  | unknown c => s!"BinaryOp({c.toNat})"

/-- The operator with a spelling. -/
def parse? (s : String) : Option BinaryOp :=
  known.find? fun op => op.text == s

/-- The six relations. -/
def isComparison : BinaryOp → Bool
  | eq | ne | lt | le | gt | ge => true
  | _ => false

/-- The operators that decide whether their right side is evaluated. -/
def isLogical : BinaryOp → Bool
  | and | or => true
  | _ => false

/-- The two shifts. -/
def isShift : BinaryOp → Bool
  | shl | shr => true
  | _ => false

/-- What an operator accepts. -/
def rule? : BinaryOp → Option BinaryRule
  | add => some ⟨.any, .any, Families.numeric.union .string, .common⟩
  | sub | mul | div =>
    some ⟨Families.numeric.union .bool, Families.numeric.union .bool, .numeric, .common⟩
  | mod =>
    let side := (Families.integer.union .fixed).union .bool
    some ⟨side, side, Families.integer.union .fixed, .common⟩
  | bitAnd | bitOr | bitXor => some ⟨.integer, .integer, .integer, .common⟩
  | shl | shr => some ⟨.integer, .integer, .none, .left⟩
  | eq | ne => some ⟨.any, .any, .none, .truth⟩
  | lt | le | gt | ge => some ⟨.numeric, .numeric, .none, .truth⟩
  | and | or => some ⟨.bool, .bool, .none, .truth⟩
  | unknown _ => none

end BinaryOp

namespace UnaryOp

/-- The operator with a code. -/
def ofCode (code : UInt8) : UnaryOp :=
  [neg, not, bitNot][code.toNat]?.getD (unknown code)

/-- The code of an operator. -/
def code : UnaryOp → UInt8
  | neg => 0
  | not => 1
  | bitNot => 2
  | unknown c => c

/-- The spelling of an operator. -/
def text : UnaryOp → String
  | neg => "-"
  | not => "not"
  | bitNot => "~"
  | unknown c => s!"UnaryOp({c.toNat})"

/-- The kinds an operator accepts; the result has the kind of the operand. -/
def operand? : UnaryOp → Option Families
  | neg => some .numeric
  | not => some .bool
  | bitNot => some .integer
  | unknown _ => none

end UnaryOp

end Breadbin
