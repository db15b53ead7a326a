import Breadbin.Lowering.Emission
import Breadbin.Numeric.Half
import Breadbin.Text.Petscii

/-!
# Known values

The bits of literals and of constants, and conversions that are done before the program runs.
-/

namespace Breadbin

namespace Literal

/-- A truth value as bits. -/
def boolBits (b : Bool) : UInt16 := if b then 1 else 0

/-- The number a literal stands for. -/
def toDouble (v : Literal) : Numeric.Double :=
  if v.kind = .float then v.float else .ofInt v.int.toInt

/-- The lowest sixteen bits of the integer. -/
def intBits (v : Literal) : UInt16 := v.int.toUInt64.toUInt16

/-- Whether the literal is a number. -/
def isNumber (v : Literal) : Bool := v.kind = .int || v.kind = .float

/-- The bits of a literal in a kind, and whether it can have that kind. -/
def bits (k : Kind) (v : Literal) : UInt16 × Bool :=
  match k with
  | .u8 | .i8 =>
    if v.kind = .bool then (boolBits v.bool, true) else (v.intBits &&& 0xFF, v.kind = .int)
  | .u16 | .i16 =>
    if v.kind = .bool then (boolBits v.bool, true) else (v.intBits, v.kind = .int)
  | .fixed => ((Numeric.Fixed.ofDouble v.toDouble).1.raw, v.isNumber)
  | .float => ((Numeric.Half.ofDouble v.toDouble).raw, v.isNumber)
  | .bool =>
    if v.kind = .bool then (boolBits v.bool, true)
    else if v.kind = .int then (boolBits (v.int ≠ 0), true)
    else (0, false)
  | _ => (0, false)

/-- What is wrong with a literal that does not fit its own type. -/
def findings (type : Ty) (span : Span) (v : Literal) : List Diagnostic :=
  let i := v.int.toInt
  let outside := i < type.kind.range.1 || type.kind.range.2 < i
  (if v.kind = .int && type.kind.isInteger && outside then
    [.error .literalOutOfRange span s!"integer literal {i} does not fit in {type.text}"]
  else []) ++
  (if type.kind = .fixed && !Numeric.Fixed.inRange v.toDouble then
    [.warning .fixedRangeOverflow span
      s!"value {v.toDouble.general} is outside the fixed range and saturates"]
  else [])

/-- The value for checks of ranges. -/
def known? (v : Literal) : Option KnownValue :=
  match v.kind with
  | .int => some (.int v.int.toInt)
  | .float => some (.real v.float)
  | .bool => some (.int (if v.bool then 1 else 0))
  | .string | .unknown _ => none

end Literal

namespace Conversion

/-- The number that bits stand for in a kind. -/
def valueOfBits (bits : UInt16) (k : Kind) : Int :=
  match k with
  | .i8 => (bits.toNat : Int).bmod 256
  | .i16 => (bits.toNat : Int).bmod 65536
  | .u8 | .bool => bits.toNat % 256
  | _ => bits.toNat

/-- The bits of an integer in a kind. -/
def bitsOfInt (i : Int) (wide : Bool) : UInt16 :=
  let bits := UInt16.ofInt i
  if wide then bits else bits &&& 0xFF

/-- The bits of a value after a conversion that is done before the program runs.  What goes from a
fraction to an integer is left to the program. -/
def applyToBits (c : Conversion) (bits : UInt16) : Option UInt16 :=
  if c.target = .bool then
    some (Literal.boolBits ((if c.source = .float then bits &&& 0x7FFF else bits) ≠ 0))
  else if c.source.isIntegral then
    let v := valueOfBits bits c.source
    if c.target.isInteger then some (bitsOfInt v c.target.isWide)
    else if c.target = .fixed then some (Numeric.Fixed.ofInt v).1.raw
    else some (Numeric.Half.ofDouble (.ofInt v)).raw
  else if c.source = .fixed && c.target = .float then
    some (Numeric.Half.ofDouble (Numeric.Fixed.toDouble ⟨bits⟩)).raw
  else if c.source = .float && c.target = .fixed then some (Numeric.Half.toFixed ⟨bits⟩).raw
  else if c.source = c.target then some bits
  else none

end Conversion

namespace Lowering

/-- The literal behind an expression: the expression itself, or the value of the constant it names.
-/
def constantOf? (constants : List (SymbolId × Expr)) : Expr → Option Expr
  | .literal h v => some (.literal h v)
  | .var _ s => constants.lookup s
  | _ => none

/-- The literal behind an expression. -/
def constantOf (x : Expr) : Lower (Option Expr) := do
  return constantOf? (← get).constants x

/-- What is known of the value of an expression. -/
def knownValue (x : Expr) : Lower (Option KnownValue) := do
  return (← constantOf x).bind fun c => (c.literal?.getD {}).known?

/-- The address an expression is known to be. -/
def constantAddress (x : Expr) : Lower (Option UInt16) := do
  match ← constantOf x with
  | none => return none
  | some c =>
    let v := c.literal?.getD {}
    let i := v.int.toInt
    if v.kind = .int && 0 ≤ i && i ≤ 0xFFFF then return some (UInt16.ofInt i) else return none

/-- Whether an expression is itself a literal. -/
def isOwnLiteral : Expr → Bool
  | .literal _ _ => true
  | _ => false

/-- The bits of a converted expression, if they are known before the program runs. -/
def fold (x : Expr) (c : Conversion) : Lower (Option UInt16) := do
  match ← constantOf x with
  | none => return none
  | some e =>
    if c.source = .string || c.target = .string then return none
    let v := e.literal?.getD {}
    let (bits, ok) := v.bits c.source
    if !ok then return none
    if isOwnLiteral x then (v.findings x.type x.span).forM report
    return c.applyToBits bits

/-- The bytes of a string, cut to what a string can hold, with the zero at the end. -/
def stringBytes (s : Bytes) : Bytes :=
  (Text.Petscii.encode s).take Text.Petscii.maxLength ++ [0]

/-- Loads the address of a string constant. -/
def loadString (s : Bytes) : Lower Unit := do
  let l ← modifyGet fun e =>
    let (pool, stream, l) := e.pool.intern e.workspace.stream (stringBytes s)
    (l, { e with pool, workspace := { e.workspace with stream } })
  loadAddress (.ofLabel l)

/-- Loads a literal. -/
def lowerLiteral (h : ExprHead) (v : Literal) : Lower Unit := do
  if v.kind = .string then loadString v.text
  else
    let (bits, ok) := v.bits h.type.kind
    if !ok then
      reportError .typeMismatch h.span s!"literal cannot have type {h.type.text}"
    (v.findings h.type h.span).forM report
    loadConstant bits h.type.isWide

end Lowering

end Breadbin
