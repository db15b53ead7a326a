import Breadbin.Lowering.Constant

/-!
# Conversions

A conversion rewrites the value in A, or in A and X, from one kind to another.
-/

namespace Breadbin.Lowering

open ZeroPage

/-- Does something so many times. -/
def times : Nat → Lower Unit → Lower Unit
  | 0, _ => return ()
  | n + 1, act => do
    act
    times n act

/-- Turns every value but zero into 1.  Both zeros of a float are zero. -/
def toBool (k : Kind) : Lower Unit := do
  let done ← newLabel "bool"
  if k = .float then
    zp .sta scratch
    op .txa
    imm .and 0x7F
    zp .ora scratch
  else if k.isWide then
    zp .stx scratch
    zp .ora scratch
  else testA
  branchTo .beq done
  imm .lda 1
  place done

/-- Turns a scalar into text. -/
def toText (k : Kind) : Lower Unit := do
  match k with
  | .u8 | .u16 =>
    extend k
    storeSlot intA true
    callRoutine .textOfU16
  | .i8 | .i16 =>
    extend k
    storeSlot intA true
    callRoutine .textOfI16
  | .fixed =>
    storeSlot fixA true
    callRoutine .textOfFixed
  | .float =>
    storeSlot floatA true
    callRoutine .textOfFloat
  | .bool =>
    zp .sta intA
    callRoutine .textOfBool
  | .string | .void | .invalid | .unknown _ => return ()

/-- Turns a fixed-point number into the integer below it by shifting four places. -/
def fixedToInt (target : Kind) : Lower Unit := do
  storeSlot scratch true
  times 4 do
    zp .lda (scratch + 1)
    imm .cmp 0x80
    zp .ror (scratch + 1)
    zp .ror scratch
  loadSlot scratch target.isWide

/-- Turns an integer into a fixed-point number by shifting four places. -/
def intToFixed (source : Kind) : Lower Unit := do
  extend source
  storeSlot scratch true
  times 4 do
    zp .asl scratch
    zp .rol (scratch + 1)
  loadSlot scratch true

/-- Writes a conversion.  One that only a cast may ask for is refused elsewhere. -/
def convert (c : Conversion) (inCast : Bool) (span : Span) : Lower Unit := do
  if c.kind = .invalid || (c.explicit && !inCast) then throw (.unauthorized c span)
  match c.kind with
  | .none | .truncate | .reinterpret | .invalid => return ()
  | .zeroExtend | .signExtend => extend c.source
  | .intToFixed => intToFixed c.source
  | .fixedToInt => fixedToInt c.target
  | .intToFloat =>
    extend c.source
    storeSlot intA true
    callRoutine (if c.source.isSigned then .floatOfI16 else .floatOfU16)
  | .floatToInt =>
    storeSlot floatA true
    callRoutine (if c.target.isSigned then .floatToI16 else .floatToU16)
  | .fixedToFloat =>
    storeSlot fixA true
    callRoutine .floatOfFixed
  | .floatToFixed =>
    storeSlot floatA true
    callRoutine .floatToFixed
  | .toBool => toBool c.source
  | .toText => toText c.source
  | .fromText =>
    storeSlot string1 true
    callRoutine (if c.target.isSigned then .i16OfText else .u16OfText)

/-- An expression together with the code that leaves its value, in its own type. -/
structure Part where
  expr : Expr
  value : Lower Unit

namespace Part

/-- The type of the expression. -/
def type (x : Part) : Ty := x.expr.type

/-- Lowers an expression and converts its value, before the program runs where that is possible. -/
def converted (x : Part) (c : Conversion) (inCast : Bool) : Lower Unit := do
  match ← fold x.expr c with
  | some bits => loadConstant bits c.target.isWide
  | none =>
    x.value
    convert c inCast x.expr.span

/-- Lowers an expression whose value is wanted in a type; without one the value keeps its own. -/
def inType (x : Part) (want : Ty) : Lower Unit := do
  if x.expr.isAbsent then throw (.malformed "nil expression")
  if !want.isValid || want.kind = .void || want = x.type then x.value
  else
    let (c, ok) ← checked (.assign want x.type (← knownValue x.expr) x.expr.span)
    if ok then x.converted c false
    else
      x.value
      zero want

/-- Lowers an expression as a string; other scalars are turned into text. -/
def toString (x : Part) : Lower Unit := do
  if x.type.kind = .string && !x.type.isArray then x.value
  else
    match Conversion.ofCast x.type .string with
    | (_, some mismatch) =>
      reportError .typeMismatch x.expr.span mismatch.message
      zero .string
    | (c, none) => x.converted c true

end Part

/-- Lowers a cast. -/
def lowerCast (h : ExprHead) (x : Part) : Lower Unit := do
  let (c, ok) ← checked (.cast x.type h.type (← knownValue x.expr) h.span)
  if ok then x.converted c true
  else
    x.value
    zero h.type

end Breadbin.Lowering
