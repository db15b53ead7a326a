import Breadbin.Ty.Operator

/-!
# Conversions

A conversion moves a value from one scalar kind to another.  Some happen by themselves where a value
is stored or combined, others only where a cast asks for them.
-/

namespace Breadbin

/-- The code a conversion is lowered to. -/
inductive ConversionKind where
  | none
  | zeroExtend
  | signExtend
  | truncate
  /-- the same width read with the other signedness -/
  | reinterpret
  | intToFixed
  | fixedToInt
  | intToFloat
  | floatToInt
  | fixedToFloat
  | floatToFixed
  | toBool
  | toText
  | fromText
  | invalid
  deriving DecidableEq, Repr, Inhabited

/-- The name of a kind of conversion. -/
def ConversionKind.text : ConversionKind → String
  | none => "none"
  | zeroExtend => "zero-extend"
  | signExtend => "sign-extend"
  | truncate => "truncate"
  | reinterpret => "reinterpret"
  | intToFixed => "int-to-fixed"
  | fixedToInt => "fixed-to-int"
  | intToFloat => "int-to-float"
  | floatToInt => "float-to-int"
  | fixedToFloat => "fixed-to-float"
  | floatToFixed => "float-to-fixed"
  | toBool => "to-bool"
  | toText => "to-string"
  | fromText => "from-string"
  | invalid => "invalid"

/-- A conversion between scalar kinds; `explicit` when only a cast may ask for it. -/
structure Conversion where
  source : Kind
  target : Kind
  kind : ConversionKind
  explicit : Bool := false
  deriving DecidableEq, Repr, Inhabited

namespace Conversion

/-- Whether the conversion needs no code. -/
def isNone (c : Conversion) : Bool := c.kind == .none

/-- A conversion in words. -/
def text (c : Conversion) : String :=
  s!"{c.source.text}->{c.target.text} ({c.kind.text})"

/-- The conversion that changes nothing. -/
def identity (k : Kind) : Conversion := { source := k, target := k, kind := .none }

/-- What a conversion between two kinds is lowered to; `invalid` when nothing does it. -/
def classify (source target : Kind) : ConversionKind :=
  if source = target then .none
  else if source = .void ∨ target = .void ∨ source = .invalid ∨ target = .invalid then .invalid
  else if target = .bool then
    if source = .string then .invalid else .toBool
  else if target = .string then .toText
  else if source = .string then
    if target.isInteger then .fromText else .invalid
  else if source.isIntegral && target.isInteger then
    if source.size < target.size then
      if source.isSigned then .signExtend else .zeroExtend
    else if target.size < source.size then .truncate
    else if source = .bool then .none
    else .reinterpret
  else if source.isIntegral && target = .fixed then .intToFixed
  else if source.isIntegral && target = .float then .intToFloat
  else if source = .fixed && target.isInteger then .fixedToInt
  else if source = .float && target.isInteger then .floatToInt
  else if source = .fixed && target = .float then .fixedToFloat
  else if source = .float && target = .fixed then .floatToFixed
  else .invalid

/-- Whether a value may flow into another kind without a cast.  Integers convert both ways within
their signedness; across it only from `u8` to `i16`, which keeps every value. -/
def isImplicit (source target : Kind) : Bool :=
  if source = target then source != .invalid && source != .void
  else if source = .bool then target.isInteger
  else if source.isInteger && target.isInteger then
    source.isSigned == target.isSigned || (source == .u8 && target == .i16)
  else if source.isInteger then target == .fixed || target == .float
  else if source = .fixed then target == .float
  else false

/-- Whether a cast may ask for the conversion. -/
def isCastable (source target : Kind) : Bool :=
  isImplicit source target ||
    match classify source target with
    | .invalid => false
    | .intToFixed | .intToFloat => source != .bool
    | _ => true

/-- The rank of a numeric kind among the numeric families. -/
def rank (k : Kind) : Nat :=
  if k.isInteger then 1
  else if k = .fixed then 2
  else if k = .float then 3
  else 0

/-- The common kind of two different integer kinds.  Across signedness only a narrower unsigned kind
meets a signed one. -/
def promoteIntegers? (a b : Kind) : Option Kind :=
  if a.isSigned = b.isSigned then some (if b.size ≤ a.size then a else b)
  else
    let (u, s) := if a.isSigned then (b, a) else (a, b)
    if u.size < s.size then some s else none

/-- The common kind of the operands of an arithmetic operation or a comparison. -/
def promote? (a b : Kind) : Option Kind :=
  if a = b then
    if a = .invalid ∨ a = .void then none else some a
  else if a = .bool then
    if b.isInteger then some b else none
  else if b = .bool then
    if a.isInteger then some a else none
  else if a.isInteger && b.isInteger then promoteIntegers? a b
  else if rank a = 0 ∨ rank b = 0 then none
  else some (if rank b < rank a then a else b)

/-- The common kind and whether there is one; kinds that do not meet give `invalid`, except that a
kind without values gives itself beside itself. -/
def promote (a b : Kind) : Kind × Bool :=
  match promote? a b with
  | some k => (k, true)
  | none => (if a = b then a else .invalid, false)

end Conversion

end Breadbin
