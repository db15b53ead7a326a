import Breadbin.Diagnostic.Basic
import Breadbin.Numeric.Fixed
import Breadbin.Numeric.Shortest
import Breadbin.Ty.Basic
import Breadbin.Ty.Conversion

/-!
# Typing of operations

Every pair of operand types resolves: to the type both operands are brought to, the type of the
result and the conversions that lead there, or to a mismatch with a fallback that lets the analysis
go on.
-/

namespace Breadbin

/-- Operands or a conversion that the rules reject. -/
inductive Mismatch where
  /-- a value that may not become one of another type -/
  | conversion (source target : Ty)
  /-- an operator with one operand it does not accept -/
  | unary (op : UnaryOp) (operand : Ty)
  /-- an operator with two operands it does not accept -/
  | binary (op : BinaryOp) (left right : Ty)
  deriving DecidableEq, Repr

/-- The text of a mismatch. -/
def Mismatch.message : Mismatch → String
  | .conversion source target => s!"cannot convert {source.text} to {target.text}"
  | .unary op operand => s!"cannot apply {op.text} to {operand.text}"
  | .binary op left right =>
    if right.isValid then s!"cannot apply {op.text} to {left.text} and {right.text}"
    else s!"cannot apply {op.text} to {left.text}"

/-- The typing of a binary operation. -/
structure Resolution where
  operand : Ty
  result : Ty
  left : Conversion
  right : Conversion
  deriving DecidableEq, Repr, Inhabited

namespace Resolution

/-- A resolution, or a mismatch together with the fallback. -/
abbrev Outcome := Resolution × Option Mismatch

/-- What stands in for the typing of rejected operands: the left operand's type, or the right one's
where the left has none, with arrays reduced to their elements. -/
def fallback (op : BinaryOp) (l r : Ty) : Resolution :=
  let chosen := if !l.isValid || l.isArray then r else l
  let t := if chosen.isArray then chosen.element else chosen
  let truth := (op.rule?.map fun rule => rule.result == .truth).getD false
  { operand := t
    result := if truth then Ty.bool else t
    left := .identity l.kind
    right := .identity r.kind }

/-- The typing of a shift: the count is never converted. -/
def ofShift (l r : Ty) : Resolution :=
  { operand := l, result := l, left := .identity l.kind, right := .identity r.kind }

/-- The typing of operands brought to a common kind. -/
def ofCommon (rule : BinaryRule) (l r common : Kind) : Resolution :=
  { operand := Ty.scalar common
    result := if rule.result = .truth then Ty.bool else Ty.scalar common
    left := { source := l, target := common, kind := Conversion.classify l common }
    right := { source := r, target := common, kind := Conversion.classify r common } }

/-- The typing of a binary operation that the rules accept. -/
def resolve? (op : BinaryOp) (l r : Ty) : Option Resolution := do
  let rule ← op.rule?
  guard (!l.isArray && !r.isArray)
  guard (l.kind.family.within rule.left && r.kind.family.within rule.right)
  if rule.result = .left then
    return ofShift l r
  else
    let common ← Conversion.promote? l.kind r.kind
    guard (rule.common == .none || common.family.within rule.common)
    return ofCommon rule l.kind r.kind common

/-- Types a binary operation. -/
def resolve (op : BinaryOp) (l r : Ty) : Outcome :=
  match resolve? op l r with
  | some res => (res, none)
  | none => (fallback op l r, some (.binary op l r))

/-- Types an operation with one operand; the result keeps the operand's type. -/
def resolveUnary (op : UnaryOp) (t : Ty) : Ty × Option Mismatch :=
  match op.operand? with
  | some families =>
    if t.isArray || !t.kind.family.within families then (t, some (.unary op t)) else (t, none)
  | none => (t, some (.unary op t))

end Resolution

namespace Conversion

/-- The conversion of a value that is stored into a slot of the declared type. -/
def ofAssignment (declared value : Ty) : Conversion × Option Mismatch :=
  if declared.isArray || value.isArray || !isImplicit value.kind declared.kind then
    ({ source := value.kind, target := declared.kind, kind := .invalid },
      some (.conversion value declared))
  else
    ({ source := value.kind, target := declared.kind,
       kind := classify value.kind declared.kind }, none)

/-- The conversion a cast asks for. -/
def ofCast (source target : Ty) : Conversion × Option Mismatch :=
  if source.isArray || target.isArray || !isCastable source.kind target.kind then
    ({ source := source.kind, target := target.kind, kind := .invalid, explicit := true },
      some (.conversion source target))
  else
    ({ source := source.kind, target := target.kind,
       kind := classify source.kind target.kind
       explicit := !isImplicit source.kind target.kind }, none)

end Conversion

end Breadbin

/-!
## Checked typing

The typing rules with their findings: a mismatch is an error, and a known value that the destination
cannot hold is a warning.
-/

namespace Breadbin

/-- The value of an operand that is known before the program runs. -/
inductive KnownValue where
  | int (i : Int)
  | real (d : Numeric.Double)
  deriving DecidableEq, Repr

/-- The value as a number. -/
def KnownValue.toDouble : KnownValue → Numeric.Double
  | int i => .ofInt i
  | real d => d

/-- A result, whether the rules accept it, and what is to be reported. -/
structure Checked (α : Type) where
  value : α
  accepted : Bool
  findings : List Diagnostic := []

namespace Checked

/-- A result with the mismatch, if any, as an error. -/
def ofMismatch {α : Type} (span : Span) (value : α) : Option Mismatch → Checked α
  | none => ⟨value, true, []⟩
  | some m => ⟨value, false, [.error .typeMismatch span m.message]⟩

/-- A binary operation. -/
def binary (op : BinaryOp) (left right : Ty) (span : Span) : Checked Resolution :=
  let (res, mismatch) := Resolution.resolve op left right
  ofMismatch span res mismatch

/-- An operation with one operand. -/
def unary (op : UnaryOp) (t : Ty) (span : Span) : Checked Ty :=
  let (res, mismatch) := Resolution.resolveUnary op t
  ofMismatch span res mismatch

/-- The warning about a known integer outside the range of its destination. -/
def truncation (v : Int) (k : Kind) (span : Span) : Diagnostic :=
  .warning .possibleTruncation span
    s!"value {v} does not fit in {k.text} and will be truncated"

/-- The warning about a known value outside the fixed-point range. -/
def fixedOverflow (v : Numeric.Double) (span : Span) : Diagnostic :=
  .warning .fixedRangeOverflow span
    s!"value {v.general} is outside the fixed range [-2048, 2047.9375]"

/-- What a known value has against a conversion. -/
def rangeFindings (conv : Conversion) (known : KnownValue) (span : Span) : List Diagnostic :=
  match known with
  | .int i =>
    if conv.target.isInteger && conv.source.isIntegral then
      if i < conv.target.range.1 ∨ conv.target.range.2 < i then [truncation i conv.target span]
      else []
    else fixedFindings
  | .real _ => fixedFindings
where
  fixedFindings : List Diagnostic :=
    if conv.target == .fixed && conv.source != .string && !Numeric.Fixed.inRange known.toDouble then
      [fixedOverflow known.toDouble span]
    else []

/-- What a value that may be known has against a conversion. -/
def knownFindings (conv : Conversion) (known : Option KnownValue) (span : Span) : List Diagnostic :=
  match known with
  | none => []
  | some v => rangeFindings conv v span

/-- A value stored into a slot of the declared type. -/
def assign (declared value : Ty) (known : Option KnownValue) (span : Span) : Checked Conversion :=
  let (conv, mismatch) := Conversion.ofAssignment declared value
  match mismatch with
  | some _ => ofMismatch span conv mismatch
  | none => ⟨conv, true, knownFindings conv known span⟩

/-- A cast.  Between integers of different signedness it is accepted with a warning. -/
def cast (source target : Ty) (known : Option KnownValue) (span : Span) : Checked Conversion :=
  let (conv, mismatch) := Conversion.ofCast source target
  match mismatch with
  | some _ => ofMismatch span conv mismatch
  | none =>
    let reread :=
      if source.kind.isInteger && target.kind.isInteger
          && source.kind.isSigned != target.kind.isSigned then
        [Diagnostic.warning .signReinterpretation span
          s!"cast from {source.text} to {target.text} reinterprets the sign"]
      else []
    ⟨conv, true, reread ++ knownFindings conv known span⟩

/-- An integer literal must fit sixteen bits, signed or unsigned. -/
def literal (v : Int) (span : Span) : Checked Unit :=
  if v < -0x8000 ∨ 0xFFFF < v then
    ⟨(), false, [.error .literalOutOfRange span
      s!"integer literal {v} is out of the 16-bit range"]⟩
  else ⟨(), true, []⟩

end Checked

end Breadbin
