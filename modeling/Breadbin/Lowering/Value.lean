import Breadbin.Lowering.Call
import Breadbin.Lowering.Convert
import Breadbin.Lowering.Operation

/-!
# Values of expressions

Lowering follows the expression.  A constant stands for the expression it is declared with, which
may name constants in turn; a chain longer than the list of declarations comes back to where it was.
-/

/-!
## Array elements

An element is reached in one of three ways: at a known offset, by an index of one byte into a page
of bytes, or through a pointer.
-/

namespace Breadbin.Lowering

open Assembly ZeroPage

/-- How an element is reached. -/
inductive Reach where
  /-- at a known offset -/
  | known (offset : UInt16)
  /-- by an index of one byte -/
  | short
  /-- through a pointer -/
  | pointer
  deriving DecidableEq, Repr

/-- An element of an array. -/
structure Element where
  array : Symbol
  base : AddressRef
  index : Part
  reach : Reach

/-- The type of an element. -/
def Element.type (e : Element) : Ty := e.array.type.element

/-- Finds out how to reach an element; there is none if the access is in error. -/
def resolveElement (array : SymbolId) (index : Part) (span : Span) : Lower (Option Element) := do
  let s ← symbol array
  if !s.type.isArray then
    reportError .typeMismatch span (Text.quoted s.name ++ " is not an array")
    return none
  if index.expr.isAbsent || !index.type.kind.isInteger || index.type.isArray then
    reportError .typeMismatch span ("index of " ++ Text.quoted s.name ++ " must be an integer")
    return none
  let base ← symbolRef array
  let size := s.type.element.size
  match ← constantOf index.expr with
  | some c =>
    let i := (c.literal?.getD {}).int.toInt
    if i < 0 || (s.type.length.toNat : Int) ≤ i then
      reportError .literalOutOfRange index.expr.span
        s!"index {i} is out of range for {s.type.text}"
      return none
    return some
      { array := s, base, index, reach := .known (UInt16.ofInt i * UInt16.ofNat size) }
  | none =>
    let short := size = 1 && !index.type.isWide && s.type.size ≤ 0x100
    return some { array := s, base, index, reach := if short then .short else .pointer }

/-- Leaves the address of an element in the pointer. -/
def pointTo (e : Element) : Lower Unit := do
  e.index.value
  extend e.index.type.kind
  storeSlot pointer true
  if e.type.isWide then
    zp .asl pointer
    zp .rol (pointer + 1)
  op .clc
  zp .lda pointer
  emit .adc (.lowByte e.base)
  zp .sta pointer
  zp .lda (pointer + 1)
  emit .adc (.highByte e.base)
  zp .sta (pointer + 1)

/-- Loads an element. -/
def loadElement (e : Element) : Lower Unit := do
  let wide := e.type.isWide
  match e.reach with
  | .known offset => load (e.base.plus offset) wide
  | .short =>
    e.index.value
    op .tay
    emit .lda (.absoluteY e.base)
  | .pointer =>
    pointTo e
    if wide then
      imm .ldy 1
      emit .lda (.indirectY pointer)
      op .tax
      op .dey
    else imm .ldy 0
    emit .lda (.indirectY pointer)

/-- Stores the value into an element.  The index is evaluated after the value, which waits on the
stack. -/
def storeElement (e : Element) : Lower Unit := do
  let wide := e.type.isWide
  match e.reach with
  | .known offset => store (e.base.plus offset) wide
  | .short =>
    op .pha
    e.index.value
    op .tay
    op .pla
    emit .sta (.absoluteY e.base)
  | .pointer =>
    push wide
    pointTo e
    pop wide
    imm .ldy 0
    emit .sta (.indirectY pointer)
    if wide then
      op .iny
      op .txa
      emit .sta (.indirectY pointer)

/-- Lowers an element as a value. -/
def lowerIndex (h : ExprHead) (array : SymbolId) (index : Part) : Lower Unit := do
  match ← resolveElement array index h.span with
  | some e => loadElement e
  | none => zero h.type

end Breadbin.Lowering

/-! ## Expressions -/

namespace Breadbin.Lowering

open Assembly

/-- Loads the address of a data block.  One that was refused has none. -/
def lowerDataAddress (id : DataId) : Lower Unit := do
  match (← get).data.lookup id with
  | some l => loadAddress (.ofLabel l)
  | none =>
    if ((← read).dataBlock? id).isNone then
      throw (.malformed s!"data block {id.toNat}")
    loadConstant 0 true

/-- Loads a variable, or what a constant stands for.  An array stands for its address. -/
def lowerVariable (constant : Expr → Ty → Lower Unit) (h : ExprHead) (id : SymbolId) :
    Lower Unit := do
  match (← get).constants.lookup id with
  | some c => constant c h.type
  | none =>
    let s ← symbol id
    let ref ← symbolRef id
    if s.type.isArray then loadAddress ref else load ref s.type.isWide

mutual

/-- Lowers an expression in its own type, and constants by `constant`. -/
def valueWith (constant : Expr → Ty → Lower Unit) : Expr → Lower Unit
  | .absent => throw (.malformed "nil expression")
  | .blank h => throw (.malformed ("expression " ++ h.formName))
  | .literal h v => lowerLiteral h v
  | .var h s => lowerVariable constant h s
  | .unary h op x => lowerUnary h op ⟨x, valueWith constant x⟩
  | .binary h op l r => lowerBinary h op ⟨l, valueWith constant l⟩ ⟨r, valueWith constant r⟩
  | .call h f as _ => lowerCall h f (partsWith constant as)
  | .index h a i => lowerIndex h a ⟨i, valueWith constant i⟩
  | .cast h x => lowerCast h ⟨x, valueWith constant x⟩
  | .builtin h b as _ => lowerBuiltin h b (partsWith constant as)
  | .dataAddress _ d => lowerDataAddress d

/-- Expressions with their code. -/
def partsWith (constant : Expr → Ty → Lower Unit) : List Expr → List Part
  | [] => []
  | e :: es => ⟨e, valueWith constant e⟩ :: partsWith constant es

end

/-- Lowers what a constant stands for through a chain of so many constants. -/
def constantWithin : (depth : Nat) → Expr → Ty → Lower Unit
  | 0, _, _ => throw (.malformed "constant stands for itself")
  | depth + 1, e, want => Part.inType ⟨e, valueWith (constantWithin depth) e⟩ want

/-- Lowers an expression in its own type. -/
def lowerValue (e : Expr) : Lower Unit := do
  valueWith (constantWithin ((← read).globals.items.length + 1)) e

/-- An expression with its code. -/
def part (e : Expr) : Part := ⟨e, lowerValue e⟩

/-- Lowers an expression whose value is wanted in a type. -/
def lowerExpr (e : Expr) (want : Ty) : Lower Unit := (part e).inType want

/-- Whether both operands are truth values. -/
def isTruthPair (l r : Expr) : Bool := l.type.kind = .bool && r.type.kind = .bool

/-- Jumps when a condition has the given value.  Of `and` and `or` the right operand is skipped when
the left one decides. -/
def branchOn (value : Bool) (target : LabelId) : Expr → Lower Unit
  | .unary h .not x => do
    if x.type.kind = .bool then branchOn (!value) target x
    else plain (.unary h .not x)
  | .binary h .and l r => do
    if isTruthPair l r then
      if value then
        let skip ← newLabel "and"
        branchOn false skip l
        branchOn true target r
        place skip
      else
        branchOn false target l
        branchOn false target r
    else plain (.binary h .and l r)
  | .binary h .or l r => do
    if isTruthPair l r then
      if value then
        branchOn true target l
        branchOn true target r
      else
        let skip ← newLabel "or"
        branchOn true skip l
        branchOn false target r
        place skip
    else plain (.binary h .or l r)
  | e => plain e
where
  /-- Evaluates the condition and tests its value. -/
  plain (e : Expr) : Lower Unit := do
    lowerExpr e .bool
    testA
    branchTo (if value then .bne else .beq) target

end Breadbin.Lowering
