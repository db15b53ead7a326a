import Breadbin.Lowering.Convert

/-!
# Operators

The operands of an operation are brought to a common type and put into the slots that its code or
its routine works on.
-/

namespace Breadbin.Lowering

open Assembly ZeroPage

/-- Where a word is compared: at an address or in a slot. -/
inductive Place where
  | address (ref : AddressRef)
  | slot (number : UInt8)
  deriving Repr

/-- The operand for a byte of a place. -/
def Place.byte (p : Place) (i : UInt8) : Operand :=
  match p with
  | address ref => .absolute (ref.plus i.toUInt16)
  | slot n => .zeroPage (n + i)

/-- Sets the flags so that `lessBranch` is taken when the first value is below the second. -/
def compareLess (k : Kind) (a b : Place) : Lower Unit := do
  if !k.isSigned then
    emit .lda (a.byte 0)
    emit .cmp (b.byte 0)
    if k.isWide then
      emit .lda (a.byte 1)
      emit .sbc (b.byte 1)
  else
    if k.isWide then
      emit .lda (a.byte 0)
      emit .cmp (b.byte 0)
      emit .lda (a.byte 1)
      emit .sbc (b.byte 1)
    else
      emit .lda (a.byte 0)
      op .sec
      emit .sbc (b.byte 0)
    let skip ← newLabel "lt"
    branchTo .bvc skip
    imm .eor 0x80
    place skip

/-- The branch that is taken when the first value is below. -/
def lessBranch (k : Kind) : Mnemonic := if k.isSigned then .bmi else .bcc

/-- The branch that is taken when the first value is not below. -/
def notLessBranch (k : Kind) : Mnemonic := if k.isSigned then .bpl else .bcs

/-- Sets the zero flag when two values are equal. -/
def compareEqual (a b : Place) (wide : Bool) : Lower Unit := do
  emit .lda (a.byte 0)
  emit .cmp (b.byte 0)
  if wide then
    let different ← newLabel "ne"
    branchTo .bne different
    emit .lda (a.byte 1)
    emit .cmp (b.byte 1)
    place different

/-- Whether a converted operand is evaluated without routines and slots. -/
def isLeaf (x : Expr) (c : Conversion) : Lower Bool := do
  if (x.literal?.map (·.kind)) = some .string then return c.isNone
  match c.kind with
  | .none | .zeroExtend | .signExtend | .truncate | .reinterpret | .intToFixed | .fixedToInt
  | .toBool =>
    if (← constantOf x).isSome then return true
    match x with
    | .var _ s => return ((← read).symbol? s).any fun s => !s.type.isArray
    | _ => return false
  | _ => return false

/-- Puts both operands into slots.  The left value waits on the stack while the right one is
computed, unless that leaves the slot alone. -/
def stage (l r : Part) (res : Resolution) (a b : UInt8) : Lower Unit := do
  let wide := res.operand.isWide
  l.converted res.left false
  if ← isLeaf r.expr res.right then
    storeSlot a wide
    r.converted res.right false
    storeSlot b wide
  else
    push wide
    r.converted res.right false
    storeSlot b wide
    pop wide
    storeSlot a wide

/-- An operator that the rules accept and no code exists for. -/
def unsupported (op : BinaryOp) (t : Ty) : LoweringError :=
  .malformed (op.text ++ " on " ++ t.text)

/-- Combines the integer slots byte by byte, the carry going from the low byte to the high one. -/
def bytewise (mn : Mnemonic) (wide : Bool) : Lower Unit := do
  zp .lda intA
  zp mn intB
  if wide then
    op .tay
    zp .lda (intA + 1)
    zp mn (intB + 1)
    op .tax
    op .tya

/-- The routine that divides. -/
def divisionRoutine (k : Kind) : RoutineId :=
  if k.isWide then (if k.isSigned then .divS16 else .divU16)
  else if k.isSigned then .divS8 else .divU8

/-- Integer operators, and the fixed-point ones that work on the bits alone. -/
def lowerInteger (op : BinaryOp) (l r : Part) (res : Resolution) : Lower Unit := do
  let k := res.operand.kind
  stage l r res intA intB
  match op with
  | .add =>
    Lowering.op .clc
    bytewise .adc k.isWide
  | .sub =>
    Lowering.op .sec
    bytewise .sbc k.isWide
  | .bitAnd => bytewise .and k.isWide
  | .bitOr => bytewise .ora k.isWide
  | .bitXor => bytewise .eor k.isWide
  | .mul => callRoutine (if k.isWide then .mul16 else .mul8)
  | .div => callRoutine (divisionRoutine k)
  | .mod =>
    callRoutine (divisionRoutine k)
    loadSlot intRemainder k.isWide
  | _ => throw (unsupported op res.operand)

/-- The routine of a floating-point operator. -/
def floatRoutine? : BinaryOp → Option RoutineId
  | .add => some .floatAdd
  | .sub => some .floatSub
  | .mul => some .floatMul
  | .div => some .floatDiv
  | _ => none

/-- Arithmetic. -/
def lowerArithmetic (op : BinaryOp) (l r : Part) (res : Resolution) : Lower Unit := do
  let k := res.operand.kind
  if k = .string then
    if op ≠ .add then throw (unsupported op res.operand)
    stage l r res string1 string2
    callRoutine .stringConcat
  else if k = .float then
    match floatRoutine? op with
    | none => throw (unsupported op res.operand)
    | some id =>
      stage l r res floatA floatB
      callRoutine id
  else if k = .fixed then
    match op with
    | .mul =>
      stage l r res fixA fixB
      callRoutine .fixedMul
    | .div =>
      stage l r res fixA fixB
      callRoutine .fixedDiv
    | .add | .sub | .mod => lowerInteger op l r res
    | _ => throw (unsupported op res.operand)
  else if k.isInteger then lowerInteger op l r res
  else throw (unsupported op res.operand)

/-- Comparison of floats: what compares with nothing is above everything. -/
def compareFloat (op : BinaryOp) : Lower Unit := do
  callRoutine .floatCompare
  match op with
  | .eq | .ne => imm .cmp 0
  | .lt | .ge => imm .cmp 0xFF
  | _ => imm .cmp 1
  match op with
  | .eq | .lt | .gt => materialize .beq
  | _ => materialize .bne

/-- Comparison of the values in the integer slots. -/
def compareInteger (op : BinaryOp) (k : Kind) : Lower Unit := do
  let a := Place.slot intA
  let b := Place.slot intB
  match op with
  | .eq =>
    compareEqual a b k.isWide
    materialize .beq
  | .ne =>
    compareEqual a b k.isWide
    materialize .bne
  | .lt =>
    compareLess k a b
    materialize (lessBranch k)
  | .ge =>
    compareLess k a b
    materialize (notLessBranch k)
  | .gt =>
    compareLess k b a
    materialize (lessBranch k)
  | .le =>
    compareLess k b a
    materialize (notLessBranch k)
  | _ => return ()

/-- Comparison. -/
def lowerComparison (op : BinaryOp) (l r : Part) (res : Resolution) : Lower Unit := do
  let k := res.operand.kind
  if k = .string then
    if op ≠ .eq && op ≠ .ne then throw (.malformed (op.text ++ " on strings"))
    stage l r res string1 string2
    callRoutine .stringEqual
    if op = .ne then imm .eor 1
  else if k = .float then
    stage l r res floatA floatB
    compareFloat op
  else
    stage l r res intA intB
    compareInteger op k

/-- The code of one step of a shift. -/
def shiftStep (left : Bool) (k : Kind) : Lower Unit := do
  if left then
    if k.isWide then
      zp .asl scratch
      zp .rol (scratch + 1)
    else op .asl
  else if k.isWide then
    if k.isSigned then
      zp .lda (scratch + 1)
      imm .cmp 0x80
      zp .ror (scratch + 1)
      zp .ror scratch
    else
      zp .lsr (scratch + 1)
      zp .ror scratch
  else if k.isSigned then
    imm .cmp 0x80
    op .ror
  else op .lsr

/-- Shifts the value by the number in Y. -/
def shiftByY (left : Bool) (k : Kind) : Lower Unit := do
  if k.isWide then storeSlot scratch true
  let again ← newLabel "shift"
  let done ← newLabel "shift_end"
  imm .cpy 0
  branchTo .beq done
  place again
  shiftStep left k
  op .dey
  branchTo .bne again
  place done
  if k.isWide then loadSlot scratch true

/-- Shifts the left operand by the low byte of the right one. -/
def lowerShift (op : BinaryOp) (l r : Part) (res : Resolution) : Lower Unit := do
  let k := res.result.kind
  l.inType res.result
  match ← constantOf r.expr with
  | some c => imm .ldy (c.literal?.getD {}).int.toUInt64.toUInt8
  | none =>
    push k.isWide
    r.inType r.type
    Lowering.op .tay
    pop k.isWide
  shiftByY (op = .shl) k

/-- The value of `and` or `or`.  The right operand is skipped when the left one decides. -/
def lowerLogical (op : BinaryOp) (l r : Part) : Lower Unit := do
  let done ← newLabel op.text
  l.inType .bool
  testA
  branchTo (if op = .and then .beq else .bne) done
  r.inType .bool
  place done

/-- An operator between two operands. -/
def lowerBinary (h : ExprHead) (op : BinaryOp) (l r : Part) : Lower Unit := do
  if l.expr.isAbsent || r.expr.isAbsent then
    throw (.malformed ("binary " ++ op.text ++ " without operands"))
  let (res, ok) ← checked (.binary op l.type r.type h.span)
  if !ok then
    l.value
    r.value
    zero res.result
  else if op.isLogical then lowerLogical op l r
  else if op.isShift then lowerShift op l r res
  else if op.isComparison then lowerComparison op l r res
  else lowerArithmetic op l r res

/-- Inverts the bits of the value. -/
def complement (wide : Bool) : Lower Unit := do
  imm .eor 0xFF
  if wide then
    op .tay
    op .txa
    imm .eor 0xFF
    op .tax
    op .tya

/-- Changes the sign of the value. -/
def negate (t : Ty) : Lower Unit := do
  if t.kind = .float then
    op .tay
    op .txa
    imm .eor 0x80
    op .tax
    op .tya
  else
    imm .eor 0xFF
    op .clc
    imm .adc 1
    if t.isWide then
      op .tay
      op .txa
      imm .eor 0xFF
      imm .adc 0
      op .tax
      op .tya

/-- An operator before its operand. -/
def lowerUnary (h : ExprHead) (op : UnaryOp) (x : Part) : Lower Unit := do
  let (t, ok) ← checked (.unary op x.type h.span)
  x.value
  if ok then
    match op with
    | .not => imm .eor 1
    | .bitNot => complement t.isWide
    | .neg => negate t
    | .unknown _ => throw (.malformed ("unary " ++ op.text))

end Breadbin.Lowering
