import Breadbin.Lowering.Value

/-!
# Statements

Statements leave nothing behind in the registers.  Loops keep the labels that the statements inside
them jump to.
-/

namespace Breadbin.Lowering

open Assembly

/-- Clears bytes from an address on, a page at a time. -/
def clearRegion (base : UInt16) (size : Nat) : Lower Unit := do
  if size ≠ 0 then
    imm .lda 0
    (List.range ((size + 255) / 256)).forM fun page => do
      let chunk := min (size - 256 * page) 256
      imm .ldx (UInt8.ofNat chunk)
      let again ← newLabel "clear"
      place again
      op .dex
      emit .sta (.absoluteX (.fixed (base + UInt16.ofNat (256 * page))))
      branchTo .bne again

/-- The complaint about an array with a first value. -/
def arrayInitialiser (name : Bytes) : String :=
  "array " ++ Text.quoted name ++ " cannot have an initialiser"

/-- Gives a variable its first value: the given one, or zero. -/
def lowerDefine (id : SymbolId) (value : Expr) (span : Span) : Lower Unit := do
  let s ← symbol id
  let ref ← symbolRef id
  if s.type.isArray then
    if value.isAbsent then clearRegion ref.address s.type.size
    else reportError .typeMismatch span (arrayInitialiser s.name)
  else
    if value.isAbsent then zero s.type else lowerExpr value s.type
    store ref s.type.isWide

/-- Stores into a variable. -/
def assignVariable (id : SymbolId) (value : Expr) (span : Span) : Lower Unit := do
  let s ← symbol id
  if s.symbolClass = .constant then
    reportError .typeMismatch span ("cannot assign to constant " ++ Text.quoted s.name)
  else if s.type.isArray then
    reportError .typeMismatch span
      ("cannot assign to array " ++ Text.quoted s.name ++ " as a whole")
  else
    let ref ← symbolRef id
    lowerExpr value s.type
    store ref s.type.isWide

/-- Stores into an element. -/
def assignElement (array : SymbolId) (index : Expr) (place : Span) (value : Expr) (span : Span) :
    Lower Unit := do
  match ← resolveElement array (part index) place with
  | none => return ()
  | some e =>
    if e.array.symbolClass = .constant then
      reportError .typeMismatch span ("cannot assign to constant " ++ Text.quoted e.array.name)
    else
      lowerExpr value e.type
      storeElement e

/-- The value that a compound assignment stores. -/
def compoundValue (target value : Expr) (op : BinaryOp) (span : Span) : Expr :=
  let type := (Resolution.resolve op target.type value.type).1.result
  .binary { tag := 3, type, span } op target value

/-- Stores into a variable or an element. -/
def lowerAssign (target value : Expr) (op : BinaryOp) (compound : Bool) (span : Span) :
    Lower Unit := do
  if target.isAbsent || value.isAbsent then
    throw (.malformed "assignment without operands")
  let stored := if compound then compoundValue target value op span else value
  match target with
  | .var _ id => assignVariable id stored span
  | .index h array index => assignElement array index h.span stored span
  | _ =>
    reportError .typeMismatch span "assignment target is not a variable or array element"

/-- Leaves the function. -/
def lowerGiveBack (value : Expr) (span : Span) : Lower Unit := do
  match (← get).current with
  | none => throw .strayReturn
  | some f =>
    if !value.isAbsent then
      if f.hasResult then lowerExpr value f.result
      else
        reportError .typeMismatch span
          ("function " ++ Text.quoted f.name ++ " returns no value")
        lowerExpr value .invalid
    op .rts

/-- Jumps out of the innermost loop, or to its next round. -/
def lowerJump (span : Span) (word : String) (label : LoopLabels → LabelId) : Lower Unit := do
  match (← get).loops with
  | [] => reportError .misplacedJump span (word ++ " outside of a loop")
  | l :: _ => jumpTo (label l)

/-- Lowers the body of a loop. -/
def withinLoop (labels : LoopLabels) (body : Lower Unit) : Lower Unit := do
  modify fun s => { s with loops := labels :: s.loops }
  body
  modify fun s => { s with loops := s.loops.tail }

/-- Leaves a loop over fixed-point numbers when less than one remains.  Within the loop the counter
never passes the bound. -/
def fixedLastStep (counter bound : AddressRef) (down : Bool) (exit : LabelId) : Lower Unit := do
  let (high, low) := if down then (counter, bound) else (bound, counter)
  let more ← newLabel "for_more"
  op .sec
  mem .lda high
  mem .sbc low
  op .tay
  mem .lda (high.plus 1)
  mem .sbc (low.plus 1)
  branchTo .bne more
  imm .cpy 0x10
  branchTo .bcc exit
  place more

/-- Counts one step: 1 for integers, 1.0 for fixed-point numbers. -/
def step (counter : AddressRef) (k : Kind) (down : Bool) : Lower Unit := do
  if k = .fixed then
    load counter true
    op (if down then .sec else .clc)
    imm (if down then .sbc else .adc) 0x10
    op .tay
    op .txa
    imm (if down then .sbc else .adc) 0
    op .tax
    op .tya
    store counter true
  else if !k.isWide then mem (if down then .dec else .inc) counter
  else if down then
    let skip ← newLabel "dec"
    mem .lda counter
    branchTo .bne skip
    mem .dec (counter.plus 1)
    place skip
    mem .dec counter
  else
    let skip ← newLabel "inc"
    mem .inc counter
    branchTo .bne skip
    mem .inc (counter.plus 1)
    place skip

/-- Reserves the bound of a counting loop. -/
def reserveBound (s : Symbol) : Lower AddressRef := do
  let name := s.name ++ Text.bytesOf ".bound"
  match ← modifyGet fun e =>
      let (allocator, r) := e.allocator.allocateHidden name s.type.size
      (r, { e with allocator }) with
  | .ok address => return .fixed address
  | .error cause => throw (.allocation cause)

/-- Lowers a counting loop.  The bound is tested before the step, so that a loop up to the largest
value ends.

    counter := first; bound := last
    if the counter is past the bound: goto exit
    top:  body
    next: if the counter is at the bound: goto exit
          step the counter; goto top
    exit:
-/
def lowerCount (id : SymbolId) (first last : Expr) (down : Bool) (body : Lower Unit) :
    Lower Unit := do
  match (← read).symbol? id with
  | none => throw (.unknownCounter id)
  | some s =>
    let k := s.type.kind
    if s.type.isArray || !(k.isInteger || k = .fixed) then
      reportError .typeMismatch s.span
        ("loop variable " ++ Text.quoted s.name ++ " must be an integer or fixed, not " ++
          s.type.text)
    else
      let counter ← symbolRef id
      let bound ← reserveBound s
      let next ← newLabel "for_next"
      let exit ← newLabel "for_end"
      lowerExpr first s.type
      store counter k.isWide
      lowerExpr last s.type
      store bound k.isWide
      if down then compareLess k (.address counter) (.address bound)
      else compareLess k (.address bound) (.address counter)
      branchTo (lessBranch k) exit
      let top ← newLabel "for_top"
      place top
      withinLoop { next, exit } body
      place next
      if k = .fixed then fixedLastStep counter bound down exit
      else
        compareEqual (.address counter) (.address bound) k.isWide
        branchTo .beq exit
      step counter k down
      jumpTo top
      place exit

mutual

/-- Lowers a statement. -/
def lowerStmt : Stmt → Lower Unit
  | .blank h => throw (.malformed ("statement " ++ h.formName))
  | .define h s v => lowerDefine s v h.span
  | .assign h t v op compound => lowerAssign t v op compound h.span
  | .evaluate _ v => lowerExpr v .invalid
  | .giveBack h v => lowerGiveBack v h.span
  | .leave h => lowerJump h.span "break" (·.exit)
  | .next h => lowerJump h.span "continue" (·.next)
  | .choose _ arms _ otherwise => do
    let exit ← newLabel "if_end"
    lowerArms exit (!otherwise.isAbsent) arms
    lowerBlock otherwise
    place exit
    if arms.isEmpty then throw .emptyChoice
  | .loop _ c body => do
    let top ← newLabel "while_top"
    let exit ← newLabel "while_end"
    place top
    branchOn false exit c
    withinLoop { next := top, exit } (lowerBlock body)
    jumpTo top
    place exit
  | .count _ s first last down body => lowerCount s first last down (lowerBlock body)

/-- Lowers a block. -/
def lowerBlock : Block → Lower Unit
  | .absent => return ()
  | .of ss _ _ => lowerStmts ss

/-- Lowers statements in order. -/
def lowerStmts : List Stmt → Lower Unit
  | [] => return ()
  | s :: ss => do
    lowerStmt s
    lowerStmts ss

/-- Lowers arms.  Each tests its condition and falls to the next one, or to the last block, when it
does not hold. -/
def lowerArms (exit : LabelId) (hasLast : Bool) : List Arm → Lower Unit
  | [] => return ()
  | .mk c body :: arms => do
    if arms.isEmpty && !hasLast then
      branchOn false exit c
      lowerBlock body
    else
      let next ← newLabel "if_next"
      branchOn false next c
      lowerBlock body
      jumpTo exit
      place next
    lowerArms exit hasLast arms

end

end Breadbin.Lowering
