import Breadbin.Lowering.Convert

/-!
# Calls

Arguments go into the parameters of the function, which have fixed addresses.  With more than one,
all are evaluated before any is stored, so that an argument may itself call the function.
-/

namespace Breadbin.Lowering

open Assembly ZeroPage

/-- A parameter: its address and its type. -/
abbrev Parameter := AddressRef × Ty

/-- The parameters with some numbers. -/
def parametersOf (ids : List SymbolId) : Lower (List Parameter) :=
  ids.mapM fun id => do
    let ref ← symbolRef id
    return (ref, (((← read).symbol? id).map (·.type)).getD .invalid)

/-- Evaluates arguments and leaves them on the stack. -/
def pushArguments : List (Part × Parameter) → Lower Unit
  | [] => return ()
  | (x, _, t) :: rest => do
    x.inType t
    push t.isWide
    pushArguments rest

/-- Takes arguments from the stack, the last one first. -/
def popArguments (parameters : List Parameter) : Lower Unit :=
  parameters.reverse.forM fun (ref, t) => do
    pop t.isWide
    store ref t.isWide

/-- Passes arguments. -/
def passArguments (arguments : List Part) (parameters : List Parameter) : Lower Unit := do
  match arguments, parameters with
  | [x], [(ref, t)] =>
    x.inType t
    store ref t.isWide
  | _, _ =>
    pushArguments (arguments.zip parameters)
    popArguments parameters

/-- Calls a function of the program. -/
def lowerCall (h : ExprHead) (callee : FunctionId) (arguments : List Part) : Lower Unit := do
  match (← read).function? callee with
  | none => throw (.unknownFunction callee)
  | some f =>
    match (← get).functions.lookup f.id with
    | none => throw (.noLabel f.name)
    | some label =>
      let wanted := f.parameters.items.length
      if arguments.length ≠ wanted then
        reportError .arityMismatch h.span
          (Text.shown f.name ++ s!" takes {wanted} arguments, got {arguments.length}")
        zero h.type
      else
        passArguments arguments (← parametersOf f.parameters.items)
        write (.callLabel label)

/-- The numbers of arguments in words. -/
def arityText (b : Builtin) : String :=
  match b.arity with
  | .any => "any number of"
  | .counts n m => if n = m then s!"{n}" else s!"{n} or {m}"

/-- Draws from a range.  The bounds are widened in their own signedness. -/
def drawFromRange (first last : Part) (t : Ty) : Lower Unit := do
  first.inType t
  extend t.kind
  push true
  last.inType t
  extend t.kind
  storeSlot intB true
  pop true
  storeSlot intA true
  callRoutine .randomRange

/-- Reads a byte of memory. -/
def lowerPeek (address : Part) : Lower Unit := do
  match ← constantAddress address.expr with
  | some a => mem .lda (.fixed a)
  | none =>
    address.inType .u16
    storeSlot pointer true
    imm .ldy 0
    emit .lda (.indirectY pointer)

/-- Writes a byte of memory. -/
def lowerPoke (address value : Part) : Lower Unit := do
  value.inType .u8
  match ← constantAddress address.expr with
  | some a => mem .sta (.fixed a)
  | none =>
    op .pha
    address.inType .u16
    storeSlot pointer true
    op .pla
    imm .ldy 0
    emit .sta (.indirectY pointer)

/-- Prints strings. -/
def printAll (arguments : List Part) : Lower Unit :=
  arguments.forM fun x => do
    x.toString
    callRoutine .printString

/-- The character that clears the screen and moves the cursor to its corner. -/
def clearScreen : UInt8 := 0x93

/-- The code of a call of a function the compiler provides, which has as many arguments as it takes.
-/
def builtinCode (b : Builtin) (arguments : List Part) : Lower Unit := do
  let target := (← get).workspace.target
  match b, arguments with
  | .print, xs => printAll xs
  | .println, xs =>
    printAll xs
    callRoutine .printLineEnd
  | .len, [s] =>
    s.inType .string
    storeSlot string1 true
    callRoutine .stringLength
  | .rand, [] =>
    callRoutine .randomNext
    imm .and 0x0F
    imm .ldx 0
  | .randByte, [] | .randWord, [] | .randSByte, [] | .randSWord, [] => callRoutine .randomNext
  | .randByte, [x, y] | .randWord, [x, y] | .randSByte, [x, y] | .randSWord, [x, y] =>
    drawFromRange x y b.result
  | .seed, [x] =>
    x.inType .u16
    callRoutine .randomSeed
  | .peek, [a] => lowerPeek a
  | .poke, [a, v] => lowerPoke a v
  | .strAt, [s, i] =>
    i.inType .u8
    op .pha
    s.inType .string
    storeSlot string1 true
    op .pla
    callRoutine .stringAt
  | .cls, [] =>
    imm .lda clearScreen
    mem .jsr (.fixed target.chrout)
  | .cursor, [column, row] =>
    row.inType .u8
    op .pha
    column.inType .u8
    op .tay
    op .pla
    op .tax
    op .clc
    mem .jsr (.fixed target.plot)
  | _, _ => throw (.malformed ("builtin " ++ b.text))

/-- Calls a function the compiler provides. -/
def lowerBuiltin (h : ExprHead) (b : Builtin) (arguments : List Part) : Lower Unit := do
  if b.accepts arguments.length then builtinCode b arguments
  else
    reportError .arityMismatch h.span
      (b.text ++ " takes " ++ arityText b ++ s!" arguments, got {arguments.length}")
    zero h.type

end Breadbin.Lowering
