import Breadbin.Routine.Writer

/-!
# Integer routines

Multiplication and division of bytes and words.
-/

namespace Breadbin.Routine

open Assembly ZeroPage Writer

/-- Shift and add over the eight bits of the multiplier. -/
def mul8 : Writer Unit := do
  zp .lda intA
  zp .sta (work + 1)
  zp .lda intB
  zp .sta work
  imm .lda 0
  imm .ldx 8
  let loop ← here
  let skip ← label
  zp .lsr work
  branch .bcc skip
  op .clc
  zp .adc (work + 1)
  bind skip
  zp .asl (work + 1)
  op .dex
  branch .bne loop
  zp .sta intR
  op .rts

/-- Shift and add over the sixteen bits of the multiplier. -/
def mul16 : Writer Unit := do
  moveWord work intA
  moveWord (work + 2) intB
  imm .lda 0
  zp .sta intR
  zp .sta (intR + 1)
  imm .ldy 16
  let loop ← here
  let skip ← label
  shiftRightWord (work + 2)
  branch .bcc skip
  addWord intR intR work
  bind skip
  shiftLeftWord work
  op .dey
  branch .bne loop
  returnWord intR

/-- Restoring division.  The partial remainder is in A; a carry out of the shift means that it has
nine bits and is not below the divisor.  Division by zero gives all ones and the dividend as
remainder. -/
def divU8 : Writer Unit := do
  let proceed ← label
  zp .lda intB
  branch .bne proceed
  zp .lda intA
  zp .sta intRemainder
  imm .lda 0xFF
  zp .sta intR
  op .rts
  bind proceed
  zp .lda intA
  zp .sta work
  imm .lda 0
  imm .ldx 8
  let loop ← here
  let subtract ← label
  let next ← label
  zp .asl work
  op .rol
  branch .bcs subtract
  zp .cmp intB
  branch .bcc next
  bind subtract
  zp .sbc intB
  zp .inc work
  bind next
  op .dex
  branch .bne loop
  zp .sta intRemainder
  zp .lda work
  zp .sta intR
  op .rts

/-- Negates A. -/
def negateA : Writer Unit := do
  imm .eor 0xFF
  op .clc
  imm .adc 1

/-- Replaces a signed byte by its magnitude. -/
def absoluteByte (a : UInt8) : Writer Unit := do
  let positive ← label
  zp .lda a
  branch .bpl positive
  negateA
  zp .sta a
  bind positive

/-- Divides the magnitudes and gives the quotient and the remainder their signs. -/
def divS8 : Writer Unit := do
  let proceed ← label
  zp .lda intB
  branch .bne proceed
  tailCall .divU8
  bind proceed
  zp .lda intA
  zp .sta (work + 3)
  zp .eor intB
  zp .sta (work + 2)
  absoluteByte intA
  absoluteByte intB
  call .divU8
  let quotientDone ← label
  let remainderDone ← label
  zp .ldx (work + 2)
  branch .bpl quotientDone
  negateA
  zp .sta intR
  bind quotientDone
  zp .lda (work + 3)
  branch .bpl remainderDone
  imm .lda 0
  op .sec
  zp .sbc intRemainder
  zp .sta intRemainder
  bind remainderDone
  zp .lda intR
  op .rts

/-- Restoring division, the quotient shifting in through the result and a remainder of seventeen
bits in its slot and the carry. -/
def divU16 : Writer Unit := do
  let proceed ← label
  testWord intB
  branch .bne proceed
  moveWord intRemainder intA
  imm .lda 0xFF
  zp .sta intR
  zp .sta (intR + 1)
  op .tax
  op .rts
  bind proceed
  moveWord intR intA
  imm .lda 0
  zp .sta intRemainder
  zp .sta (intRemainder + 1)
  imm .ldy 16
  let loop ← here
  let subtract ← label
  let next ← label
  shiftLeftWord intR
  zp .rol intRemainder
  zp .rol (intRemainder + 1)
  branch .bcs subtract
  compareWord intRemainder intB
  branch .bcc next
  bind subtract
  zp .lda intRemainder
  zp .sbc intB
  zp .sta intRemainder
  zp .lda (intRemainder + 1)
  zp .sbc (intB + 1)
  zp .sta (intRemainder + 1)
  zp .inc intR
  bind next
  op .dey
  branch .bne loop
  returnWord intR

/-- Divides the magnitudes and gives the quotient and the remainder their signs. -/
def divS16 : Writer Unit := do
  let proceed ← label
  testWord intB
  branch .bne proceed
  tailCall .divU16
  bind proceed
  zp .lda (intA + 1)
  zp .sta (work + 1)
  zp .eor (intB + 1)
  zp .sta work
  absoluteWord intA
  absoluteWord intB
  call .divU16
  let quotientDone ← label
  let remainderDone ← label
  zp .lda work
  branch .bpl quotientDone
  negateWord intR
  bind quotientDone
  zp .lda (work + 1)
  branch .bpl remainderDone
  negateWord intRemainder
  bind remainderDone
  returnWord intR

end Breadbin.Routine
