import Breadbin.Routine.Writer

/-!
# Fixed-point routines

Multiplication and division of fixed-point numbers, saturating.
-/

namespace Breadbin.Routine

open Assembly ZeroPage Writer

/-- Multiplies two words into the double word `hi:m`.  The multiplier at `m` is used up and X counts
the rounds. -/
def multiplyWide (hi m n : UInt8) : Writer Unit := do
  let skip ← label
  imm .lda 0
  zp .sta hi
  zp .sta (hi + 1)
  imm .ldx 16
  shiftRightWord m
  let loop ← here
  branch .bcc skip
  op .clc
  zp .lda hi
  zp .adc n
  zp .sta hi
  zp .lda (hi + 1)
  zp .adc (n + 1)
  zp .sta (hi + 1)
  bind skip
  zp .ror (hi + 1)
  zp .ror hi
  zp .ror (m + 1)
  zp .ror m
  op .dex
  branch .bne loop

/-- Returns the largest fixed-point number, or the smallest one when the byte at `sign` is
negative. -/
def saturate (r sign : UInt8) : Writer Unit := do
  let negative ← label
  zp .lda sign
  branch .bmi negative
  setWord r 0x7FFF
  returnWord r
  bind negative
  setWord r 0x8000
  returnWord r

/-- Returns a word, negated when the byte at `sign` is negative. -/
def signedResult (r sign : UInt8) : Writer Unit := do
  let positive ← label
  zp .lda sign
  branch .bpl positive
  negateWord r
  bind positive
  returnWord r

/-- Multiplies the magnitudes and shifts the product right by four.  A magnitude past the largest
number saturates. -/
def fixedMul : Writer Unit := do
  zp .lda (fixA + 1)
  zp .eor (fixB + 1)
  zp .sta work
  absoluteWord fixA
  absoluteWord fixB
  multiplyWide fixR fixB fixA
  imm .ldx 4
  let shift ← here
  zp .lsr (fixR + 1)
  zp .ror fixR
  zp .ror (fixB + 1)
  zp .ror fixB
  op .dex
  branch .bne shift
  -- a magnitude of $8000 or more only fits as -2048
  let saturated ← label
  testWord fixR
  branch .bne saturated
  zp .lda (fixB + 1)
  branch .bmi saturated
  moveWord fixR fixB
  signedResult fixR work
  bind saturated
  saturate fixR work

/-- Divides the magnitude of the dividend, shifted left by four, in twenty-four steps.  Dividend and
quotient share the first three work bytes, the remainder has the next two and the sign the last. -/
def fixedDiv : Writer Unit := do
  let proceed ← label
  zp .lda (fixA + 1)
  zp .eor (fixB + 1)
  zp .sta (work + 5)
  testWord fixB
  branch .bne proceed
  saturate fixR (fixA + 1)
  bind proceed
  absoluteWord fixA
  absoluteWord fixB
  moveWord work fixA
  imm .lda 0
  zp .sta (work + 2)
  zp .sta (work + 3)
  zp .sta (work + 4)
  imm .ldx 4
  let widen ← here
  shiftLeftWord work
  zp .rol (work + 2)
  op .dex
  branch .bne widen
  imm .ldx 24
  let loop ← here
  let subtract ← label
  let next ← label
  shiftLeftWord work
  zp .rol (work + 2)
  zp .rol (work + 3)
  zp .rol (work + 4)
  branch .bcs subtract
  compareWord (work + 3) fixB
  branch .bcc next
  bind subtract
  zp .lda (work + 3)
  zp .sbc fixB
  zp .sta (work + 3)
  zp .lda (work + 4)
  zp .sbc (fixB + 1)
  zp .sta (work + 4)
  zp .inc work
  bind next
  op .dex
  branch .bne loop
  let saturated ← label
  zp .lda (work + 2)
  branch .bne saturated
  zp .lda (work + 1)
  branch .bmi saturated
  moveWord fixR work
  signedResult fixR (work + 5)
  bind saturated
  saturate fixR (work + 5)

end Breadbin.Routine
