import Breadbin.Routine.Writer

/-!
# String routines

Strings are zero-terminated and have at most 255 characters.
-/

namespace Breadbin.Routine

open Assembly ZeroPage Writer

/-- Leaves the length of a string, at most 255, in Y. -/
def measure (pointer : UInt8) : Writer Unit := do
  let done ← label
  imm .ldy 0
  let loop ← here
  indY .lda pointer
  branch .beq done
  op .iny
  imm .cpy 0xFF
  branch .bne loop
  bind done

/-- Returns a fixed address. -/
def returnAddress (address : UInt16) : Writer Unit := do
  imm .lda address.toUInt8
  imm .ldx (address >>> 8).toUInt8
  op .rts

/-- Copies the right string first and backwards, then the left one forwards, so that either may be
the buffer itself. -/
def stringConcat : Writer Unit := do
  let buffer := (← target).concatenationBase
  measure string1
  zp .sty work
  measure string2
  zp .sty (work + 1)
  let fits ← label
  imm .lda 0xFF
  op .sec
  zp .sbc work
  zp .cmp (work + 1)
  branch .bcs fits
  zp .sta (work + 1)
  bind fits
  imm .lda buffer.toUInt8
  op .clc
  zp .adc work
  zp .sta (work + 2)
  imm .lda (buffer >>> 8).toUInt8
  imm .adc 0
  zp .sta (work + 3)
  zp .ldy (work + 1)
  imm .lda 0
  indY .sta (work + 2)
  let left ← label
  let done ← label
  op .tya
  branch .beq left
  let right ← here
  op .dey
  indY .lda string2
  indY .sta (work + 2)
  op .tya
  branch .bne right
  bind left
  imm .ldy 0
  let loop ← here
  zp .cpy work
  branch .beq done
  indY .lda string1
  absY .sta buffer
  op .iny
  branch .bne loop
  bind done
  returnAddress buffer

/-- Compares up to the first difference or the common end. -/
def stringEqual : Writer Unit := do
  let equal ← label
  let different ← label
  imm .ldy 0
  let loop ← here
  indY .lda string1
  indY .cmp string2
  branch .bne different
  imm .cmp 0
  branch .beq equal
  op .iny
  branch .bne loop
  bind equal
  imm .lda 1
  op .rts
  bind different
  imm .lda 0
  op .rts

/-- The length of a string. -/
def stringLength : Writer Unit := do
  measure string1
  op .tya
  op .rts

/-- Walks to the index, so that nothing past the end is read. -/
def stringAt : Writer Unit := do
  let done ← label
  zp .sta work
  imm .ldy 0
  let loop ← here
  indY .lda string1
  branch .beq done
  zp .cpy work
  branch .beq done
  op .iny
  branch .bne loop
  imm .lda 0
  bind done
  op .rts

/-- Subtracts powers of ten from ten thousand down; zeros in front are left out, and the last digit
is always written. -/
def formatU16 : Writer Unit := do
  let buffer := (← target).conversionBase
  let powersLow ← label
  let powersHigh ← label
  imm .lda 0
  zp .sta work
  imm .ldx 0
  let power ← here
  imm .lda 0
  zp .sta (work + 1)
  let subtract ← here
  let digit ← label
  let next ← label
  zp .lda intA
  op .sec
  tableX .sbc powersLow
  zp .sta (work + 2)
  zp .lda (intA + 1)
  tableX .sbc powersHigh
  branch .bcc digit
  zp .sta (intA + 1)
  zp .lda (work + 2)
  zp .sta intA
  zp .inc (work + 1)
  jump subtract
  bind digit
  zp .lda (work + 1)
  zp .ora work
  branch .beq next
  zp .lda (work + 1)
  imm .ora 0x30
  absY .sta buffer
  zp .sta work
  op .iny
  bind next
  op .inx
  imm .cpx 4
  branch .bne power
  zp .lda intA
  imm .ora 0x30
  absY .sta buffer
  op .iny
  imm .lda 0
  absY .sta buffer
  op .rts
  bind powersLow
  data [0x10, 0xE8, 100, 10]
  bind powersHigh
  data [0x27, 0x03, 0, 0]

/-- The decimal digits of a word. -/
def textOfU16 : Writer Unit := do
  imm .ldy 0
  call .formatU16
  returnAddress (← target).conversionBase

/-- For a negative word writes a minus sign into the conversion buffer, negates the word and leaves
one in Y; else leaves zero there. -/
def minusSign (a : UInt8) : Writer Unit := do
  let positive ← label
  imm .ldy 0
  zp .lda (a + 1)
  branch .bpl positive
  negateWord a
  imm .lda 0x2D
  abs .sta (← target).conversionBase
  op .iny
  bind positive

/-- The decimal digits of a signed word. -/
def textOfI16 : Writer Unit := do
  minusSign intA
  call .formatU16
  returnAddress (← target).conversionBase

/-- The integer part, a point, and digits made by multiplying the fraction by ten until nothing is
left. -/
def textOfFixed : Writer Unit := do
  let buffer := (← target).conversionBase
  minusSign fixA
  zp .lda fixA
  imm .and 0x0F
  zp .sta (work + 3)
  moveWord intA fixA
  shiftRightWord intA
  shiftRightWord intA
  shiftRightWord intA
  shiftRightWord intA
  call .formatU16
  imm .lda 0x2E
  absY .sta buffer
  op .iny
  let fraction ← here
  zp .lda (work + 3)
  op .asl
  op .asl
  op .clc
  zp .adc (work + 3)
  op .asl
  zp .sta (work + 3)
  op .lsr
  op .lsr
  op .lsr
  op .lsr
  imm .ora 0x30
  absY .sta buffer
  op .iny
  zp .lda (work + 3)
  imm .and 0x0F
  zp .sta (work + 3)
  branch .bne fraction
  absY .sta buffer
  returnAddress buffer

/-- The text of the number as a fixed-point number. -/
def textOfFloat : Writer Unit := do
  call .floatToFixed
  moveWord fixA fixR
  tailCall .textOfFixed

/-- One of two constant texts. -/
def textOfBool : Writer Unit := do
  let trueText ← label
  let falseText ← label
  let isFalse ← label
  zp .lda intA
  branch .beq isFalse
  loadAddress trueText
  op .rts
  bind isFalse
  loadAddress falseText
  op .rts
  bind trueText
  data [0x54, 0x52, 0x55, 0x45, 0]
  bind falseText
  data [0x46, 0x41, 0x4C, 0x53, 0x45, 0]

/-- Multiplies by ten and adds a digit, as long as there are digits. -/
def parseU16 : Writer Unit := do
  let done ← label
  imm .lda 0
  zp .sta intR
  zp .sta (intR + 1)
  let loop ← here
  indY .lda string1
  op .sec
  imm .sbc 0x30
  imm .cmp 10
  branch .bcs done
  zp .sta (work + 2)
  moveWord work intR
  shiftLeftWord intR
  shiftLeftWord intR
  addWord intR intR work
  shiftLeftWord intR
  let noCarry ← label
  op .clc
  zp .lda intR
  zp .adc (work + 2)
  zp .sta intR
  branch .bcc noCarry
  zp .inc (intR + 1)
  bind noCarry
  op .iny
  branch .bne loop
  bind done
  op .rts

/-- Moves Y past the blanks in front of a string. -/
def skipSpaces : Writer Unit := do
  let done ← label
  imm .ldy 0
  let loop ← here
  indY .lda string1
  imm .cmp 0x20
  branch .bne done
  op .iny
  branch .bne loop
  bind done

/-- The value of the digits behind blanks. -/
def u16OfText : Writer Unit := do
  skipSpaces
  call .parseU16
  returnWord intR

/-- The value of the digits behind blanks and perhaps a minus sign. -/
def i16OfText : Writer Unit := do
  let parse ← label
  let positive ← label
  skipSpaces
  imm .ldx 0
  zp .stx (work + 3)
  imm .cmp 0x2D
  branch .bne parse
  zp .sta (work + 3)
  op .iny
  bind parse
  call .parseU16
  zp .lda (work + 3)
  branch .beq positive
  negateWord intR
  bind positive
  returnWord intR

end Breadbin.Routine
