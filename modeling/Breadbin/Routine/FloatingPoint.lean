import Breadbin.Routine.FixedPoint

/-!
# Floating-point routines

Half-precision arithmetic.  Inside the routines a finite non-zero number is unpacked to a sign byte,
an exponent `e` and a word `m` with its leading one at bit thirteen, so that the magnitude is `m * 2
^ (e - 28)`.  The three bits below the eleven of the mantissa decide how it is rounded; the lowest
one stays set once a bit shifted through it was set.
-/

namespace Breadbin.Routine

open Assembly ZeroPage Writer

/-- The pattern that stands for no number. -/
def notANumber : UInt16 := 0x7E00

/-- The exponent bits of the high byte. -/
def exponentBits : UInt8 := 0x7C

/-- Bit thirteen, in the high byte. -/
def leadingBit : UInt8 := 0x20

/-- Bit fourteen, in the high byte. -/
def overflowBit : UInt8 := 0x40

/-- Branches when the exponent of a number is all ones. -/
def branchSpecial (a : UInt8) (l : LabelId) : Writer Unit := do
  zp .lda (a + 1)
  imm .and exponentBits
  imm .cmp exponentBits
  branch .beq l

/-- Branches when a number is zero of either sign. -/
def branchZero (a : UInt8) (l : LabelId) : Writer Unit := do
  zp .lda (a + 1)
  imm .and 0x7F
  zp .ora a
  branch .beq l

/-- Branches when a pattern stands for no number. -/
def branchNan (a : UInt8) (l : LabelId) : Writer Unit := do
  let skip ← label
  zp .lda (a + 1)
  imm .and exponentBits
  imm .cmp exponentBits
  branch .bne skip
  zp .lda (a + 1)
  imm .and 0x03
  zp .ora a
  branch .bne l
  bind skip

/-- Returns a constant through a slot. -/
def returnConstant (r : UInt8) (v : UInt16) : Writer Unit := do
  setWord r v
  returnWord r

/-- Returns a zero or an infinity with the sign in the first work byte; `hi` is the exponent part of
the high byte. -/
def returnSigned (hi : UInt8) : Writer Unit := do
  imm .lda 0
  zp .sta floatR
  imm .lda hi
  zp .ora work
  zp .sta (floatR + 1)
  returnWord floatR

/-- Turns a finite non-zero number into its mantissa in place, the leading one at bit thirteen, and
stores its sign and its exponent. -/
def unpack (m sign exponent : UInt8) : Writer Unit := do
  let subnormal ← label
  let shift ← label
  let normalise ← label
  let done ← label
  zp .lda (m + 1)
  imm .and 0x80
  zp .sta sign
  zp .lda (m + 1)
  op .lsr
  op .lsr
  imm .and 0x1F
  zp .sta exponent
  zp .lda (m + 1)
  imm .and 0x03
  zp .sta (m + 1)
  zp .lda exponent
  branch .beq subnormal
  zp .lda (m + 1)
  imm .ora 0x04
  zp .sta (m + 1)
  jump shift
  bind subnormal
  zp .inc exponent
  bind shift
  shiftLeftWord m
  shiftLeftWord m
  shiftLeftWord m
  bind normalise
  zp .lda (m + 1)
  imm .and leadingBit
  branch .bne done
  shiftLeftWord m
  zp .dec exponent
  jump normalise
  bind done

/-- Exchanges two bytes through Y. -/
def swapBytes (a b : UInt8) : Writer Unit := do
  zp .lda a
  zp .ldy b
  zp .sta b
  zp .sty a

/-- Rounds an unpacked number to the nearest, a tie going to the even one, and packs it.  An
exponent that is not positive is brought up to one first; one of thirty-one or more gives an
infinity. -/
def floatPack : Writer Unit := do
  let denorm ← label
  let shift ← label
  let round ← label
  bind denorm
  zp .lda (work + 1)
  branch .bmi shift
  branch .bne round
  bind shift
  shiftRightSticky floatR
  zp .inc (work + 1)
  jump denorm
  bind round
  let up ← label
  let carry ← label
  let rounded ← label
  zp .lda floatR
  imm .and 0x07
  zp .sta (work + 2)
  shiftRightWord floatR
  shiftRightWord floatR
  shiftRightWord floatR
  zp .lda (work + 2)
  imm .cmp 5
  branch .bcs up
  imm .cmp 4
  branch .bne rounded
  zp .lda floatR
  imm .and 0x01
  branch .beq rounded
  bind up
  zp .inc floatR
  branch .bne carry
  zp .inc (floatR + 1)
  bind carry
  zp .lda (floatR + 1)
  imm .and 0x08
  branch .beq rounded
  shiftRightWord floatR
  zp .inc (work + 1)
  bind rounded
  let infinite ← label
  let subnormal ← label
  let sign ← label
  zp .lda (work + 1)
  imm .cmp 31
  branch .bcs infinite
  zp .lda (floatR + 1)
  imm .and 0x04
  branch .beq subnormal
  zp .lda (work + 1)
  op .asl
  op .asl
  zp .sta (work + 2)
  zp .lda (floatR + 1)
  imm .and 0x03
  zp .ora (work + 2)
  jump sign
  bind subnormal
  zp .lda (floatR + 1)
  bind sign
  zp .ora work
  zp .sta (floatR + 1)
  returnWord floatR
  bind infinite
  returnSigned exponentBits

/-- Aligns the smaller number with the larger one, adds or subtracts the mantissas and packs the
result. -/
def floatAdd : Writer Unit := do
  let specialA ← label
  let zeroA ← label
  let returnA ← label
  let returnB ← label
  let nan ← label
  branchSpecial floatA specialA
  branchSpecial floatB returnB
  branchZero floatA zeroA
  branchZero floatB returnA
  unpack floatA work (work + 1)
  unpack floatB (work + 2) (work + 3)
  -- Order the operands so that |A| >= |B|.
  let swapped ← label
  let ordered ← label
  zp .lda (work + 1)
  op .sec
  zp .sbc (work + 3)
  branch .bmi swapped
  branch .bne ordered
  compareWord floatA floatB
  branch .bcs ordered
  bind swapped
  swapBytes work (work + 2)
  swapBytes (work + 1) (work + 3)
  swapBytes floatA floatB
  swapBytes (floatA + 1) (floatB + 1)
  bind ordered
  let aligned ← label
  let far ← label
  zp .lda (work + 1)
  op .sec
  zp .sbc (work + 3)
  branch .beq aligned
  imm .cmp 16
  branch .bcs far
  op .tax
  let shiftB ← here
  shiftRightSticky floatB
  op .dex
  branch .bne shiftB
  jump aligned
  bind far
  setWord floatB 1
  bind aligned
  let differ ← label
  let pack ← label
  zp .lda work
  zp .eor (work + 2)
  branch .bmi differ
  addWord floatR floatA floatB
  zp .lda (floatR + 1)
  imm .and overflowBit
  branch .beq pack
  shiftRightSticky floatR
  zp .inc (work + 1)
  jump pack
  bind differ
  let nonzero ← label
  subWord floatR floatA floatB
  testWord floatR
  branch .bne nonzero
  op .tax
  op .rts
  bind nonzero
  let normalise ← here
  zp .lda (floatR + 1)
  imm .and leadingBit
  branch .bne pack
  shiftLeftWord floatR
  zp .dec (work + 1)
  jump normalise
  bind pack
  tailCall .floatPack
  -- A is infinite or NaN.
  bind specialA
  let bothSpecial ← label
  branchSpecial floatB bothSpecial
  bind returnA
  moveWord floatR floatA
  returnWord floatR
  bind bothSpecial
  zp .lda floatA
  zp .cmp floatB
  branch .bne nan
  zp .lda (floatA + 1)
  zp .cmp (floatB + 1)
  branch .beq returnA
  bind nan
  returnConstant floatR notANumber
  bind zeroA
  let bothZero ← label
  branchZero floatB bothZero
  bind returnB
  moveWord floatR floatB
  returnWord floatR
  bind bothZero
  zp .lda floatA
  zp .and floatB
  zp .sta floatR
  zp .lda (floatA + 1)
  zp .and (floatB + 1)
  zp .sta (floatR + 1)
  returnWord floatR

/-- Adds the negated number. -/
def floatSub : Writer Unit := do
  zp .lda (floatB + 1)
  imm .eor 0x80
  zp .sta (floatB + 1)
  tailCall .floatAdd

/-- Multiplies the mantissas and brings the leading one back to bit thirteen, with every lost bit
sticking to the lowest one. -/
def floatMul : Writer Unit := do
  let nan ← label
  let infiniteA ← label
  let infiniteB ← label
  let infinite ← label
  let zero ← label
  zp .lda (floatA + 1)
  zp .eor (floatB + 1)
  imm .and 0x80
  zp .sta work
  branchNan floatA nan
  branchNan floatB nan
  branchSpecial floatA infiniteA
  branchSpecial floatB infiniteB
  branchZero floatA zero
  branchZero floatB zero
  unpack floatA (work + 3) (work + 1)
  unpack floatB (work + 3) (work + 2)
  multiplyWide floatR floatB floatA
  -- The product has its leading one at bit 26 or 27; bring it back to 13.
  imm .ldx 13
  let shift ← here
  zp .lsr (floatR + 1)
  zp .ror floatR
  zp .ror (floatB + 1)
  zp .ror floatB
  sticky floatB
  op .dex
  branch .bne shift
  moveWord floatR floatB
  let pack ← label
  zp .lda (work + 1)
  op .clc
  zp .adc (work + 2)
  op .sec
  imm .sbc 15
  zp .sta (work + 1)
  zp .lda (floatR + 1)
  imm .and overflowBit
  branch .beq pack
  shiftRightSticky floatR
  zp .inc (work + 1)
  bind pack
  tailCall .floatPack
  bind infiniteA
  branchZero floatB nan
  jump infinite
  bind infiniteB
  branchZero floatA nan
  bind infinite
  returnSigned exponentBits
  bind zero
  returnSigned 0
  bind nan
  returnConstant floatR notANumber

/-- Restoring division of the mantissas to fifteen bits; a remainder sticks to the lowest one. -/
def floatDiv : Writer Unit := do
  let nan ← label
  let infiniteA ← label
  let zeroB ← label
  let infinite ← label
  let zero ← label
  zp .lda (floatA + 1)
  zp .eor (floatB + 1)
  imm .and 0x80
  zp .sta work
  branchNan floatA nan
  branchNan floatB nan
  branchSpecial floatA infiniteA
  branchSpecial floatB zero
  branchZero floatB zeroB
  branchZero floatA zero
  unpack floatA (work + 3) (work + 1)
  unpack floatB (work + 3) (work + 2)
  -- Restoring division: remainder in FltA, quotient in FltR, 15 bits.
  imm .lda 0
  zp .sta floatR
  zp .sta (floatR + 1)
  imm .ldy 15
  let loop ← here
  let skip ← label
  shiftLeftWord floatR
  compareWord floatA floatB
  branch .bcc skip
  subWord floatA floatA floatB
  zp .inc floatR
  bind skip
  shiftLeftWord floatA
  op .dey
  branch .bne loop
  let exact ← label
  let pack ← label
  testWord floatA
  branch .beq exact
  zp .lda floatR
  imm .ora 0x01
  zp .sta floatR
  bind exact
  zp .lda (work + 1)
  op .sec
  zp .sbc (work + 2)
  op .clc
  imm .adc 14
  zp .sta (work + 1)
  zp .lda (floatR + 1)
  imm .and overflowBit
  branch .beq pack
  shiftRightSticky floatR
  zp .inc (work + 1)
  bind pack
  tailCall .floatPack
  bind infiniteA
  branchSpecial floatB nan
  jump infinite
  bind zeroB
  branchZero floatA nan
  bind infinite
  returnSigned exponentBits
  bind zero
  returnSigned 0
  bind nan
  returnConstant floatR notANumber

/-- Maps a number to a word whose unsigned order is the order of the numbers. -/
def sortKey (a : UInt8) : Writer Unit := do
  let negative ← label
  let done ← label
  zp .lda (a + 1)
  branch .bmi negative
  imm .ora 0x80
  zp .sta (a + 1)
  jump done
  bind negative
  zp .lda a
  imm .eor 0xFF
  zp .sta a
  zp .lda (a + 1)
  imm .eor 0xFF
  zp .sta (a + 1)
  bind done

/-- Compares by sort keys; both zeros are equal, and what is no number counts as greater. -/
def floatCompare : Writer Unit := do
  let equal ← label
  let less ← label
  let greater ← label
  let decided ← label
  branchNan floatA greater
  branchNan floatB greater
  zp .lda (floatA + 1)
  zp .ora (floatB + 1)
  imm .and 0x7F
  zp .ora floatA
  zp .ora floatB
  branch .beq equal
  sortKey floatA
  sortKey floatB
  zp .lda (floatA + 1)
  zp .cmp (floatB + 1)
  branch .bne decided
  zp .lda floatA
  zp .cmp floatB
  branch .bne decided
  bind equal
  imm .lda 0
  op .rts
  bind decided
  branch .bcc less
  bind greater
  imm .lda 1
  op .rts
  bind less
  imm .lda 0xFF
  op .rts

/-- Normalises a magnitude in either direction and packs it. -/
def floatOfMagnitude : Writer Unit := do
  let right ← label
  let left ← label
  let done ← label
  moveWord floatR intA
  imm .lda 28
  zp .sta (work + 1)
  testWord floatR
  branch .bne right
  op .tax
  op .rts
  bind right
  zp .lda (floatR + 1)
  imm .and 0xC0
  branch .beq left
  shiftRightSticky floatR
  zp .inc (work + 1)
  jump right
  bind left
  zp .lda (floatR + 1)
  imm .and leadingBit
  branch .bne done
  shiftLeftWord floatR
  zp .dec (work + 1)
  jump left
  bind done
  tailCall .floatPack

/-- A magnitude without a sign. -/
def floatOfU16 : Writer Unit := do
  imm .lda 0
  zp .sta work
  tailCall .floatOfMagnitude

/-- The sign and the magnitude of a signed word. -/
def floatOfI16 : Writer Unit := do
  zp .lda (intA + 1)
  imm .and 0x80
  zp .sta work
  absoluteWord intA
  tailCall .floatOfMagnitude

/-- Shifts the mantissa by the exponent less the bias, rounding towards zero.  No number gives zero,
and what is too large all ones. -/
def floatTruncate : Writer Unit := do
  let special ← label
  let zero ← label
  let saturated ← label
  let right ← label
  let done ← label
  zp .lda (floatA + 1)
  imm .and 0x80
  zp .sta work
  branchSpecial floatA special
  branchZero floatA zero
  unpack floatA work (work + 1)
  moveWord floatR floatA
  zp .lda (work + 1)
  op .sec
  zp .sbc (work + 5)
  branch .beq done
  branch .bmi right
  op .tax
  let left ← here
  shiftLeftWord floatR
  branch .bcs saturated
  op .dex
  branch .bne left
  op .rts
  bind right
  imm .eor 0xFF
  op .clc
  imm .adc 1
  imm .cmp 16
  branch .bcs zero
  op .tax
  let shift ← here
  shiftRightWord floatR
  op .dex
  branch .bne shift
  bind done
  op .rts
  bind special
  zp .lda (floatA + 1)
  imm .and 0x03
  zp .ora floatA
  branch .beq saturated
  imm .lda 0
  zp .sta work
  bind zero
  imm .lda 0
  zp .sta floatR
  zp .sta (floatR + 1)
  op .rts
  bind saturated
  imm .lda 0xFF
  zp .sta floatR
  zp .sta (floatR + 1)
  op .rts

/-- Gives a magnitude its sign, saturated to the signed range. -/
def floatSaturate : Writer Unit := do
  let negative ← label
  let fitsPositive ← label
  let clamp ← label
  let fitsNegative ← label
  zp .lda work
  branch .bmi negative
  zp .lda (floatR + 1)
  branch .bpl fitsPositive
  setWord floatR 0x7FFF
  bind fitsPositive
  moveWord intR floatR
  returnWord intR
  bind negative
  zp .lda (floatR + 1)
  branch .bpl fitsNegative
  imm .cmp 0x80
  branch .bne clamp
  zp .lda floatR
  branch .beq fitsNegative
  bind clamp
  setWord floatR 0x8000
  bind fitsNegative
  moveWord intR floatR
  negateWord intR
  returnWord intR

/-- Truncates; negative numbers give zero. -/
def floatToU16 : Writer Unit := do
  let positive ← label
  imm .lda 28
  zp .sta (work + 5)
  call .floatTruncate
  zp .lda work
  branch .bpl positive
  returnConstant intR 0
  bind positive
  moveWord intR floatR
  returnWord intR

/-- Truncates and saturates. -/
def floatToI16 : Writer Unit := do
  imm .lda 28
  zp .sta (work + 5)
  call .floatTruncate
  tailCall .floatSaturate

/-- Converts the stored word as an integer and takes four from the exponent, which is exact. -/
def floatOfFixed : Writer Unit := do
  let zero ← label
  moveWord intA fixA
  call .floatOfI16
  testWord floatR
  branch .beq zero
  zp .lda (floatR + 1)
  op .sec
  imm .sbc 0x10
  zp .sta (floatR + 1)
  bind zero
  returnWord floatR

/-- Truncates with a bias four smaller and saturates. -/
def floatToFixed : Writer Unit := do
  imm .lda 24
  zp .sta (work + 5)
  call .floatTruncate
  call .floatSaturate
  zp .sta fixR
  zp .stx (fixR + 1)
  op .rts

end Breadbin.Routine
