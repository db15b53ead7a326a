import Breadbin.Routine.Writer

/-!
# Output and random numbers

Printing through the built-in software, and a sixteen-bit shift register with feedback as the source
of random numbers.
-/

namespace Breadbin.Routine

open Assembly ZeroPage Writer

/-- What replaces a seed of zero. -/
def fallbackSeed : UInt16 := 0xACE1

/-- The feedback mask of the shift register. -/
def feedback : UInt16 := 0xB400

/-- The frequency of the third voice. -/
def voiceFrequency : UInt16 := 0xD40E

/-- The control register of the third voice. -/
def voiceControl : UInt16 := 0xD412

/-- The output of the third voice. -/
def voiceOutput : UInt16 := 0xD41B

/-- A running timer. -/
def timer : UInt16 := 0xDC04

/-- The line the screen is being drawn at. -/
def rasterLine : UInt16 := 0xD012

/-- The control value that makes noise. -/
def noise : UInt8 := 0x80

/-- Prints characters up to the end of the string. -/
def printString : Writer Unit := do
  let done ← label
  zp .sta string1
  zp .stx (string1 + 1)
  imm .ldy 0
  let loop ← here
  indY .lda string1
  branch .beq done
  abs .jsr (← target).chrout
  op .iny
  branch .bne loop
  bind done
  op .rts

/-- Prints a carriage return. -/
def printLineEnd : Writer Unit := do
  imm .lda 0x0D
  abs .jmp (← target).chrout

/-- Stores a seed; zero, which the generator would never leave, becomes the fallback. -/
def randomSeed : Writer Unit := do
  let proceed ← label
  zp .sta seed
  zp .stx (seed + 1)
  zp .ora (seed + 1)
  branch .bne proceed
  setWord seed fallbackSeed
  bind proceed
  op .rts

/-- One step of the shift register with feedback. -/
def randomNext : Writer Unit := do
  let skip ← label
  shiftRightWord seed
  branch .bcc skip
  zp .lda (seed + 1)
  imm .eor (feedback >>> 8).toUInt8
  zp .sta (seed + 1)
  bind skip
  returnWord seed

/-- Starts a voice on noise and takes a seed from its output, a timer and the raster line. -/
def randomInit : Writer Unit := do
  imm .lda 0xFF
  abs .sta voiceFrequency
  abs .sta (voiceFrequency + 1)
  imm .lda noise
  abs .sta voiceControl
  abs .lda voiceOutput
  abs .eor timer
  abs .eor rasterLine
  op .pha
  abs .lda voiceOutput
  abs .eor (timer + 1)
  op .tax
  op .pla
  tailCall .randomSeed

/-- Reduces the next state modulo the span.  A span of zero stands for all 65536 values, and
division by zero leaves the dividend as the remainder. -/
def randomRange : Writer Unit := do
  op .sec
  zp .lda intB
  zp .sbc intA
  zp .sta intB
  zp .lda (intB + 1)
  zp .sbc (intA + 1)
  zp .sta (intB + 1)
  zp .inc intB
  let skip ← label
  branch .bne skip
  zp .inc (intB + 1)
  bind skip
  moveWord work intA
  call .randomNext
  zp .sta intA
  zp .stx (intA + 1)
  call .divU16
  addWord intR intRemainder work
  returnWord intR

/-- The state after one step of the generator. -/
def nextSeed (s : UInt16) : UInt16 :=
  if s &&& 1 = 0 then s >>> 1 else (s >>> 1) ^^^ feedback

/-- The number in a range that a state gives. -/
def rangeValue (s low high : UInt16) : UInt16 :=
  let width := high - low + 1
  if width = 0 then low + s else low + s % width

end Breadbin.Routine
