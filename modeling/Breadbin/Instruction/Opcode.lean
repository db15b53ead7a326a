/-!
# Instructions

The mnemonics, the addressing modes and the table of encodings.
-/

namespace Breadbin

/-!
## Mnemonics

The instructions of the processor, each named independently of how it addresses its operand.
-/

/-- The name of an instruction.  Zero names none, and neither does a code past the last one. -/
inductive Mnemonic where
  | none
  | adc | and | asl | bcc | bcs | beq | bit | bmi | bne | bpl | brk | bvc
  | bvs | clc | cld | cli | clv | cmp | cpx | cpy | dec | dex | dey | eor
  | inc | inx | iny | jmp | jsr | lda | ldx | ldy | lsr | nop | ora | pha
  | php | pla | plp | rol | ror | rti | rts | sbc | sec | sed | sei | sta
  | stx | sty | tax | tay | tsx | txa | txs | tya
  | unknown (code : UInt8)
  deriving DecidableEq, Repr, Inhabited

namespace Mnemonic

/-- The mnemonics by code, from zero on. -/
def known : List Mnemonic :=
  [none,
    adc, and, asl, bcc, bcs, beq, bit, bmi, bne, bpl, brk, bvc, bvs, clc,
    cld, cli, clv, cmp, cpx, cpy, dec, dex, dey, eor, inc, inx, iny, jmp,
    jsr, lda, ldx, ldy, lsr, nop, ora, pha, php, pla, plp, rol, ror, rti,
    rts, sbc, sec, sed, sei, sta, stx, sty, tax, tay, tsx, txa, txs, tya]

/-- The mnemonic with a code. -/
def ofCode (code : UInt8) : Mnemonic :=
  known[code.toNat]?.getD (unknown code)

/-- The spelling of a mnemonic. -/
def text : Mnemonic → String
  | none => "???"
  | adc => "ADC" | and => "AND" | asl => "ASL" | bcc => "BCC"
  | bcs => "BCS" | beq => "BEQ" | bit => "BIT" | bmi => "BMI"
  | bne => "BNE" | bpl => "BPL" | brk => "BRK" | bvc => "BVC"
  | bvs => "BVS" | clc => "CLC" | cld => "CLD" | cli => "CLI"
  | clv => "CLV" | cmp => "CMP" | cpx => "CPX" | cpy => "CPY"
  | dec => "DEC" | dex => "DEX" | dey => "DEY" | eor => "EOR"
  | inc => "INC" | inx => "INX" | iny => "INY" | jmp => "JMP"
  | jsr => "JSR" | lda => "LDA" | ldx => "LDX" | ldy => "LDY"
  | lsr => "LSR" | nop => "NOP" | ora => "ORA" | pha => "PHA"
  | php => "PHP" | pla => "PLA" | plp => "PLP" | rol => "ROL"
  | ror => "ROR" | rti => "RTI" | rts => "RTS" | sbc => "SBC"
  | sec => "SEC" | sed => "SED" | sei => "SEI" | sta => "STA"
  | stx => "STX" | sty => "STY" | tax => "TAX" | tay => "TAY"
  | tsx => "TSX" | txa => "TXA" | txs => "TXS" | tya => "TYA"
  | unknown code => s!"Mnemonic({code.toNat})"

/-- The mnemonic with a spelling. -/
def parse? (s : String) : Option Mnemonic :=
  known.find? fun m => m.text == s

/-- The conditional branch taken exactly when this one is not. -/
def inverse? : Mnemonic → Option Mnemonic
  | bcc => some bcs
  | bcs => some bcc
  | beq => some bne
  | bne => some beq
  | bmi => some bpl
  | bpl => some bmi
  | bvc => some bvs
  | bvs => some bvc
  | _ => Option.none

/-- Whether the instruction is a conditional branch. -/
def isBranch (m : Mnemonic) : Bool := m.inverse?.isSome

end Mnemonic

/-! ## Addressing modes -/

/-- How an instruction finds its operand. -/
inductive Mode where
  | implied
  | accumulator
  | immediate
  | zeroPage
  | zeroPageX
  | zeroPageY
  | absolute
  | absoluteX
  | absoluteY
  | indirect
  | indirectX
  | indirectY
  | relative
  | unknown (code : UInt8)
  deriving DecidableEq, Repr, Inhabited

namespace Mode

/-- The modes by code, from zero on. -/
def known : List Mode :=
  [implied, accumulator, immediate, zeroPage, zeroPageX, zeroPageY, absolute, absoluteX, absoluteY,
    indirect, indirectX, indirectY, relative]

/-- The mode with a code. -/
def ofCode (code : UInt8) : Mode :=
  known[code.toNat]?.getD (unknown code)

def text : Mode → String
  | implied => "implied"
  | accumulator => "accumulator"
  | immediate => "immediate"
  | zeroPage => "zeropage"
  | zeroPageX => "zeropage,x"
  | zeroPageY => "zeropage,y"
  | absolute => "absolute"
  | absoluteX => "absolute,x"
  | absoluteY => "absolute,y"
  | indirect => "indirect"
  | indirectX => "(indirect,x)"
  | indirectY => "(indirect),y"
  | relative => "relative"
  | unknown code => s!"Mode({code.toNat})"

/-- The number of operand bytes after the opcode. -/
def operandSize : Mode → Nat
  | implied | accumulator => 0
  | absolute | absoluteX | absoluteY | indirect => 2
  | _ => 1

/-- The length of an instruction with its opcode. -/
def size (m : Mode) : Nat := 1 + m.operandSize

end Mode

/-!
## The encoding table

Every documented instruction of the processor in every mode it has, with its opcode and the cycles
it takes.  The assembler, the disassembler and the simulated processor all read this table.
-/

/-- One row of the encoding table. -/
structure Opcode where
  code : UInt8
  mnemonic : Mnemonic
  mode : Mode
  cycles : Nat
  deriving DecidableEq, Repr, Inhabited

namespace Opcode

/-- The encoding table. -/
def table : List Opcode := [
  ⟨0x69, .adc, .immediate, 2⟩, ⟨0x65, .adc, .zeroPage, 3⟩, ⟨0x75, .adc, .zeroPageX, 4⟩,
  ⟨0x6D, .adc, .absolute, 4⟩, ⟨0x7D, .adc, .absoluteX, 4⟩, ⟨0x79, .adc, .absoluteY, 4⟩,
  ⟨0x61, .adc, .indirectX, 6⟩, ⟨0x71, .adc, .indirectY, 5⟩, ⟨0x29, .and, .immediate, 2⟩,
  ⟨0x25, .and, .zeroPage, 3⟩, ⟨0x35, .and, .zeroPageX, 4⟩, ⟨0x2D, .and, .absolute, 4⟩,
  ⟨0x3D, .and, .absoluteX, 4⟩, ⟨0x39, .and, .absoluteY, 4⟩, ⟨0x21, .and, .indirectX, 6⟩,
  ⟨0x31, .and, .indirectY, 5⟩, ⟨0x0A, .asl, .accumulator, 2⟩, ⟨0x06, .asl, .zeroPage, 5⟩,
  ⟨0x16, .asl, .zeroPageX, 6⟩, ⟨0x0E, .asl, .absolute, 6⟩, ⟨0x1E, .asl, .absoluteX, 7⟩,
  ⟨0x90, .bcc, .relative, 2⟩, ⟨0xB0, .bcs, .relative, 2⟩, ⟨0xF0, .beq, .relative, 2⟩,
  ⟨0x30, .bmi, .relative, 2⟩, ⟨0xD0, .bne, .relative, 2⟩, ⟨0x10, .bpl, .relative, 2⟩,
  ⟨0x50, .bvc, .relative, 2⟩, ⟨0x70, .bvs, .relative, 2⟩, ⟨0x24, .bit, .zeroPage, 3⟩,
  ⟨0x2C, .bit, .absolute, 4⟩, ⟨0x00, .brk, .implied, 7⟩, ⟨0x18, .clc, .implied, 2⟩,
  ⟨0xD8, .cld, .implied, 2⟩, ⟨0x58, .cli, .implied, 2⟩, ⟨0xB8, .clv, .implied, 2⟩,
  ⟨0xC9, .cmp, .immediate, 2⟩, ⟨0xC5, .cmp, .zeroPage, 3⟩, ⟨0xD5, .cmp, .zeroPageX, 4⟩,
  ⟨0xCD, .cmp, .absolute, 4⟩, ⟨0xDD, .cmp, .absoluteX, 4⟩, ⟨0xD9, .cmp, .absoluteY, 4⟩,
  ⟨0xC1, .cmp, .indirectX, 6⟩, ⟨0xD1, .cmp, .indirectY, 5⟩, ⟨0xE0, .cpx, .immediate, 2⟩,
  ⟨0xE4, .cpx, .zeroPage, 3⟩, ⟨0xEC, .cpx, .absolute, 4⟩, ⟨0xC0, .cpy, .immediate, 2⟩,
  ⟨0xC4, .cpy, .zeroPage, 3⟩, ⟨0xCC, .cpy, .absolute, 4⟩, ⟨0xC6, .dec, .zeroPage, 5⟩,
  ⟨0xD6, .dec, .zeroPageX, 6⟩, ⟨0xCE, .dec, .absolute, 6⟩, ⟨0xDE, .dec, .absoluteX, 7⟩,
  ⟨0xCA, .dex, .implied, 2⟩, ⟨0x88, .dey, .implied, 2⟩, ⟨0x49, .eor, .immediate, 2⟩,
  ⟨0x45, .eor, .zeroPage, 3⟩, ⟨0x55, .eor, .zeroPageX, 4⟩, ⟨0x4D, .eor, .absolute, 4⟩,
  ⟨0x5D, .eor, .absoluteX, 4⟩, ⟨0x59, .eor, .absoluteY, 4⟩, ⟨0x41, .eor, .indirectX, 6⟩,
  ⟨0x51, .eor, .indirectY, 5⟩, ⟨0xE6, .inc, .zeroPage, 5⟩, ⟨0xF6, .inc, .zeroPageX, 6⟩,
  ⟨0xEE, .inc, .absolute, 6⟩, ⟨0xFE, .inc, .absoluteX, 7⟩, ⟨0xE8, .inx, .implied, 2⟩,
  ⟨0xC8, .iny, .implied, 2⟩, ⟨0x4C, .jmp, .absolute, 3⟩, ⟨0x6C, .jmp, .indirect, 5⟩,
  ⟨0x20, .jsr, .absolute, 6⟩, ⟨0xA9, .lda, .immediate, 2⟩, ⟨0xA5, .lda, .zeroPage, 3⟩,
  ⟨0xB5, .lda, .zeroPageX, 4⟩, ⟨0xAD, .lda, .absolute, 4⟩, ⟨0xBD, .lda, .absoluteX, 4⟩,
  ⟨0xB9, .lda, .absoluteY, 4⟩, ⟨0xA1, .lda, .indirectX, 6⟩, ⟨0xB1, .lda, .indirectY, 5⟩,
  ⟨0xA2, .ldx, .immediate, 2⟩, ⟨0xA6, .ldx, .zeroPage, 3⟩, ⟨0xB6, .ldx, .zeroPageY, 4⟩,
  ⟨0xAE, .ldx, .absolute, 4⟩, ⟨0xBE, .ldx, .absoluteY, 4⟩, ⟨0xA0, .ldy, .immediate, 2⟩,
  ⟨0xA4, .ldy, .zeroPage, 3⟩, ⟨0xB4, .ldy, .zeroPageX, 4⟩, ⟨0xAC, .ldy, .absolute, 4⟩,
  ⟨0xBC, .ldy, .absoluteX, 4⟩, ⟨0x4A, .lsr, .accumulator, 2⟩, ⟨0x46, .lsr, .zeroPage, 5⟩,
  ⟨0x56, .lsr, .zeroPageX, 6⟩, ⟨0x4E, .lsr, .absolute, 6⟩, ⟨0x5E, .lsr, .absoluteX, 7⟩,
  ⟨0xEA, .nop, .implied, 2⟩, ⟨0x09, .ora, .immediate, 2⟩, ⟨0x05, .ora, .zeroPage, 3⟩,
  ⟨0x15, .ora, .zeroPageX, 4⟩, ⟨0x0D, .ora, .absolute, 4⟩, ⟨0x1D, .ora, .absoluteX, 4⟩,
  ⟨0x19, .ora, .absoluteY, 4⟩, ⟨0x01, .ora, .indirectX, 6⟩, ⟨0x11, .ora, .indirectY, 5⟩,
  ⟨0x48, .pha, .implied, 3⟩, ⟨0x08, .php, .implied, 3⟩, ⟨0x68, .pla, .implied, 4⟩,
  ⟨0x28, .plp, .implied, 4⟩, ⟨0x2A, .rol, .accumulator, 2⟩, ⟨0x26, .rol, .zeroPage, 5⟩,
  ⟨0x36, .rol, .zeroPageX, 6⟩, ⟨0x2E, .rol, .absolute, 6⟩, ⟨0x3E, .rol, .absoluteX, 7⟩,
  ⟨0x6A, .ror, .accumulator, 2⟩, ⟨0x66, .ror, .zeroPage, 5⟩, ⟨0x76, .ror, .zeroPageX, 6⟩,
  ⟨0x6E, .ror, .absolute, 6⟩, ⟨0x7E, .ror, .absoluteX, 7⟩, ⟨0x40, .rti, .implied, 6⟩,
  ⟨0x60, .rts, .implied, 6⟩, ⟨0xE9, .sbc, .immediate, 2⟩, ⟨0xE5, .sbc, .zeroPage, 3⟩,
  ⟨0xF5, .sbc, .zeroPageX, 4⟩, ⟨0xED, .sbc, .absolute, 4⟩, ⟨0xFD, .sbc, .absoluteX, 4⟩,
  ⟨0xF9, .sbc, .absoluteY, 4⟩, ⟨0xE1, .sbc, .indirectX, 6⟩, ⟨0xF1, .sbc, .indirectY, 5⟩,
  ⟨0x38, .sec, .implied, 2⟩, ⟨0xF8, .sed, .implied, 2⟩, ⟨0x78, .sei, .implied, 2⟩,
  ⟨0x85, .sta, .zeroPage, 3⟩, ⟨0x95, .sta, .zeroPageX, 4⟩, ⟨0x8D, .sta, .absolute, 4⟩,
  ⟨0x9D, .sta, .absoluteX, 5⟩, ⟨0x99, .sta, .absoluteY, 5⟩, ⟨0x81, .sta, .indirectX, 6⟩,
  ⟨0x91, .sta, .indirectY, 6⟩, ⟨0x86, .stx, .zeroPage, 3⟩, ⟨0x96, .stx, .zeroPageY, 4⟩,
  ⟨0x8E, .stx, .absolute, 4⟩, ⟨0x84, .sty, .zeroPage, 3⟩, ⟨0x94, .sty, .zeroPageX, 4⟩,
  ⟨0x8C, .sty, .absolute, 4⟩, ⟨0xAA, .tax, .implied, 2⟩, ⟨0xA8, .tay, .implied, 2⟩,
  ⟨0xBA, .tsx, .implied, 2⟩, ⟨0x8A, .txa, .implied, 2⟩, ⟨0x9A, .txs, .implied, 2⟩,
  ⟨0x98, .tya, .implied, 2⟩]

/-- The table by opcode. -/
def byCode : Array (Option Opcode) :=
  Array.ofFn fun code : Fin 256 => table.find? fun op => op.code.toNat == code.val

/-- The row of an opcode. -/
def decode? (code : UInt8) : Option Opcode :=
  (byCode[code.toNat]?).join

/-- The opcode of an instruction in a mode. -/
def encode? (mnemonic : Mnemonic) (mode : Mode) : Option UInt8 :=
  (table.find? fun op => op.mnemonic == mnemonic && op.mode == mode).map (·.code)

/-- The opcode of the branch taken exactly when this one is not. -/
def inverse? (code : UInt8) : Option UInt8 := do
  let op ← decode? code
  guard (op.mode == .relative)
  let inverse ← op.mnemonic.inverse?
  encode? inverse .relative

/-- Whether a displacement, counted from the end of a branch, fits its operand byte. -/
def branchFits (displacement : Int) : Bool :=
  -128 ≤ displacement && displacement ≤ 127

/-- The address a branch at `address` leads to. -/
def branchTarget (address : UInt16) (displacement : UInt8) : UInt16 :=
  address + 2 + displacement.toUInt16 + (if displacement < 0x80 then 0 else 0xFF00)

end Opcode

end Breadbin
