import Breadbin.Instruction.Opcode

/-!
# Encoding and decoding

The encoding table has one row for each opcode, and decoding finds it.  Hence decoding the opcode of
an instruction gives the instruction back.
-/

namespace Breadbin.Opcode

theorem decode?_eq_find? (code : UInt8) :
    decode? code = table.find? fun op => op.code.toNat == code.toNat := by
  have hlt : code.toNat < 256 := code.toNat_lt
  simp [decode?, byCode, hlt]

/-- No two rows of the table share an opcode. -/
theorem find?_code_of_mem :
    ∀ op ∈ table, (table.find? fun other => other.code.toNat == op.code.toNat) = some op := by
  decide +kernel

theorem decode?_of_mem {code : UInt8} {mn : Mnemonic} {mode : Mode} {cycles : Nat}
    (h : ⟨code, mn, mode, cycles⟩ ∈ table) : decode? code = some ⟨code, mn, mode, cycles⟩ := by
  rw [decode?_eq_find?]
  exact find?_code_of_mem _ h

/-- The opcode of an instruction stands in the row of the instruction. -/
theorem mem_of_encode? {mn : Mnemonic} {mode : Mode} {code : UInt8}
    (h : encode? mn mode = some code) :
    ∃ cycles, ⟨code, mn, mode, cycles⟩ ∈ table := by
  obtain ⟨op, hop, rfl⟩ := Option.map_eq_some_iff.1 h
  have hmem := List.mem_of_find?_eq_some hop
  have hkey := List.find?_some hop
  simp only [Bool.and_eq_true, beq_iff_eq] at hkey
  obtain ⟨rfl, rfl⟩ := hkey
  exact ⟨op.cycles, hmem⟩

/-- Decoding the opcode of an instruction gives the instruction back. -/
theorem decode?_of_encode? {mn : Mnemonic} {mode : Mode} {code : UInt8}
    (h : encode? mn mode = some code) : ∃ cycles, decode? code = some ⟨code, mn, mode, cycles⟩ := by
  obtain ⟨cycles, hmem⟩ := mem_of_encode? h
  exact ⟨cycles, decode?_of_mem hmem⟩

/-- Every branch has an inverse. -/
theorem inverse_of_mem :
    ∀ op ∈ table, op.mode = .relative → ∃ inv ∈ op.mnemonic.inverse?,
      (encode? inv .relative).isSome := by
  decide +kernel

/-- The opcode of a branch leads to the opcode of its inverse. -/
theorem inverse?_of_encode? {mn : Mnemonic} {op : UInt8} (h : encode? mn .relative = some op) :
    ∃ inv code, mn.inverse? = some inv ∧ encode? inv .relative = some code ∧
      inverse? op = some code := by
  obtain ⟨cycles, hmem⟩ := mem_of_encode? h
  obtain ⟨inv, hinv, hsome⟩ := inverse_of_mem _ hmem rfl
  obtain ⟨code, hcode⟩ := Option.isSome_iff_exists.1 hsome
  refine ⟨inv, code, hinv, hcode, ?_⟩
  have hinv : mn.inverse? = some inv := hinv
  rw [inverse?, decode?_of_mem hmem]
  change (mn.inverse? >>= fun inverse => encode? inverse .relative) = some code
  rw [hinv]
  exact hcode

/-- Whether an instruction exists in a mode, told without a search of the table. -/
@[reducible] def takes (mn : Mnemonic) : Mode → Bool
  | .immediate =>
    (mn matches .adc | .and | .cmp | .cpx | .cpy | .eor | .lda | .ldx | .ldy | .ora | .sbc)
  | .zeroPage =>
    (mn matches .adc | .and | .asl | .bit | .cmp | .cpx | .cpy | .dec | .eor | .inc | .lda | .ldx
      | .ldy | .lsr | .ora | .rol | .ror | .sbc | .sta | .stx | .sty)
  | .zeroPageX =>
    (mn matches .adc | .and | .asl | .cmp | .dec | .eor | .inc | .lda | .ldy | .lsr | .ora | .rol
      | .ror | .sbc | .sta | .sty)
  | .zeroPageY => (mn matches .ldx | .stx)
  | .absolute =>
    (mn matches .adc | .and | .asl | .bit | .cmp | .cpx | .cpy | .dec | .eor | .inc | .jmp | .jsr
      | .lda | .ldx | .ldy | .lsr | .ora | .rol | .ror | .sbc | .sta | .stx | .sty)
  | .absoluteX =>
    (mn matches .adc | .and | .asl | .cmp | .dec | .eor | .inc | .lda | .ldy | .lsr | .ora | .rol
      | .ror | .sbc | .sta)
  | .absoluteY => (mn matches .adc | .and | .cmp | .eor | .lda | .ldx | .ora | .sbc | .sta)
  | .indirect => (mn matches .jmp)
  | .indirectX | .indirectY => (mn matches .adc | .and | .cmp | .eor | .lda | .ora | .sbc | .sta)
  | .relative => (mn matches .bcc | .bcs | .beq | .bmi | .bne | .bpl | .bvc | .bvs)
  | .accumulator => (mn matches .asl | .lsr | .rol | .ror)
  | .implied =>
    (mn matches .brk | .clc | .cld | .cli | .clv | .dex | .dey | .inx | .iny | .nop | .pha | .php
      | .pla | .plp | .rti | .rts | .sec | .sed | .sei | .tax | .tay | .tsx | .txa | .txs | .tya)
  | .unknown _ => false

theorem encode?_of_known :
    ∀ mode ∈ Mode.known, ∀ mn ∈ Mnemonic.known, takes mn mode = true →
      (encode? mn mode).isSome = true := by
  decide +kernel

/-- What an instruction takes has an encoding. -/
theorem encode?_isSome {mn : Mnemonic} {mode : Mode} (h : takes mn mode = true) :
    (encode? mn mode).isSome = true := by
  have hmode : mode ∈ Mode.known := by
    cases mode <;> first | decide | cases h
  have hmn : mn ∈ Mnemonic.known := by
    cases mn with
    | unknown code => cases mode <;> cases h
    | _ => decide
  exact encode?_of_known mode hmode mn hmn h

end Breadbin.Opcode
