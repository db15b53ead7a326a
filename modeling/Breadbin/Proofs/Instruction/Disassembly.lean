import Breadbin.Instruction.Disassembly
import Breadbin.Proofs.Instruction.Encoding
import Breadbin.Proofs.Text.Quoted
import Mathlib.Data.List.Basic

/-!
# Disassembly loses nothing

The lines of a disassembly cover the code: each is a complete instruction of the table or a row of
bytes, and it stands at the address where the bytes of the lines before it end.  An instruction is
printed as its mnemonic, the marks of its mode and digits; no two rows of the table share a mnemonic
and marks, and the digits tell the operand, so where no address has a name the text of a line and
its address tell its bytes.
-/

namespace Breadbin.DisassemblyLine

variable {symbols : SymbolTable} {dataStart address : UInt16} {l : DisassemblyLine} {op : Opcode}
  {operand : Bytes}

/-! ## What a line can be -/

/-- A complete instruction of the table, as it is printed. -/
def IsInstruction (symbols : SymbolTable) (l : DisassemblyLine) : Prop :=
  ∃ op ∈ Opcode.table, ∃ operand : Bytes, operand.length = op.mode.operandSize ∧
    l.bytes = op.code :: operand ∧ l.text = instructionText symbols op l.address operand

/-- A row of one to eight bytes. -/
def IsData (l : DisassemblyLine) : Prop :=
  0 < l.bytes.length ∧ l.bytes.length ≤ 8 ∧ l = ofData l.address l.label l.bytes

/-- Code that begins with an instruction whose operand is all there. -/
def Complete (code : Bytes) : Prop :=
  ∃ op ∈ Opcode.table, ∃ rest, code = op.code :: rest ∧ op.mode.operandSize ≤ rest.length

/-- A line in front of the rest of the code.  Where data has started it is a row that only the end
of the code cuts short; before, it is an instruction, or one byte where no complete instruction
begins. -/
def IsLine (symbols : SymbolTable) (dataStart : UInt16) (l : DisassemblyLine)
    (rest : Bytes) : Prop :=
  l.label = (symbols l.address).getD "" ∧
    if dataStart ≠ 0 ∧ dataStart ≤ l.address then l.IsData ∧ (l.bytes.length = 8 ∨ rest = [])
    else l.IsInstruction symbols ∨ l.IsData ∧ l.bytes.length = 1 ∧ ¬Complete (l.bytes ++ rest)

/-- Lines for code at an address, one after the other. -/
inductive Lays (symbols : SymbolTable) (dataStart : UInt16) :
    UInt16 → Bytes → List DisassemblyLine → Prop where
  | nil (address : UInt16) : Lays symbols dataStart address [] []
  | cons {l : DisassemblyLine} {code : Bytes} {ls : List DisassemblyLine}
      (line : l.IsLine symbols dataStart code)
      (rest : Lays symbols dataStart (l.address + .ofNat l.bytes.length) code ls) :
      Lays symbols dataStart l.address (l.bytes ++ code) (l :: ls)

theorem IsLine.kind {rest : Bytes} (h : l.IsLine symbols dataStart rest) :
    l.IsInstruction symbols ∨ l.IsData := by
  obtain ⟨-, h⟩ := h
  split at h
  · exact .inr h.1
  · exact h.imp id And.left

theorem isData_ofData {label : String} {bytes : Bytes} (hpos : 0 < bytes.length)
    (hle : bytes.length ≤ 8) :
    (ofData address label bytes).IsData := ⟨hpos, hle, rfl⟩

/-- The table has the row that an opcode is decoded to. -/
theorem mem_table_of_decode? {b : UInt8} (h : Opcode.decode? b = some op) :
    op ∈ Opcode.table ∧ op.code = b := by
  rw [Opcode.decode?_eq_find?] at h
  have hcode := List.find?_some h
  exact ⟨List.mem_of_find?_eq_some h, UInt8.toNat_inj.1 (beq_iff_eq.1 hcode)⟩

/-- A complete instruction begins with a byte that is decoded, and has its operand. -/
theorem complete_cons_iff {b : UInt8} {rest : Bytes} :
    Complete (b :: rest) ↔ ∃ op, Opcode.decode? b = some op ∧
      op.mode.operandSize ≤ rest.length := by
  constructor
  · rintro ⟨op, hop, rest', hcode, hle⟩
    obtain ⟨rfl, rfl⟩ := List.cons.inj hcode
    exact ⟨op, Opcode.decode?_of_mem hop, hle⟩
  · rintro ⟨op, hop, hle⟩
    obtain ⟨hmem, rfl⟩ := mem_table_of_decode? hop
    exact ⟨op, hmem, rest, rfl, hle⟩

/-- The next line takes the byte it starts with and as many after it as it says. -/
theorem next_eq (symbols : SymbolTable) (dataStart address : UInt16) (b : UInt8) (rest : Bytes) :
    ∃ l n, next symbols dataStart address b rest = (l, n) ∧ l.address = address ∧ n ≤ rest.length ∧
      l.bytes = b :: rest.take n ∧ l.IsLine symbols dataStart (rest.drop n) := by
  unfold next
  by_cases hdata : dataStart ≠ 0 ∧ dataStart ≤ address
  · rw [if_pos hdata]
    have hlength : (rest.take 7).length = min 7 rest.length := List.length_take
    have hcount : (b :: rest.take 7).length = 1 + min 7 rest.length := by
      rw [List.length_cons]; omega
    refine ⟨_, _, rfl, rfl, by omega, by simp [ofData], rfl, (if_pos hdata).mpr ⟨?_, ?_⟩⟩
    · exact isData_ofData (Nat.succ_pos _) (by omega)
    · rw [List.drop_eq_nil_iff]
      show (b :: rest.take 7).length = 8 ∨ _
      omega
  · rw [if_neg hdata]
    -- without a complete instruction the byte stands alone
    have hsingle (hnone : ¬Complete (b :: rest)) :
        (ofData address ((symbols address).getD "") [b]).IsLine symbols dataStart rest :=
      ⟨rfl, (if_neg hdata).mpr (.inr ⟨isData_ofData Nat.one_pos (Nat.le_add_left 1 7), rfl, hnone⟩)⟩
    cases hop : Opcode.decode? b with
    | none =>
      refine ⟨_, 0, rfl, rfl, Nat.zero_le _, rfl, hsingle fun h => ?_⟩
      obtain ⟨op, hsome, -⟩ := complete_cons_iff.1 h
      rw [hop] at hsome
      cases hsome
    | some op =>
      have hlength : (rest.take op.mode.operandSize).length = min op.mode.operandSize rest.length :=
        List.length_take
      by_cases hcut : (rest.take op.mode.operandSize).length < op.mode.operandSize
      · simp only [if_pos hcut]
        refine ⟨_, 0, rfl, rfl, Nat.zero_le _, rfl, hsingle fun h => ?_⟩
        obtain ⟨op', hsome, hle⟩ := complete_cons_iff.1 h
        obtain rfl := Option.some.inj (hop.symm.trans hsome)
        omega
      · simp only [if_neg hcut]
        obtain ⟨hmem, rfl⟩ := mem_table_of_decode? hop
        exact ⟨_, _, rfl, rfl, by omega, rfl, rfl,
          (if_neg hdata).mpr (.inl ⟨op, hmem, _, by omega, rfl, rfl⟩)⟩

theorem readAll_append (symbols : SymbolTable) (dataStart address : UInt16) (code : Bytes)
    (reversed : List DisassemblyLine) :
    readAll symbols dataStart address code reversed =
      reversed.reverse ++ readAll symbols dataStart address code [] := by
  induction hn : code.length using Nat.strongRecOn generalizing address code reversed with
  | ind n ih =>
    cases code with
    | nil => simp [readAll]
    | cons b rest =>
      obtain ⟨l, m, hnext, -, hm, -⟩ := next_eq symbols dataStart address b rest
      have hlt : (rest.drop m).length < n := by
        rw [← hn, List.length_drop, List.length_cons]
        omega
      rw [readAll, readAll, hnext]
      simp only
      rw [ih _ hlt _ _ (l :: reversed) rfl, ih _ hlt _ _ [l] rfl]
      simp

/-- The lines of a disassembly are lines for the code. -/
theorem lays_disassemble (code : Bytes) (origin : UInt16) (symbols : SymbolTable)
    (dataStart : UInt16) :
    Lays symbols dataStart origin code (disassemble code origin symbols dataStart) := by
  unfold disassemble
  induction hn : code.length using Nat.strongRecOn generalizing origin code with
  | ind n ih =>
    cases code with
    | nil => simpa [readAll] using Lays.nil origin
    | cons b rest =>
      obtain ⟨l, m, hnext, rfl, hm, hbytes, hline⟩ := next_eq symbols dataStart origin b rest
      have hlt : (rest.drop m).length < n := by
        rw [← hn, List.length_drop, List.length_cons]
        omega
      have hcode : b :: rest = l.bytes ++ rest.drop m := by
        rw [hbytes, List.cons_append, List.take_append_drop]
      have haddress : l.address + .ofNat l.bytes.length = l.address + 1 + .ofNat m := by
        rw [hbytes, List.length_cons, List.length_take, Nat.min_eq_left hm,
          Nat.add_comm, UInt16.ofNat_add, ← UInt16.add_assoc]
        rfl
      rw [readAll, hnext]
      simp only
      rw [readAll_append, hcode]
      refine .cons hline ?_
      rw [haddress]
      exact ih _ hlt _ _ rfl

namespace Lays

variable {code : Bytes} {ls before after : List DisassemblyLine}

theorem bytes (h : Lays symbols dataStart address code ls) : ls.flatMap (·.bytes) = code := by
  induction h with
  | nil => rfl
  | cons _ _ ih => rw [List.flatMap_cons, ih]

/-- A line stands behind the bytes of the lines before it, and in front of those of the lines after
it. -/
theorem split (h : Lays symbols dataStart address code (before ++ l :: after)) :
    l.address = address + .ofNat (before.flatMap (·.bytes)).length ∧
      l.IsLine symbols dataStart (after.flatMap (·.bytes)) := by
  induction before generalizing address code with
  | nil =>
    cases h with
    | cons line rest =>
      rw [rest.bytes]
      exact ⟨by simp, line⟩
  | cons m before ih =>
    rw [List.cons_append] at h
    cases h with
    | cons line rest =>
      obtain ⟨haddress, hline⟩ := ih rest
      rw [haddress, List.flatMap_cons, List.length_append, UInt16.ofNat_add, UInt16.add_assoc]
      exact ⟨rfl, hline⟩

end Lays

end Breadbin.DisassemblyLine

/-! ## What the text of an instruction tells -/

namespace Breadbin

namespace Mode

/-- What stands between the mnemonic and the digits of an operand. -/
def before : Mode → List Char
  | implied | unknown _ => []
  | accumulator => [' ', 'A']
  | immediate => [' ', '#', '$']
  | indirect | indirectX | indirectY => [' ', '(', '$']
  | zeroPage | zeroPageX | zeroPageY | absolute | absoluteX | absoluteY | relative => [' ', '$']

/-- What stands behind the digits of an operand. -/
def behind : Mode → List Char
  | zeroPageX | absoluteX => [',', 'X']
  | zeroPageY | absoluteY => [',', 'Y']
  | indirect => [')']
  | indirectX => [',', 'X', ')']
  | indirectY => [')', ',', 'Y']
  | _ => []

/-- How many digits an operand has. -/
def digits : Mode → Nat
  | implied | accumulator | unknown _ => 0
  | immediate | zeroPage | zeroPageX | zeroPageY | indirectX | indirectY => 2
  | absolute | absoluteX | absoluteY | indirect | relative => 4

/-- The number that the digits of an operand spell: for a branch, where it leads. -/
def number (mode : Mode) (address : UInt16) (operand : Bytes) : Nat :=
  match mode with
  | relative => (Opcode.branchTarget address (operand.headD 0)).toNat
  | absolute | absoluteX | absoluteY | indirect =>
    ((operand.headD 0).toUInt16 + ((operand.drop 1).headD 0).toUInt16 * 256).toNat
  | _ => (operand.headD 0).toNat

/-- A character, with zero in place of every hexadecimal digit. -/
def masked (c : Char) : Char := if (Text.digitValue? c).isSome then '0' else c

/-- The text of an operand, whatever its digits are. -/
def shape (mode : Mode) : List Char :=
  mode.before.map masked ++ List.replicate mode.digits '0' ++ mode.behind.map masked

end Mode

namespace DisassemblyLine

open Text (hexFixed toList_hexNat byte_lt word_lt)

theorem toList_instructionText (op : Opcode) (address : UInt16) (operand : Bytes) :
    (instructionText (fun _ => none) op address operand).toList = op.mnemonic.text.toList ++
      (op.mode.before ++ hexFixed true op.mode.digits (op.mode.number address operand) ++
        op.mode.behind) := by
  have hshort (b : UInt8) : (byteText b).toList = hexFixed true 2 b.toNat :=
    toList_hexNat (byte_lt b) Nat.zero_lt_two
  have hlong (a : UInt16) : (addressText (fun _ => none) a).toList =
      '$' :: hexFixed true 4 a.toNat := by
    unfold addressText
    rw [Option.getD_none, String.toList_append, Text.hexUpper,
      toList_hexNat (word_lt a) (Nat.succ_pos 3)]
    rfl
  have hnone (n : Nat) : hexFixed true 0 n = [] := rfl
  unfold instructionText Mode.number
  dsimp only
  generalize operand.headD 0 = low
  generalize low.toUInt16 + ((operand.drop 1).headD 0).toUInt16 * 256 = word
  cases op.mode <;>
    simp [hshort, hlong, hnone, Mode.before, Mode.behind, Mode.digits]

theorem map_masked_operand (mode : Mode) (n : Nat) :
    (mode.before ++ hexFixed true mode.digits n ++ mode.behind).map Mode.masked = mode.shape := by
  have hdigits : (hexFixed true mode.digits n).map Mode.masked =
      List.replicate mode.digits '0' := by
    refine List.eq_replicate_iff.2 ⟨by simp, fun c hc => ?_⟩
    obtain ⟨d, hd, rfl⟩ := List.mem_map.1 hc
    exact if_pos (Text.isSome_digitValue?_of_mem hd)
  rw [List.map_append, List.map_append, hdigits, Mode.shape]

/-! ## The table is told from its text -/

/-- A mnemonic is read back from its spelling. -/
theorem parse?_text : ∀ mn ∈ Mnemonic.known, Mnemonic.parse? mn.text = some mn := by
  decide +kernel

/-- Mnemonics have three letters, none of them a point. -/
theorem text_mnemonic :
    ∀ mn ∈ Mnemonic.known, mn.text.toList.length = 3 ∧ mn.text.toList.head? ≠ some '.' := by
  decide +kernel

/-- Only a branch is printed like a jump. -/
theorem eq_of_shape : ∀ mode ∈ Mode.known, ∀ mode' ∈ Mode.known, mode.shape = mode'.shape →
    mode = mode' ∨ mode = .relative ∧ mode' = .absolute ∨ mode = .absolute ∧ mode' = .relative := by
  decide +kernel

theorem table_known : ∀ op ∈ Opcode.table, op.mnemonic ∈ Mnemonic.known ∧ op.mode ∈ Mode.known ∧
    (op.mode = .relative ↔ op.mnemonic.isBranch = true) := by
  decide +kernel

/-- No two rows of the table share a mnemonic and a mode. -/
theorem find?_form_of_mem : ∀ op ∈ Opcode.table,
    (Opcode.table.find? fun o => o.mnemonic == op.mnemonic && o.mode == op.mode) = some op := by
  decide +kernel

theorem text_inj {mn mn' : Mnemonic} (hmn : mn ∈ Mnemonic.known) (hmn' : mn' ∈ Mnemonic.known)
    (h : mn.text = mn'.text) : mn = mn' := by
  have hread := parse?_text mn hmn
  rw [h, parse?_text mn' hmn'] at hread
  exact (Option.some.inj hread).symm

/-- A row of the table is told from the mnemonic and the marks that it is printed with. -/
theorem eq_of_text {op op' : Opcode} (hop : op ∈ Opcode.table) (hop' : op' ∈ Opcode.table)
    (htext : op.mnemonic.text = op'.mnemonic.text) (hshape : op.mode.shape = op'.mode.shape) :
    op = op' := by
  obtain ⟨hmn, hmode, hbranch⟩ := table_known op hop
  obtain ⟨hmn', hmode', hbranch'⟩ := table_known op' hop'
  have hsame := text_inj hmn hmn' htext
  have hmodes : op.mode = op'.mode := by
    rcases eq_of_shape _ hmode _ hmode' hshape with h | ⟨h, h'⟩ | ⟨h, h'⟩
    · exact h
    · -- one of them is a branch and the other is not, with one mnemonic
      have hrelative := hbranch'.2 (hsame ▸ hbranch.1 h)
      exact absurd (hrelative.symm.trans h') (by decide)
    · have hrelative := hbranch.2 (hsame ▸ hbranch'.1 h')
      exact absurd (hrelative.symm.trans h) (by decide)
  have hfind := find?_form_of_mem op hop
  rw [hsame, hmodes, find?_form_of_mem op' hop'] at hfind
  exact (Option.some.inj hfind).symm

/-! ## Operands are told from their digits -/

theorem branchTarget_inj {address : UInt16} {b b' : UInt8}
    (h : Opcode.branchTarget address b = Opcode.branchTarget address b') : b = b' := by
  have hlow (b : UInt8) : (Opcode.branchTarget address b).toUInt8 = address.toUInt8 + 2 + b := by
    unfold Opcode.branchTarget
    apply UInt8.toNat_inj.1
    split <;> simp
  have hsum := congrArg UInt16.toUInt8 h
  rw [hlow, hlow] at hsum
  exact (UInt8.add_right_inj _).1 hsum

theorem word_inj {lo hi lo' hi' : UInt8}
    (h : lo.toUInt16 + hi.toUInt16 * 256 = lo'.toUInt16 + hi'.toUInt16 * 256) :
    lo = lo' ∧ hi = hi' := by
  have hnat := congrArg UInt16.toNat h
  have := lo.toNat_lt
  have := lo'.toNat_lt
  have := hi.toNat_lt
  have := hi'.toNat_lt
  simp only [UInt16.toNat_add, UInt16.toNat_mul, UInt8.toNat_toUInt16, UInt16.reduceToNat] at hnat
  constructor <;> apply UInt8.toNat_inj.1 <;> omega

theorem number_lt (mode : Mode) (address : UInt16) (operand : Bytes) (hmode : mode.digits ≠ 0) :
    mode.number address operand < 16 ^ mode.digits := by
  cases mode with
  | implied | accumulator | unknown => exact absurd rfl hmode
  | absolute | absoluteX | absoluteY | indirect | relative => exact word_lt _
  | _ => exact byte_lt _

/-- The operand of an instruction at an address is told from its number. -/
theorem operand_inj {mode : Mode} {address : UInt16} {operand operand' : Bytes}
    (hmode : mode ∈ Mode.known)
    (hlength : operand.length = mode.operandSize) (hlength' : operand'.length = mode.operandSize)
    (h : hexFixed true mode.digits (mode.number address operand) =
      hexFixed true mode.digits (mode.number address operand')) : operand = operand' := by
  have hnumber (hdigits : mode.digits ≠ 0) : mode.number address operand =
      mode.number address operand' :=
    Text.hexFixed_inj (number_lt _ _ _ hdigits) (number_lt _ _ _ hdigits) h
  cases mode with
  | unknown => simp [Mode.known] at hmode
  | implied | accumulator =>
    rw [List.length_eq_zero_iff.1 hlength, List.length_eq_zero_iff.1 hlength']
  | absolute | absoluteX | absoluteY | indirect =>
    obtain ⟨lo, hi, rfl⟩ := List.length_eq_two.1 hlength
    obtain ⟨lo', hi', rfl⟩ := List.length_eq_two.1 hlength'
    obtain ⟨rfl, rfl⟩ := word_inj (UInt16.toNat_inj.1 (hnumber (by decide)))
    rfl
  | relative =>
    obtain ⟨b, rfl⟩ := List.length_eq_one_iff.1 hlength
    obtain ⟨b', rfl⟩ := List.length_eq_one_iff.1 hlength'
    have hbyte : b = b' := branchTarget_inj (UInt16.toNat_inj.1 (hnumber (by decide)))
    rw [hbyte]
  | _ =>
    obtain ⟨b, rfl⟩ := List.length_eq_one_iff.1 hlength
    obtain ⟨b', rfl⟩ := List.length_eq_one_iff.1 hlength'
    have hbyte : b.toNat = b'.toNat := hnumber (by decide)
    rw [UInt8.toNat_inj.1 hbyte]

theorem instruction_inj {op op' : Opcode} {address : UInt16} {operand operand' : Bytes}
    (hop : op ∈ Opcode.table) (hop' : op' ∈ Opcode.table)
    (hlength : operand.length = op.mode.operandSize)
    (hlength' : operand'.length = op'.mode.operandSize)
    (h : instructionText (fun _ => none) op address operand =
      instructionText (fun _ => none) op' address operand') : op = op' ∧ operand = operand' := by
  have htext := congrArg String.toList h
  rw [toList_instructionText, toList_instructionText] at htext
  obtain ⟨hletters, -⟩ := text_mnemonic _ (table_known op hop).1
  obtain ⟨hletters', -⟩ := text_mnemonic _ (table_known op' hop').1
  obtain ⟨hmn, hoperand⟩ := List.append_inj htext (hletters.trans hletters'.symm)
  have hshape := congrArg (List.map Mode.masked) hoperand
  rw [map_masked_operand, map_masked_operand] at hshape
  obtain rfl := eq_of_text hop hop' (String.toList_inj.1 hmn) hshape
  obtain ⟨hfront, -⟩ := List.append_inj hoperand (by simp)
  exact ⟨rfl, operand_inj (table_known op hop).2.1 hlength hlength'
    (List.append_cancel_left hfront)⟩

/-! ## Rows of data are told from their text -/

/-- The text of a row of data. -/
theorem toList_text_ofData (address : UInt16) (label : String) (bytes : Bytes) :
    (ofData address label bytes).text.toList = ".byte ".toList ++
      List.intercalate [','] (bytes.map fun b => '$' :: hexFixed true 2 b.toNat) := by
  have hbyte (b : UInt8) : ("$" ++ byteText b).toList = '$' :: hexFixed true 2 b.toNat := by
    rw [String.toList_append, byteText, Text.hexUpper, toList_hexNat (byte_lt b) Nat.zero_lt_two]
    rfl
  unfold ofData
  rw [String.toList_append, String.toList_intercalate, List.map_map]
  congr 2
  exact List.map_congr_left fun b _ => hbyte b

/-- With one more comma in front, every part of a row begins with one. -/
theorem comma_intercalate {f : UInt8 → List Char} {bytes : Bytes} (h : bytes ≠ []) :
    ',' :: List.intercalate [','] (bytes.map f) = bytes.flatMap fun b => ',' :: f b := by
  induction bytes with
  | nil => exact absurd rfl h
  | cons b bs ih =>
    cases bs with
    | nil => simp
    | cons c cs =>
      rw [List.flatMap_cons, ← ih (List.cons_ne_nil _ _), List.map_cons, List.map_cons,
        List.intercalate_cons_cons, List.append_assoc]
      rfl

theorem flatMap_digits_inj {bs cs : Bytes}
    (h : bs.flatMap (fun b => ',' :: '$' :: hexFixed true 2 b.toNat) =
      cs.flatMap fun b => ',' :: '$' :: hexFixed true 2 b.toNat) : bs = cs := by
  induction bs generalizing cs with
  | nil =>
    cases cs with
    | nil => rfl
    | cons => cases h
  | cons b bs ih =>
    cases cs with
    | nil => cases h
    | cons c cs =>
      rw [List.flatMap_cons, List.flatMap_cons] at h
      obtain ⟨hdigits, hrest⟩ := List.append_inj h (by simp)
      have hbyte : b.toNat = c.toNat :=
        Text.hexFixed_inj (byte_lt b) (byte_lt c) (List.cons.inj (List.cons.inj hdigits).2).2
      rw [UInt8.toNat_inj.1 hbyte, ih hrest]

theorem data_inj {address address' : UInt16} {label label' : String} {bytes bytes' : Bytes}
    (hpos : 0 < bytes.length) (hpos' : 0 < bytes'.length)
    (h : (ofData address label bytes).text = (ofData address' label' bytes').text) :
    bytes = bytes' := by
  have htext := congrArg String.toList h
  rw [toList_text_ofData, toList_text_ofData] at htext
  have hrow := congrArg (',' :: ·) (List.append_cancel_left htext)
  rw [comma_intercalate (List.ne_nil_of_length_pos hpos),
    comma_intercalate (List.ne_nil_of_length_pos hpos')] at hrow
  exact flatMap_digits_inj hrow

/-! ## Code is told from its disassembly -/

/-- An instruction is not printed like a row of data. -/
theorem instructionText_ne_data {op : Opcode} (hop : op ∈ Opcode.table)
    {address address' : UInt16} {operand : Bytes} {label : String} {bytes : Bytes} :
    instructionText (fun _ => none) op address operand ≠ (ofData address' label bytes).text := by
  intro h
  have hhead := congrArg (fun s : String => s.toList.head?) h
  obtain ⟨hletters, hpoint⟩ := text_mnemonic _ (table_known op hop).1
  simp only [toList_instructionText, toList_text_ofData] at hhead
  rw [List.head?_append_of_ne_nil _ (List.ne_nil_of_length_eq_add_one hletters)] at hhead
  exact hpoint hhead

/-- Where no address has a name, the bytes of a line are told from its address and its text. -/
theorem bytes_inj {l l' : DisassemblyLine} (h : l.IsInstruction (fun _ => none) ∨ l.IsData)
    (h' : l'.IsInstruction (fun _ => none) ∨ l'.IsData) (haddress : l.address = l'.address)
    (htext : l.text = l'.text) : l.bytes = l'.bytes := by
  rcases h with ⟨op, hop, operand, hlength, hbytes, hprint⟩ | ⟨hpos, -, hprint⟩ <;>
    rcases h' with ⟨op', hop', operand', hlength', hbytes', hprint'⟩ | ⟨hpos', -, hprint'⟩
  · rw [hprint, hprint', ← haddress] at htext
    obtain ⟨rfl, rfl⟩ := instruction_inj hop hop' hlength hlength' htext
    rw [hbytes, hbytes']
  · rw [hprint, hprint'] at htext
    exact absurd htext (instructionText_ne_data hop)
  · rw [hprint, hprint'] at htext
    exact absurd htext.symm (instructionText_ne_data hop')
  · rw [hprint, hprint'] at htext
    exact data_inj hpos hpos' htext

/-- What a line says where no address has a name. -/
def told (l : DisassemblyLine) : UInt16 × String := (l.address, l.text)

theorem Lays.code_inj {address dataStart : UInt16} {code code' : Bytes}
    {ls ls' : List DisassemblyLine}
    (h : Lays (fun _ => none) dataStart address code ls)
    (h' : Lays (fun _ => none) dataStart address code' ls')
    (htold : ls.map told = ls'.map told) : code = code' := by
  induction h generalizing code' ls' with
  | nil =>
    obtain rfl : ls' = [] := by simpa using htold.symm
    cases h'
    rfl
  | @cons l code ls line _ ih =>
    generalize ha : l.address = a at h'
    cases h' with
    | nil => cases htold
    | @cons l' code' ls' line' rest' =>
      obtain ⟨hline, hlines⟩ := List.cons.inj htold
      obtain ⟨haddress, htext⟩ := Prod.mk.inj hline
      have hbytes := bytes_inj line.kind line'.kind haddress htext
      rw [← haddress, ← hbytes] at rest'
      rw [hbytes, ih rest' hlines]

end DisassemblyLine

open DisassemblyLine in
/-- **Disassembly loses nothing.**  The bytes of the lines make up the code; each line stands at the
address where the bytes before it end, and it is a complete instruction of the table, or a row of
data where there is none; where no address has a name, code is told from the addresses and texts of
its lines. -/
theorem disassemble_faithful (code : Bytes) (origin : UInt16) (symbols : SymbolTable)
    (dataStart : UInt16) :
    (disassemble code origin symbols dataStart).flatMap (·.bytes) = code ∧
      (∀ before l after, disassemble code origin symbols dataStart = before ++ l :: after →
        l.address = origin + .ofNat (before.flatMap (·.bytes)).length ∧
          l.IsLine symbols dataStart (after.flatMap (·.bytes))) ∧
      ∀ code' : Bytes, (disassemble code' origin (fun _ => none) dataStart).map told =
        (disassemble code origin (fun _ => none) dataStart).map told → code' = code := by
  have hlays := lays_disassemble code origin symbols dataStart
  refine ⟨hlays.bytes, fun before l after hsplit => ?_, fun code' htold => ?_⟩
  · rw [hsplit] at hlays
    exact hlays.split
  · exact (lays_disassemble code' origin _ dataStart).code_inj
      (lays_disassemble code origin _ dataStart) htold

end Breadbin
