import Breadbin.Assembly.Link

/-!
# Listings

A listing is what an assembler reads: instructions with written operands, bytes, words, labels and
alignments, in order.  `Listing.ofActions` is the listing of a sequence of stream operations and
`Line.Encodes` says which bytes may stand for a line at an address.  Neither looks at fixups,
offsets or placeholders: they are what the linked image is compared with.
-/

namespace Breadbin.Assembly

/-- A written operand.  There is one form for each way to make an operand. -/
inductive Arg where
  | implied
  | accumulator
  | immediate (v : UInt8)
  | zeroPage (address : UInt8)
  | zeroPageX (address : UInt8)
  | indirectY (address : UInt8)
  | absolute (r : AddressRef)
  | absoluteX (r : AddressRef)
  | absoluteY (r : AddressRef)
  | indirect (r : AddressRef)
  | lowByte (r : AddressRef)
  | highByte (r : AddressRef)
  | relative (l : LabelId)
  deriving DecidableEq, Repr

namespace Arg

/-- The operand that a written operand makes. -/
def operand : Arg → Operand
  | implied => .implied
  | accumulator => .accumulator
  | immediate v => .immediate v
  | zeroPage a => .zeroPage a
  | zeroPageX a => .zeroPageX a
  | indirectY a => .indirectY a
  | absolute r => .absolute r
  | absoluteX r => .absoluteX r
  | absoluteY r => .absoluteY r
  | indirect r => .indirect r
  | lowByte r => .lowByte r
  | highByte r => .highByte r
  | relative l => .relative l

/-- The mode of a written operand. -/
def mode : Arg → Mode
  | implied => .implied
  | accumulator => .accumulator
  | immediate _ | lowByte _ | highByte _ => .immediate
  | zeroPage _ => .zeroPage
  | zeroPageX _ => .zeroPageX
  | indirectY _ => .indirectY
  | absolute _ => .absolute
  | absoluteX _ => .absoluteX
  | absoluteY _ => .absoluteY
  | indirect _ => .indirect
  | relative _ => .relative

/-- The label a branch goes to. -/
def branch? : Arg → Option LabelId
  | relative l => if l.isSome then some l else none
  | _ => none

/-- The reference whose address an operand takes, in whole or in part. -/
def ref? : Arg → Option AddressRef
  | absolute r | absoluteX r | absoluteY r | indirect r | lowByte r | highByte r => some r
  | _ => none

end Arg

/-- The bytes of an address, low byte first. -/
def wordBytes (n : Nat) : List UInt8 := [UInt8.ofNat (n % 256), UInt8.ofNat (n / 256)]

/-- What addresses the labels have. -/
abbrev Addresses := LabelId → Nat

/-- The address a reference stands for. -/
def Addresses.of (env : Addresses) (r : AddressRef) : Nat :=
  if r.isLabel then env r.label + r.address.toNat else r.address.toNat

/-- The operand bytes, given the addresses of the labels. -/
def Arg.bytes (env : Addresses) : Arg → List UInt8
  | implied | accumulator => []
  | immediate v | zeroPage v | zeroPageX v | indirectY v => [v]
  | absolute r | absoluteX r | absoluteY r | indirect r => wordBytes (env.of r)
  | lowByte r => [UInt8.ofNat (env.of r % 256)]
  | highByte r => [UInt8.ofNat (env.of r / 256)]
  | relative _ => [0]

/-- The operand bytes before anything is linked: zeros where a label decides. -/
def Arg.raw : Arg → List UInt8
  | implied | accumulator => []
  | immediate v | zeroPage v | zeroPageX v | indirectY v => [v]
  | absolute r | absoluteX r | absoluteY r | indirect r =>
    if r.isLabel then [0, 0] else wordBytes r.address.toNat
  | lowByte r => if r.isLabel then [0] else [UInt8.ofNat (r.address.toNat % 256)]
  | highByte r => if r.isLabel then [0] else [UInt8.ofNat (r.address.toNat / 256)]
  | relative _ => [0]

/-- A line of a listing. -/
inductive Line where
  | instr (mn : Mnemonic) (arg : Arg)
  | data (bytes : List UInt8)
  | word (r : AddressRef)
  /-- a label that stands for the address of what follows -/
  | bound (l : LabelId)
  /-- what follows is placed on a multiple of `n` -/
  | align (n : Nat)
  deriving DecidableEq, Repr

namespace Line

/-- The bytes of a line before anything is linked. -/
def raw : Line → List UInt8
  | instr mn arg =>
    match Opcode.encode? mn arg.mode with
    | some code => code :: arg.raw
    | none => []
  | data bs => bs
  | word r => if r.isLabel then [0, 0] else wordBytes r.address.toNat
  | bound _ | align _ => []

/-- Whether a line has bytes of its own, which are no padding. -/
def isSolid (line : Line) : Bool := !line.raw.isEmpty

/-- The label that a line binds. -/
def label? : Line → Option LabelId
  | bound l => some l
  | _ => none

/-- The label whose address a line needs. -/
def needs? : Line → Option LabelId
  | instr _ (.relative l) => if l.isSome then some l else none
  | instr _ arg => arg.ref?.bind fun r => if r.isLabel then some r.label else none
  | word r => if r.isLabel then some r.label else none
  | _ => none

/-- Whether a line asks for alignment. -/
def isAlign : Line → Bool
  | align _ => true
  | _ => false

/-- The bytes that may stand for a line at an address.  A branch is short, or it is the inverse
branch around a jump; padding brings the next address to a multiple. -/
inductive Encodes (env : Addresses) (a : Nat) : Line → List UInt8 → Prop where
  | instr {mn : Mnemonic} {arg : Arg} {code : UInt8}
      (known : Opcode.encode? mn arg.mode = some code)
      (fixed : arg.branch? = none) (fits : ∀ r, arg.ref? = some r → env.of r < 0x10000) :
      Encodes env a (.instr mn arg) (code :: arg.bytes env)
  | short {mn : Mnemonic} {l : LabelId} {code d : UInt8}
      (known : Opcode.encode? mn .relative = some code) (isSome : l.isSome = true)
      (lands : (Opcode.branchTarget (UInt16.ofNat a) d).toNat = env l) :
      Encodes env a (.instr mn (.relative l)) [code, d]
  | long {mn inverse : Mnemonic} {l : LabelId} {code : UInt8} (inverts : mn.inverse? = some inverse)
      (known : Opcode.encode? inverse .relative = some code) (isSome : l.isSome = true)
      (fits : env l < 0x10000) :
      Encodes env a (.instr mn (.relative l)) ([code, 3, 0x4C] ++ wordBytes (env l))
  | data (bs : List UInt8) : Encodes env a (.data bs) bs
  | word {r : AddressRef} (fits : env.of r < 0x10000) :
      Encodes env a (.word r) (wordBytes (env.of r))
  | bound (l : LabelId) : Encodes env a (.bound l) []
  | align {n zeros : Nat} (multiple : (a + zeros) % n = 0) (least : zeros < n) :
      Encodes env a (.align n) (List.replicate zeros 0)

end Line

/-- The lines of a stream and the names of the labels it has made, label `n` at position `n - 1`. -/
structure Listing where
  names : List Bytes := []
  lines : List Line := []
  deriving Repr

/-- An operation on a stream. -/
inductive Action where
  | addLabel (name : Bytes)
  | placeLabel (name : Bytes)
  | bind (l : LabelId)
  | emit (mn : Mnemonic) (arg : Arg)
  | op (mn : Mnemonic)
  | branch (mn : Mnemonic) (l : LabelId)
  | jump (l : LabelId)
  | call (l : LabelId)
  | data (bytes : List UInt8)
  | word (r : AddressRef)
  | align (n : UInt16)
  deriving DecidableEq, Repr

namespace Action

/-- Performs an operation. -/
def perform (s : Stream) : Action → Stream
  | addLabel name => (s.addLabel name).1
  | placeLabel name => (s.placeLabel name).1
  | bind l => s.bind l
  | emit mn arg => s.emit mn arg.operand
  | op mn => s.op mn
  | branch mn l => s.branch mn l
  | jump l => s.jump l
  | call l => s.call l
  | data bytes => s.data bytes
  | word r => s.word r
  | align n => s.align n

/-- The operand of an instruction that is written without one. -/
def ownArg : Mnemonic → Arg
  | .asl | .lsr | .rol | .ror => .accumulator
  | _ => .implied

/-- The names of the labels an operation makes. -/
def names : Action → List Bytes
  | addLabel name | placeLabel name => [name]
  | _ => []

/-- The lines an operation writes behind `made` labels. -/
def lines (made : Nat) : Action → List Line
  | addLabel _ => []
  | placeLabel _ => [.bound ⟨UInt32.ofNat (made + 1)⟩]
  | bind l => [.bound l]
  | emit mn arg => [.instr mn arg]
  | op mn => [.instr mn (ownArg mn)]
  | branch mn l => [.instr mn (.relative l)]
  | jump l => [.instr .jmp (.absolute (.ofLabel l))]
  | call l => [.instr .jsr (.absolute (.ofLabel l))]
  | data bytes => [.data bytes]
  | word r => [.word r]
  | align n => if n ≤ 1 then [] else [.align n.toNat]

end Action

/-- The stream that a sequence of operations builds. -/
def Stream.ofActions (actions : List Action) : Stream := actions.foldl Action.perform {}

namespace Listing

/-- The listing after one more operation. -/
def add (L : Listing) (a : Action) : Listing :=
  ⟨L.names ++ a.names, L.lines ++ a.lines L.names.length⟩

/-- The listing of a sequence of operations. -/
def ofActions (actions : List Action) : Listing := actions.foldl add {}

/-- The labels that are bound, in order. -/
def labels (L : Listing) : List LabelId := L.lines.filterMap Line.label?

/-- The named bound labels with their addresses, in the order in which the labels were made. -/
def named (L : Listing) (env : Addresses) : List (Bytes × Nat) :=
  L.names.zipIdx.filterMap fun (name, i) =>
    if name.isEmpty then none
    else (L.labels.find? fun l => l.number.toNat = i + 1).map fun l => (name, env l)

end Listing

end Breadbin.Assembly
