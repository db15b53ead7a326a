import Breadbin.Assembly.Stream
import Breadbin.Instruction.Disassembly

/-!
# Linking

Linking lays a stream out at an origin.  A branch whose target is out of reach becomes the inverse
branch around a jump (a trampoline), and alignment marks are padded with zeros; both repeat until
nothing moves.  Then every fixup is filled in.
-/

/-!
## Images

An image is a program at a fixed place in memory, with the addresses of its named labels.
-/

namespace Breadbin

/-- A named address. -/
structure NamedAddress where
  /-- the name, in bytes -/
  label : Bytes
  address : UInt16
  deriving DecidableEq, Repr, Inhabited

/-- The name as it is shown. -/
def NamedAddress.name (s : NamedAddress) : String := Text.shown s.label

/-- Bytes from `origin` on; execution starts at `entry`.  The symbols are in the order of their
addresses. -/
structure Image where
  origin : UInt16
  entry : UInt16
  bytes : Array UInt8
  symbols : List NamedAddress := []
  /-- how many branches were replaced by a branch around a jump -/
  trampolines : Nat := 0
  deriving Repr, Inhabited

namespace Image

/-- The first address past the image. -/
def stop (i : Image) : Nat := i.origin.toNat + i.bytes.size

/-- The address of the first symbol with a name. -/
def addressOf? (i : Image) (label : Bytes) : Option UInt16 :=
  (i.symbols.find? fun s => s.label == label).map (·.address)

/-- The address of the first symbol with a text for its name. -/
def lookup? (i : Image) (name : String) : Option UInt16 := i.addressOf? (Text.bytesOf name)

/-- The first symbol of an address. -/
def symbolAt? (i : Image) (a : UInt16) : Option NamedAddress :=
  i.symbols.find? fun s => s.address == a

/-- The first name of each address. -/
def symbolTable (i : Image) : SymbolTable := fun a => (i.symbolAt? a).map (·.name)

/-- The symbols that are the first of their address. -/
def namedAddresses (i : Image) : List NamedAddress :=
  (i.symbols.filter fun s => (i.symbolAt? s.address).map (·.label) == some s.label).eraseDups

/-- The image as assembly text; from `dataStart` on, unless that is zero, as rows of bytes. -/
def lines (i : Image) (dataStart : UInt16) : List DisassemblyLine :=
  disassemble i.bytes.toList i.origin i.symbolTable dataStart

end Image

end Breadbin

/-! ## Layouts -/

namespace Breadbin.Assembly

/-- A stream while it is laid out.  The offset of label `n` stands at index `n - 1`. -/
structure Layout where
  origin : Nat
  code : Array UInt8
  offsets : Array Nat
  fixups : Array Fixup
  marks : Array AlignMark
  trampolines : Nat := 0
  deriving Repr, Inhabited

namespace Layout

/-- The bytes a trampoline adds. -/
def trampolineSize : Nat := 3

/-- How often trampolines and padding may alternate. -/
def maxPasses : Nat := 32

/-- The layout a stream starts with. -/
def ofStream (s : Stream) (origin : UInt16) : Layout :=
  { origin := origin.toNat, code := s.code, offsets := s.labels.map fun l => l.offset.getD 0
    fixups := s.fixups, marks := s.marks }

/-- The current offset of a label. -/
def offset (l : Layout) (label : LabelId) : Nat :=
  l.offsets.getD (label.number.toNat - 1) 0

/-- How far a branch has to reach, counted from its end. -/
def displacement (l : Layout) (f : Fixup) : Int :=
  (l.offset f.label : Int) + f.addend.toNat - (f.site + 1)

/-- An offset after everything from `start` on has moved. -/
def moved (start : Nat) (delta : Int) (offset : Nat) : Nat :=
  if start ≤ offset then ((offset : Int) + delta).toNat else offset

/-- Moves every label, fixup and mark from `start` on. -/
def shift (l : Layout) (start : Nat) (delta : Int) : Layout :=
  { l with
    offsets := l.offsets.map (moved start delta)
    fixups := l.fixups.map fun f => { f with site := moved start delta f.site }
    marks := l.marks.map fun m => { m with offset := moved start delta m.offset } }

/-- Replaces the branch of a fixup by the inverse branch around a jump. -/
def expand (l : Layout) (i : Nat) (f : Fixup) : Except Error Layout :=
  let code := l.code.getD (f.site - 1) 0
  match Opcode.inverse? code with
  | none => .error (.notABranch f.site code)
  | some inverse =>
    let grown := l.code.extract 0 (f.site - 1) ++ #[inverse, UInt8.ofNat trampolineSize, 0x4C, 0, 0]
      ++ l.code.extract (f.site + 1) l.code.size
    let l := { l with code := grown }.shift (f.site + 1) trampolineSize
    .ok { l with
      fixups := l.fixups.set! i { f with site := f.site + 2, kind := .absolute }
      trampolines := l.trampolines + 1 }

/-- One walk over the open branches: the layout, the branches that still fit, in reverse, and
whether a trampoline was put in. -/
structure Walk where
  layout : Layout
  fitting : List Nat := []
  inserted : Bool := false

/-- Looks at one open branch. -/
def Walk.step (w : Walk) (i : Nat) : Except Error Walk := do
  let f := w.layout.fixups.getD i default
  if Opcode.branchFits (w.layout.displacement f) then
    return { w with fitting := i :: w.fitting }
  else
    let layout ← w.layout.expand i f
    return { w with layout, inserted := true }

/-- Fails when the code leaves the address space. -/
def checkSize (l : Layout) : Except Error Unit :=
  if 0x10000 < l.origin + l.code.size then
    .error (.imageTooLarge l.code.size (UInt16.ofNat l.origin))
  else .ok ()

/-- Walks over the open branches until a walk puts in no trampoline.  Every walk but the last closes
a branch, so there are at most as many walks as branches, and one more. -/
def settleBranches : (walks : Nat) → Layout → List Nat → Except Error Layout
  | 0, l, _ => .ok l
  | _ + 1, l, [] => .ok l
  | n + 1, l, queue => do
    let w ← queue.foldlM Walk.step { layout := l }
    if w.inserted then
      w.layout.checkSize
      settleBranches n w.layout w.fitting.reverse
    else return w.layout

/-- The fixups that are branches. -/
def openBranches (l : Layout) : List Nat :=
  (List.range l.fixups.size).filter fun i => (l.fixups.getD i default).kind == .relative

/-- Puts in the trampolines that are needed. -/
def trampoline (l : Layout) : Except Error Layout :=
  let queue := l.openBranches
  settleBranches (queue.length + 1) l queue

/-- The zeros that bring an address to a multiple. -/
def padding (alignment address : Nat) : Nat :=
  (alignment - address % alignment) % alignment

/-- Pads one mark anew; says whether something moved. -/
def alignMark (state : Layout × Bool) (i : Nat) : Layout × Bool :=
  let (l, changed) := state
  let m := l.marks.getD i default
  let want := padding m.alignment (l.origin + m.offset)
  if want = m.pad then (l, changed)
  else
    let start := l.code.extract 0 m.offset
    let code :=
      if m.pad < want then
        start ++ Array.replicate (want - m.pad) 0 ++ l.code.extract m.offset l.code.size
      else start ++ l.code.extract (m.offset + (m.pad - want)) l.code.size
    let l := { l with code }.shift m.offset ((want : Int) - m.pad)
    ({ l with marks := l.marks.set! i { m with pad := want } }, true)

/-- Pads every mark anew; says whether something moved. -/
def alignAll (l : Layout) : Layout × Bool :=
  (List.range l.marks.size).foldl alignMark (l, false)

/-- Alternates trampolines and padding until neither changes the code. -/
def settle : (passes : Nat) → Layout → Except Error Layout
  | 0, _ => .error (.unsettled maxPasses)
  | n + 1, l => do
    let l ← l.trampoline
    let (l, changed) := l.alignAll
    if changed then settle n l else return l

/-- Fills in the bytes of one fixup. -/
def patch (l : Layout) (f : Fixup) : Except Error Layout :=
  let target := l.origin + l.offset f.label + f.addend.toNat
  if 0x10000 ≤ target then .error (.targetTooLarge f.site)
  else
    let low := UInt8.ofNat (target % 256)
    let high := UInt8.ofNat (target / 256)
    match f.kind with
    | .relative =>
      let d := l.displacement f
      if Opcode.branchFits d then
        .ok { l with code := l.code.set! f.site (UInt8.ofNat (d % 256).toNat) }
      else .error (.branchTooFar f.site d)
    | .absolute | .address =>
      .ok { l with code := (l.code.set! f.site low).set! (f.site + 1) high }
    | .addressLow => .ok { l with code := l.code.set! f.site low }
    | .addressHigh => .ok { l with code := l.code.set! f.site high }

/-- Fills in all fixups. -/
def patchAll (l : Layout) : Except Error Layout := do
  l.checkSize
  l.fixups.foldlM patch l

/-- The address of a named bound label; other labels are no symbols. -/
def symbol? (l : Layout) (label : Label) (offset : Nat) : Except Error (Option NamedAddress) :=
  if label.name.isEmpty || label.offset.isNone then .ok none
  else
    let address := l.origin + offset
    if 0x10000 ≤ address then .error (.labelTooLarge label.name)
    else .ok (some ⟨label.name, UInt16.ofNat address⟩)

/-- The named bound labels in the order of their addresses. -/
def symbols (l : Layout) (labels : List Label) : Except Error (List NamedAddress) := do
  let found ← (labels.zip l.offsets.toList).mapM fun p => l.symbol? p.1 p.2
  return (found.filterMap id).mergeSort fun a b => a.address ≤ b.address

end Layout

namespace Stream

/-- The first fixup whose label was never bound. -/
def unresolved? (s : Stream) : Option Fixup :=
  s.fixups.find? fun f => (s.offset? f.label).isNone

/-- Lays the stream out at an origin and fills in every fixup. -/
def link (s : Stream) (origin : UInt16) : Except Error Image := do
  if let some e := s.error then throw e
  if let some f := s.unresolved? then throw (.unresolvedLabel (s.nameOf f.label) f.site)
  let l ← (Layout.ofStream s origin).settle Layout.maxPasses
  let l ← l.patchAll
  let symbols ← l.symbols s.labels.toList
  return { origin, entry := origin, bytes := l.code, symbols, trampolines := l.trampolines }

end Stream

end Breadbin.Assembly
