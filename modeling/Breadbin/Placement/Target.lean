import Breadbin.Text.Bytes
import Breadbin.Text.Digits

/-!
# Targets

A target is the memory map of a machine: where the image is loaded, where variables and the shared
string buffers lie, and the two entry points of the built-in software that programs call.
-/

namespace Breadbin

/-- The memory map of a machine. -/
structure Target where
  name : String := ""
  /-- the first byte of the image -/
  loadAddress : UInt16 := 0
  /-- whether the image starts with a line of the built-in language that calls the program -/
  startLine : Bool := false
  /-- the first byte of the variables -/
  variableBase : UInt16 := 0
  /-- the first byte past the variables -/
  variableLimit : UInt16 := 0
  /-- the buffer that numbers are turned into text in -/
  conversionBase : UInt16 := 0
  conversionSize : UInt16 := 0
  /-- the buffer that strings are joined in -/
  concatenationBase : UInt16 := 0
  /-- the entry point that prints a character -/
  chrout : UInt16 := 0
  /-- the entry point that moves or reports the cursor -/
  plot : UInt16 := 0
  deriving DecidableEq, Repr, Inhabited

/-- Why a memory map is refused. -/
inductive TargetError where
  | noVariables (base limit : UInt16)
  | pastTheEnd (region : String)
  | inZeroPage (region : String)
  | overlap (first second : String)
  | shortConversionBuffer
  deriving DecidableEq, Repr

/-- The text of a refusal. -/
def TargetError.message (e : TargetError) : String :=
  "layout: invalid target: " ++
    match e with
    | noVariables base limit =>
      "variable region $" ++ Text.hexUpper 4 base.toNat ++ "-$" ++ Text.hexUpper 4 limit.toNat
        ++ " is empty"
    | pastTheEnd region => region ++ " runs past $FFFF"
    | inZeroPage region => region ++ " overlaps zero page"
    | overlap first second => first ++ " overlaps " ++ second
    | shortConversionBuffer => "conversion buffer needs 12 bytes"

namespace Target

/-- The machine programs are compiled for unless told otherwise. -/
def c64 : Target :=
  { name := "c64"
    loadAddress := 0x0801
    startLine := true
    variableBase := 0xC000
    variableLimit := 0xCE00
    conversionBase := 0xCE00
    conversionSize := 0x20
    concatenationBase := 0xCF00
    chrout := 0xFFD2
    plot := 0xFFF0 }

/-- The predefined target with a name; no name means the usual one. -/
def lookup? (name : String) : Option Target :=
  if name = "" ∨ name = "c64" then some c64 else none

/-- The size of the buffer that strings are joined in, with the zero at the end. -/
def concatenationSize : Nat := 256

/-- A named range of addresses. -/
structure Region where
  name : String
  base : Nat
  size : Nat
  deriving DecidableEq, Repr

/-- The ranges that have to be apart. -/
def regions (t : Target) : List Region :=
  [⟨"variables", t.variableBase.toNat, t.variableLimit.toNat - t.variableBase.toNat⟩,
   ⟨"conversion buffer", t.conversionBase.toNat, t.conversionSize.toNat⟩,
   ⟨"concatenation buffer", t.concatenationBase.toNat, concatenationSize⟩]

/-- Whether two ranges share an address. -/
def Region.overlaps (a b : Region) : Bool :=
  a.base < b.base + b.size && b.base < a.base + a.size

/-- The first thing wrong with ranges: each must lie between the zero page and the end of memory and
apart from those after it. -/
def regionError? : List Region → Option TargetError
  | [] => none
  | a :: rest =>
    if 0x10000 < a.base + a.size then some (.pastTheEnd a.name)
    else if a.base < 0x100 then some (.inZeroPage a.name)
    else
      match rest.find? a.overlaps with
      | some b => some (.overlap a.name b.name)
      | none => regionError? rest

/-- The first thing wrong with a memory map. -/
def error? (t : Target) : Option TargetError :=
  if t.variableLimit ≤ t.variableBase then some (.noVariables t.variableBase t.variableLimit)
  else
    match regionError? t.regions with
    | some e => some e
    | none => if t.conversionSize < 12 then some .shortConversionBuffer else none

/-- The line `10 SYS entry` as the built-in language stores it, and the end of its program. -/
def startLineBytes (load entry : UInt16) : Bytes :=
  let digits := Text.bytesOf (toString entry.toNat)
  let stop := load + 7 + UInt16.ofNat digits.length
  [stop.toUInt8, (stop >>> 8).toUInt8, 10, 0, 0x9E, 0x20] ++ digits ++ [0, 0, 0]

/-- Looks for the entry that lies right behind the line that calls it. -/
def findEntry (load : UInt16) : (tries : Nat) → UInt16 → Bytes × UInt16
  | 0, entry => (startLineBytes load entry, entry)
  | n + 1, entry =>
    let line := startLineBytes load entry
    let next := load + UInt16.ofNat line.length
    if next = entry then (line, entry) else findEntry load n next

/-- What stands in front of the program, and where the program starts. -/
def stub (t : Target) : Bytes × UInt16 :=
  if t.startLine then findEntry t.loadAddress 8 t.loadAddress else ([], t.loadAddress)

end Target

end Breadbin
