import Breadbin.Assembly.Link
import Breadbin.Diagnostic.Bag
import Breadbin.Placement.Target
import Breadbin.Program.Decoding
import Breadbin.Program.Encoding
import Breadbin.Text.Digits
import Breadbin.Text.Sha256

/-!
# Files of kept images

What is kept of a build is stored as a packed record that starts with the number of its layout.  A
file of another layout, and one that cannot be read, keeps nothing.
-/

/-! ## Keys of finished images

An image is kept under a digest of everything that decides it: the layout of the kept files, the
memory map of the target and the stored form of the program.
-/

namespace Breadbin.Cache

/-- The number of the layout of a kept image. -/
def schema : UInt16 := 1

/-- Four digits of an address. -/
def addressText (a : UInt16) : String := Text.hexLower 4 a.toNat

/-- The memory map of a target, each part closed by a bar. -/
def targetText (t : Target) : String :=
  String.join
    ([t.name, addressText t.loadAddress, toString t.startLine, addressText t.variableBase,
        addressText t.variableLimit, addressText t.conversionBase, addressText t.conversionSize,
        addressText t.concatenationBase, addressText t.chrout, addressText t.plot].map (· ++ "|"))

/-- The bytes that decide the key. -/
def material (p : Option Program) (t : Target) : Bytes :=
  [UInt8.ofNat (schema.toNat % 256), UInt8.ofNat (schema.toNat / 256)] ++
    Text.bytesOf (targetText t) ++ Program.encode p

/-- The key of a program on a target. -/
def key (p : Option Program) (t : Target) : Bytes := Sha256.digest (material p t)

end Breadbin.Cache

/-! ## Kept images

A finished image is kept under its key together with the warnings that came with it, so that finding
it tells as much as building it again.
-/

namespace Breadbin.Cache

/-- What is kept of a build. -/
structure Payload where
  name : Bytes
  image : Image
  /-- the diagnostics that are no errors -/
  warnings : List Diagnostic
  deriving Inhabited

/-- What is kept of an image and the diagnostics of its build. -/
def Payload.of (name : Bytes) (image : Image) (diagnostics : Bag) : Payload :=
  { name, image, warnings :=
    diagnostics.items.toList.filter (·.severity.level < Severity.error.level) }

/-- The diagnostics of a build that is found, as many as are asked for. -/
def Payload.diagnostics (p : Payload) (most : Int) : Bag :=
  p.warnings.foldl Bag.add (.ofLimit most)

/-- Kept images by key.  An entry that can no longer be read is there and yet tells nothing. -/
structure Store where
  entries : List (Bytes × Option Payload) := []
  deriving Inhabited

namespace Store

/-- What is kept under a key. -/
def fetch? (s : Store) (key : Bytes) : Option Payload := (s.entries.lookup key).join

/-- Keeps something under a key, in place of what was there. -/
def keep (s : Store) (key : Bytes) (p : Payload) : Store :=
  ⟨(key, some p) :: s.entries.filter (·.1 ≠ key)⟩

/-- Makes every entry unreadable. -/
def spoil (s : Store) : Store := ⟨s.entries.map fun (k, _) => (k, none)⟩

end Store

end Breadbin.Cache

namespace Breadbin

open Unpack (Reader)

/-- The record of a named address. -/
def NamedAddress.packed (s : NamedAddress) : Bytes :=
  Pack.record [("Name", Pack.text s.label), ("Addr", Pack.word s.address)]

/-- Reads a named address. -/
def NamedAddress.read : Reader NamedAddress :=
  Unpack.record ⟨[], 0⟩
    [("Name", fun s => return { s with label := ← Unpack.text }),
      ("Addr", fun s => return { s with address := ← Unpack.word })]

/-- The record of a note. -/
def Note.packed (n : Note) : Bytes :=
  Pack.record [("Span", n.span.packed), ("Msg", Pack.text (Text.bytesOf n.message))]

/-- Reads a note. -/
def Note.read : Reader Note :=
  Unpack.record ⟨.none, ""⟩
    [("Span", fun n => return { n with span := ← Span.read }),
      ("Msg", fun n => return { n with message := Text.shown (← Unpack.text) })]

/-- The record of a diagnostic. -/
def Diagnostic.packed (d : Diagnostic) : Bytes :=
  Pack.record
    [("Severity", Pack.byte d.severity.level), ("Code", Pack.word d.code.number),
      ("Message", Pack.text (Text.bytesOf d.message)), ("Primary", d.span.packed),
      ("Notes", packedList (d.notes.map Note.packed) false)]

/-- Reads a diagnostic. -/
def Diagnostic.read : Reader Diagnostic :=
  Unpack.record ⟨.info, ⟨0⟩, "", .none, []⟩
    [("Severity", fun d => return { d with severity := .ofLevel (← Unpack.byte) }),
      ("Code", fun d => return { d with code := ⟨← Unpack.word⟩ }),
      ("Message", fun d => return { d with message := Text.shown (← Unpack.text) }),
      ("Primary", fun d => return { d with span := ← Span.read }),
      ("Notes", fun d => return { d with notes := (← Unpack.list? Note.read).getD [] })]

namespace Cache

/-- The contents of the file for what is kept. -/
def Payload.encode (p : Payload) : Bytes :=
  Pack.record
    [("Schema", Pack.word schema), ("Name", Pack.text p.name), ("Origin", Pack.word p.image.origin),
      ("Entry", Pack.word p.image.entry), ("Bytes", Pack.bytes p.image.bytes.toList),
      ("Symbols", packedList (p.image.symbols.map NamedAddress.packed) true),
      ("Trampolines", Pack.signed (Int64.ofNat p.image.trampolines)),
      ("Warnings", packedList (p.warnings.map Diagnostic.packed) false)]

/-- What a file says is kept, with the number of its layout. -/
structure Entry where
  schema : UInt16 := 0
  payload : Payload := ⟨[], ⟨0, 0, #[], [], 0⟩, []⟩

namespace Entry

/-- Changes the image of an entry. -/
def withImage (e : Entry) (f : Image → Image) : Entry :=
  { e with payload := { e.payload with image := f e.payload.image } }

/-- Reads an entry. -/
def read : Reader Entry :=
  Unpack.record {}
    [("Schema", fun e => return { e with schema := ← Unpack.word }),
      ("Name", fun e => return { e with payload := { e.payload with name := ← Unpack.text } }),
      ("Origin", fun e => do let x ← Unpack.word; return e.withImage ({ · with origin := x })),
      ("Entry", fun e => do let x ← Unpack.word; return e.withImage ({ · with entry := x })),
      ("Bytes", fun e => do
        let x ← Unpack.text; return e.withImage ({ · with bytes := x.toArray })),
      ("Symbols", fun e => do
        let x ← Unpack.list? NamedAddress.read
        return e.withImage ({ · with symbols := x.getD [] })),
      ("Trampolines", fun e => do
        let x ← Unpack.signed
        return e.withImage ({ · with trampolines := x.toInt.toNat })),
      ("Warnings", fun e => do
        let x ← Unpack.list? Diagnostic.read
        return { e with payload := { e.payload with warnings := x.getD [] } })]

end Entry

/-- What a file keeps, if it can be read. -/
def Payload.decode? (contents : Bytes) : Option Payload :=
  match Entry.read.run contents with
  | .ok (e, _) => if e.schema = schema then some e.payload else none
  | .error _ => none

/-- The name of the file for a key. -/
def fileName (key : Bytes) : String := Text.hexOf key ++ ".mp"

end Cache

end Breadbin
