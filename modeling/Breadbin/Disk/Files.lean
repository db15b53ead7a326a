import Breadbin.Assembly.Link
import Breadbin.Disk.Directory

/-!
# Files on a disk

A file is a chain of blocks.  The first two bytes of a block name the next one; in the last block,
the first is zero and the second is the offset of the last byte that belongs to the file.
-/

namespace Breadbin

/-!
## Program files

A program file holds a load address, low byte first, and the bytes that are placed there.
-/

/-- The bytes of a program and where they are loaded. -/
structure Prg where
  load : UInt16
  data : Bytes
  deriving DecidableEq, Repr, Inhabited

namespace Prg

/-- The program file of a linked image. -/
def ofImage (i : Image) : Prg := ⟨i.origin, i.bytes.toList⟩

/-- The first address past the loaded bytes. -/
def stop (p : Prg) : Nat := p.load.toNat + p.data.length

/-- The program lies in the address space as a whole. -/
def Fits (p : Prg) : Prop := p.stop ≤ 0x10000

instance (p : Prg) : Decidable p.Fits := inferInstanceAs (Decidable (_ ≤ _))

/-- The contents of the file, whether it fits or not. -/
def contents (p : Prg) : Bytes :=
  p.load.toUInt8 :: (p.load >>> 8).toUInt8 :: p.data

/-- Refuses a program that runs past the last address. -/
def checked (p : Prg) : Except StorageError Prg :=
  if p.Fits then .ok p else .error (.pastEnd p.data.length p.load)

/-- The contents of the file of a program that fits. -/
def toBytes (p : Prg) : Except StorageError Bytes :=
  contents <$> p.checked

/-- Reads the contents of a file. -/
def parse : Bytes → Except StorageError Prg
  | lo :: hi :: data => checked ⟨lo.toUInt16 + hi.toUInt16 * 256, data⟩
  | _ => .error .shortFile

end Prg

end Breadbin

namespace Breadbin.Disk

/-- The bytes of a file that a block holds. -/
def payload : Nat := 254

/-- The number of blocks of a file; an empty one still takes one. -/
def blocksFor (size : Nat) : Nat := max 1 ((size + payload - 1) / payload)

/-- The bytes of a file, cut into `n` blocks. -/
def blocksOf : (n : Nat) → Bytes → List Bytes
  | 0, _ => []
  | n + 1, body => body.take payload :: blocksOf n (body.drop payload)

/-- Writes the blocks of a file from a place on.  A disk whose table counts more free sectors than
there are is left half written. -/
def writeBlocks (d : Disk) (p : Place) : List Bytes → Disk × Except StorageError Unit
  | [] => (d, .ok ())
  | [last] =>
    (d.change p fun s => (s.putAll 2 last).setLink ⟨0, last.length + 1⟩, .ok ())
  | block :: rest =>
    let d := d.change p (·.putAll 2 block)
    match d.takeBlock (some p) with
    | none => (d, .error .diskFull)
    | some (next, d) => (d.change p (·.setLink next)).writeBlocks next rest

/-- Writes a file into free sectors and tells of it in a slot of the directory. -/
def store [Text.Folds] (d : Disk) (slot : Place × Nat) (type : UInt8) (name body : Bytes) :
    Disk × Except StorageError Unit :=
  match d.takeBlock none with
  | none => (d, .error .diskFull)
  | some (start, d) =>
    let blocks := blocksFor body.length
    let d := d.change slot.1 fun s => s.setEntry slot.2 type start (padded nameLength name) blocks
    d.writeBlocks start (blocksOf blocks body)

/-- Stores a file under a name that no other file has. -/
def add [Text.Folds] (d : Disk) (name : Bytes) (type : UInt8) (body : Bytes) :
    Disk × Except StorageError Unit :=
  match d.directory with
  | .error e => (d, .error e)
  | .ok directory =>
    match named? name (directory.flatMap fun p => (d.sector p).entries) with
    | some e => (d, .error (.taken e.name))
    | none =>
      if d.freeBlocks < blocksFor body.length then
        (d, .error (.tooManyBlocks name (blocksFor body.length) d.freeBlocks))
      else
        match d.takeSlot directory with
        | none => (d, .error .directoryFull)
        | some (slot, d) => d.store slot type name body

/-- Stores a program file. -/
def addPrg [Text.Folds] (d : Disk) (name : Bytes) (p : Prg) :
    Disk × Except StorageError Unit :=
  match p.toBytes with
  | .error e => (d, .error e)
  | .ok body => d.add name closedProgram body

/-- The bytes of a file from a block on, if it has at most `n` blocks from there. -/
def readBlocks (d : Disk) : (n : Nat) → Place → Except StorageError Bytes
  | 0, _ => .error .blocksLoop
  | n + 1, p =>
    if p.OnDisk then
      let s := d.sector p
      if s.byte 0 = 0 then
        if s.byte 1 = 0 then .error (.emptyLastBlock p.track p.sector)
        else .ok (s.slice 2 ((s.byte 1).toNat - 1))
      else (s.slice 2 payload ++ ·) <$> d.readBlocks n s.link
    else .error (.blockLink p.track p.sector)

/-- The contents of the first file of a name. -/
def read [Text.Folds] (d : Disk) (name : Bytes) : Except StorageError Bytes := do
  match named? name (← d.files) with
  | some e => d.readBlocks sectorCount e.start
  | none => .error (.notFound name)

/-- The program file of a name. -/
def readPrg [Text.Folds] (d : Disk) (name : Bytes) : Except StorageError Prg := do
  Prg.parse (← d.read name)

end Breadbin.Disk
