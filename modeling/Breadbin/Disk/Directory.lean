import Breadbin.Disk.FreeTable

/-!
# The directory

The directory is a chain of sectors on its own track, eight slots of 32 bytes each.  A slot whose
type is zero is free.
-/

namespace Breadbin.Disk

/-- A file as the directory tells of it. -/
structure Entry where
  name : String
  type : UInt8
  start : Place
  blocks : UInt16
  deriving DecidableEq, Repr, Inhabited

/-- A program file that has been closed properly. -/
def closedProgram : UInt8 := 0x82

/-- The number of slots of a directory sector. -/
def slotsPerSector : Nat := 8

/-- The offset of a slot within its sector. -/
def slotOffset (slot : Nat) : Nat := 32 * slot

/-- The length of a file's name on the disk. -/
def nameLength : Nat := 16

namespace Sector

/-- Nothing is written in a slot. -/
def slotFree (s : Sector) (slot : Nat) : Bool := s.byte (slotOffset slot + 2) == 0

/-- What a slot tells of a file. -/
def entry (s : Sector) (slot : Nat) : Entry :=
  let o := slotOffset slot
  ⟨unpadded (s.slice (o + 5) nameLength), s.byte (o + 2),
    ⟨(s.byte (o + 3)).toNat, (s.byte (o + 4)).toNat⟩,
    (s.byte (o + 30)).toUInt16 + (s.byte (o + 31)).toUInt16 * 256⟩

/-- The files of a directory sector. -/
def entries (s : Sector) : List Entry :=
  ((List.range slotsPerSector).filter (!s.slotFree ·)).map s.entry

/-- Fills a slot. -/
def setEntry (s : Sector) (slot : Nat) (type : UInt8) (start : Place) (name : Bytes)
    (blocks : Nat) : Sector :=
  let o := slotOffset slot
  let s := s.putAll (o + 2) ([type, .ofNat start.track, .ofNat start.sector] ++ name)
  s.putAll (o + 30) [.ofNat blocks, .ofNat (blocks / 256)]

end Sector

/-- The sectors of the directory from a place on, if there are at most `n` of them. -/
def directoryFrom (d : Disk) : (n : Nat) → Place → Except StorageError (List Place)
  | 0, _ => .error .directoryLoops
  | n + 1, p =>
    if p.InDirectory then
      let s := d.sector p
      if s.byte 0 = 0 then .ok [p] else (p :: ·) <$> d.directoryFrom n s.link
    else .error (.directoryLink p.track p.sector)

/-- The sectors of the directory, in order. -/
def directory (d : Disk) : Except StorageError (List Place) :=
  d.directoryFrom (sectorsOn directoryTrack) directoryStart

/-- The files of a disk, in order. -/
def files (d : Disk) : Except StorageError (List Entry) :=
  (·.flatMap fun p => (d.sector p).entries) <$> d.directory

/-- The name of a file as its slot would hold it. -/
def Entry.written [Text.Folds] (e : Entry) : Bytes := padded nameLength (Text.bytesOf e.name)

/-- The first file of a name. -/
def named? [Text.Folds] (name : Bytes) (entries : List Entry) : Option Entry :=
  entries.find? (·.written == padded nameLength name)

/-- The first free slot of the given sectors. -/
def freeSlot? (d : Disk) (directory : List Place) : Option (Place × Nat) :=
  directory.findSome? fun p =>
    ((List.range slotsPerSector).find? (d.sector p).slotFree).map (p, ·)

/-- Gives the directory one more sector after its last. -/
def growDirectory (d : Disk) (last : Place) : Option (Place × Disk) :=
  (d.takeDirectorySector last).map fun (fresh, d) =>
    let d := d.change last (·.setLink fresh)
    (fresh, d.change fresh fun _ => Sector.blank.setLink ⟨0, 0xFF⟩)

/-- A slot for one more file, on a directory that grows when all of its slots are taken. -/
def takeSlot (d : Disk) (directory : List Place) : Option ((Place × Nat) × Disk) :=
  match d.freeSlot? directory with
  | some slot => some (slot, d)
  | none => (d.growDirectory (directory.getLastD directoryStart)).map fun (p, d) => ((p, 0), d)

end Breadbin.Disk
