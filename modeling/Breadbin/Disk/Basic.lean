import Breadbin.Text.Quoted
import Breadbin.Text.Digits
import Breadbin.Text.Petscii

/-!
# Disk images

The layout of a disk, what can go wrong with it, and its sectors.
-/

namespace Breadbin

/-!
## What goes wrong with program files and disks

Every failure of reading or writing a program file or a disk is one of these causes.
-/

/-- Why a program file or a disk cannot be read or written. -/
inductive StorageError where
  /-- A program file without a whole load address. -/
  | shortFile
  /-- A program file that would be loaded past the last address. -/
  | pastEnd (size : Nat) (load : UInt16)
  /-- No sector is free any more. -/
  | diskFull
  /-- A file needs more blocks than are free. -/
  | tooManyBlocks (name : Bytes) (needed free : Nat)
  /-- No directory slot is free any more. -/
  | directoryFull
  /-- An image of another size than a disk. -/
  | wrongSize (size : Nat)
  /-- The directory leaves its track. -/
  | directoryLink (track sector : Nat)
  /-- The directory never ends. -/
  | directoryLoops
  /-- A file continues outside of the disk. -/
  | blockLink (track sector : Nat)
  /-- The last block of a file counts no byte of it. -/
  | emptyLastBlock (track sector : Nat)
  /-- A file never ends. -/
  | blocksLoop
  /-- No file has the name asked for. -/
  | notFound (name : Bytes)
  /-- A file of that name is on the disk already. -/
  | taken (name : String)
  deriving DecidableEq, Repr

namespace StorageError

/-- A disk image that cannot be right, and how. -/
def badDisk (how : String) : String :=
  "container: not a 35-track D64 image: " ++ how

/-- What is told about a failure. -/
def message : StorageError → String
  | shortFile => "container: PRG shorter than its load address"
  | pastEnd size load =>
    s!"container: PRG runs past $FFFF: {size} bytes at $" ++ Text.hexUpper 4 load.toNat
  | diskFull => "container: disk full"
  | tooManyBlocks name needed free =>
    "container: disk full: " ++ Text.quoted name ++ s!" needs {needed} blocks, {free} free"
  | directoryFull => "container: directory full"
  | wrongSize size => badDisk s!"{size} bytes"
  | directoryLink t s => badDisk s!"directory link {t}/{s}"
  | directoryLoops => badDisk "directory chain loops"
  | blockLink t s => badDisk s!"block link {t}/{s}"
  | emptyLastBlock t s => badDisk s!"last block at {t}/{s} is empty"
  | blocksLoop => badDisk "block chain loops"
  | notFound name => "container: file not on disk: " ++ Text.quoted name
  | taken name => "container: file exists: " ++ Text.quotedText name

end StorageError

end Breadbin

namespace Breadbin.Disk

/-!
## The geometry of a disk

A disk has 35 tracks, numbered from 1.  The outer tracks are longer and hold more sectors.  Sectors
are numbered from 0 within their track, and an image holds them track by track.
-/

/-- The number of tracks. -/
def tracks : Nat := 35

/-- The number of bytes of a sector. -/
def sectorSize : Nat := 256

/-- The number of sectors of a disk. -/
def sectorCount : Nat := 683

/-- The number of bytes of an image. -/
def imageSize : Nat := sectorCount * sectorSize

/-- The track that holds the directory and the table of free sectors. -/
def directoryTrack : Nat := 18

/-- The number of sectors of a track; none if there is no such track. -/
def sectorsOn (track : Nat) : Nat :=
  if track < 1 ∨ track > tracks then 0
  else if track ≤ 17 then 21
  else if track ≤ 24 then 19
  else if track ≤ 30 then 18
  else 17

/-- Where a sector is. -/
structure Place where
  track : Nat
  sector : Nat
  deriving DecidableEq, Repr, Inhabited

namespace Place

/-- There is such a sector. -/
def OnDisk (p : Place) : Prop := p.sector < sectorsOn p.track

instance (p : Place) : Decidable p.OnDisk := inferInstanceAs (Decidable (_ < _))

/-- The sector is one of the directory track. -/
def InDirectory (p : Place) : Prop := p.track = directoryTrack ∧ p.OnDisk

instance (p : Place) : Decidable p.InDirectory := inferInstanceAs (Decidable (_ ∧ _))

/-- The number of sectors that an image holds before this one. -/
def position (p : Place) : Nat :=
  (List.range p.track).foldl (fun n t => n + sectorsOn t) 0 + p.sector

end Place

/-- The table of free sectors, and the disk's name. -/
def tablePlace : Place := ⟨directoryTrack, 0⟩

/-- The first sector of the directory. -/
def directoryStart : Place := ⟨directoryTrack, 1⟩

/-- The tracks that hold files, in the order in which they are filled: outward from the directory,
the lower half first. -/
def dataTracks : List Nat :=
  (List.range 17).map (17 - ·) ++ (List.range 17).map (19 + ·)

/-- The sectors of a track from one of them on, all the way round. -/
def around (track start : Nat) : List Place :=
  (List.range (sectorsOn track)).map fun k => ⟨track, (start + k) % sectorsOn track⟩

end Breadbin.Disk

namespace Breadbin

/-!
## Disk images

A disk is its sectors, in the order of an image.  Names on a disk are written in the character set
of the screen and filled up to their length with shifted spaces.
-/

namespace Disk

/-- The bytes of one sector. -/
abbrev Sector := Vector UInt8 256

namespace Sector

/-- A sector full of zeros. -/
def blank : Sector := Vector.replicate 256 0

/-- The byte at an offset. -/
def byte (s : Sector) (i : Nat) : UInt8 := s[i]?.getD 0

/-- Stores a byte at an offset. -/
def put (s : Sector) (i : Nat) (v : UInt8) : Sector := s.setIfInBounds i v

/-- Stores bytes from an offset on. -/
def putAll (s : Sector) (i : Nat) : Bytes → Sector
  | [] => s
  | b :: rest => (s.put i b).putAll (i + 1) rest

/-- `n` bytes from an offset on. -/
def slice (s : Sector) (i n : Nat) : Bytes := (s.toList.drop i).take n

/-- The place that the first two bytes of a sector name. -/
def link (s : Sector) : Place := ⟨(s.byte 0).toNat, (s.byte 1).toNat⟩

/-- Makes the first two bytes of a sector name a place. -/
def setLink (s : Sector) (p : Place) : Sector :=
  (s.put 0 (.ofNat p.track)).put 1 (.ofNat p.sector)

end Sector

/-- The byte that fills up a name. -/
def filler : UInt8 := 0xA0

/-- A name of `n` bytes: cut, or filled up. -/
def padded [Text.Folds] (n : Nat) (name : Bytes) : Bytes :=
  (Text.Petscii.encode name ++ List.replicate n filler).take n

/-- The text of a name without what fills it up. -/
def unpadded (name : Bytes) : String :=
  Text.Petscii.decode (name.reverse.dropWhile (· == filler)).reverse

end Disk

/-- A disk: every sector, in the order of an image. -/
structure Disk where
  sectors : Vector Disk.Sector 683
  deriving Inhabited

namespace Disk

/-- A disk full of zeros. -/
def blank : Disk := ⟨Vector.replicate 683 Sector.blank⟩

/-- The sector at a place. -/
def sector (d : Disk) (p : Place) : Sector := d.sectors[p.position]?.getD Sector.blank

/-- Changes the sector at a place. -/
def change (d : Disk) (p : Place) (f : Sector → Sector) : Disk :=
  ⟨d.sectors.setIfInBounds p.position (f (d.sector p))⟩

/-- The image of a disk. -/
def toBytes (d : Disk) : Bytes := d.sectors.toList.flatMap (·.toList)

/-- The sectors that an image holds, as far as it reaches. -/
def sectorsOf : Nat → Bytes → List Sector
  | 0, _ => []
  | n + 1, image => Sector.blank.putAll 0 (image.take 256) :: sectorsOf n (image.drop 256)

theorem length_sectorsOf (n : Nat) (image : Bytes) : (sectorsOf n image).length = n := by
  induction n generalizing image with
  | zero => rfl
  | succ n ih => simp [sectorsOf, ih]

/-- The size of an image that ends with one error code per sector. -/
def imageSizeWithErrors : Nat := imageSize + sectorCount

/-- Reads an image; error codes at its end are dropped. -/
def parse (image : Bytes) : Except StorageError Disk :=
  let size := image.length
  if size = imageSize ∨ size = imageSizeWithErrors then
    .ok ⟨⟨(sectorsOf 683 image).toArray, by simp [length_sectorsOf]⟩⟩
  else .error (.wrongSize size)

/-- The name of a disk. -/
def name (d : Disk) : String := unpadded ((d.sector tablePlace).slice 0x90 16)

/-- The two characters that tell disks of one name apart. -/
def identity (d : Disk) : String := unpadded ((d.sector tablePlace).slice 0xA2 2)

end Disk

end Breadbin
