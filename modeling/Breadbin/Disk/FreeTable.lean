import Breadbin.Disk.Basic

/-!
# Free sectors

The table of free sectors has four bytes per track: how many sectors are free, and one bit per
sector that is set while the sector is free.  A new block of a file is looked for a few sectors
further on in the track of the block before it, and then on the tracks that are filled later.
-/

namespace Breadbin.Disk

/-- The offset of a track's count within the table. -/
def countOffset (track : Nat) : Nat := 4 * track

/-- The offset of the byte that holds a sector's bit. -/
def bitOffset (p : Place) : Nat := countOffset p.track + 1 + p.sector / 8

/-- The bit of a sector within its byte. -/
def bitMask (sector : Nat) : UInt8 := 1 <<< UInt8.ofNat (sector % 8)

namespace Sector

/-- The table says that a sector is free. -/
def isFree (table : Sector) (p : Place) : Bool :=
  table.byte (bitOffset p) &&& bitMask p.sector != 0

/-- The table in which a sector is no longer free. -/
def use (table : Sector) (p : Place) : Sector :=
  if table.isFree p then
    let cleared := table.put (bitOffset p) (table.byte (bitOffset p) &&& ~~~ bitMask p.sector)
    cleared.put (countOffset p.track) (cleared.byte (countOffset p.track) - 1)
  else table

/-- The table in which a track has all of its sectors free. -/
def freeTrack (table : Sector) (track : Nat) : Sector :=
  (List.range (sectorsOn track)).foldl
    (fun t s =>
      let o := bitOffset ⟨track, s⟩
      t.put o (t.byte o ||| bitMask s))
    (table.put (countOffset track) (.ofNat (sectorsOn track)))

end Sector

/-- The table of free sectors. -/
def table (d : Disk) : Sector := d.sector tablePlace

/-- The table says that a sector is free. -/
def isFree (d : Disk) (p : Place) : Bool := d.table.isFree p

/-- The disk on which a sector is no longer free. -/
def use (d : Disk) (p : Place) : Disk := d.change tablePlace (·.use p)

/-- The number of free sectors outside of the directory track, by the counts of the table. -/
def freeBlocks (d : Disk) : Nat :=
  dataTracks.foldl (fun n t => n + (d.table.byte (countOffset t)).toNat) 0

/-- How many sectors lie between two blocks of a file. -/
def blockStep : Nat := 10

/-- How many sectors lie between two sectors of the directory. -/
def directoryStep : Nat := 3

/-- Where the next block of a file may go, in the order of preference; the file's first block if
there is none before it. -/
def blockPlaces : (before : Option Place) → List Place
  | none => dataTracks.flatMap (around · 0)
  | some p =>
    around p.track (p.sector + blockStep) ++
      ((dataTracks.dropWhile (· ≠ p.track)).drop 1).flatMap (around · 0)

/-- Takes the next free sector for a file. -/
def takeBlock (d : Disk) (before : Option Place) : Option (Place × Disk) :=
  ((blockPlaces before).find? d.isFree).map fun p => (p, d.use p)

/-- Takes the next free sector for the directory. -/
def takeDirectorySector (d : Disk) (last : Place) : Option (Place × Disk) :=
  ((around directoryTrack (last.sector + directoryStep)).find? d.isFree).map fun p => (p, d.use p)

/-- An empty disk of that name and identity. -/
def format [Text.Folds] (name identity : Bytes) : Disk :=
  let table := ((List.range tracks).map (· + 1)).foldl Sector.freeTrack Sector.blank
  let table := (table.setLink directoryStart).put 2 0x41
  let table := table.putAll 0x90 <|
    padded 16 name ++ [filler, filler] ++ padded 2 identity ++
      [filler, 0x32, 0x41, filler, filler, filler, filler]
  ((blank.change tablePlace fun _ => table).use tablePlace |>.use directoryStart).change
    directoryStart fun s => s.setLink ⟨0, 0xFF⟩

end Breadbin.Disk
