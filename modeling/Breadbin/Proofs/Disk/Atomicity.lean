import Breadbin.Proofs.Disk.Runs
import Breadbin.Proofs.Disk.Reading

/-!
# When a file is refused

On a disk that files were added to there are four reasons to refuse another one: the program runs
past the last address, a file has the name already, too few blocks are free, or the directory has
its 144 files. The first that applies is the answer, a refused file leaves the disk as it is, and
without a reason the file is stored.

Whatever a disk holds, a file that is refused leaves every sector as it is, with one exception: if
the counts of the table promise more free sectors than its bits mark, or if the table's own sector
is free or lies in the directory, then the disk may turn out to be full when a part of the file is
written already.
-/

namespace Breadbin.Disk

variable {d : Disk} {dir : List Place} {files : List Stored} {name body : Bytes}

/-- The most files that a directory has slots for. -/
def mostFiles : Nat := 144

/-- Why a program file is refused on a disk that keeps others: the first reason that applies. -/
def refusal? [Text.Folds] (d : Disk) (kept : List (Bytes × Prg)) (name : Bytes) (p : Prg) :
    Option StorageError :=
  if ¬p.Fits then some (.pastEnd p.data.length p.load)
  else if ∃ r ∈ kept, padded nameLength r.1 = padded nameLength name then
    some (.taken (unpadded (padded nameLength name)))
  else if d.freeBlocks < blocksOfPrg p then some (.tooManyBlocks name (blocksOfPrg p) d.freeBlocks)
  else if kept.length = mostFiles then some .directoryFull
  else none

/-- The file that is found has the name asked for. -/
theorem written_of_named? [Text.Folds] {entries : List Entry} {e : Entry}
    (h : named? name entries = some e) : e.written = padded nameLength name := by
  have hmatch := List.find?_some h
  exact eq_of_beq hmatch

/-- A refusal over a name tells the name that the directory shows. -/
theorem Holds.add_taken [Text.Folds] (h : d.Holds dir files)
    (hname : padded nameLength name ∈ files.map Stored.written) (type : UInt8) (body : Bytes) :
    d.add name type body = (d, .error (.taken (unpadded (padded nameLength name)))) := by
  obtain ⟨e, hnamed⟩ := Option.ne_none_iff_exists'.1
    (mt (Holds.named?_eq_none_iff files name).1 (not_not.2 hname))
  obtain ⟨f, -, hf⟩ := List.mem_map.1 (List.mem_of_find?_eq_some hnamed)
  have hwritten := written_of_named? hnamed
  have hentry : e.name = unpadded (padded nameLength name) := by
    rw [← hwritten, ← hf, Stored.written_entry]
    rfl
  unfold Disk.add
  rw [h.directory]
  simp only
  rw [h.entries_eq, hnamed, ← hentry]

/-- The names on the disk are those of the files that were added. -/
theorem mem_written_iff [Text.Folds] {kept : List (Bytes × Prg)}
    (h : List.Forall₂ Stored.IsPrg files kept) (written : Bytes) :
    written ∈ files.map Stored.written ↔ ∃ r ∈ kept, padded nameLength r.1 = written := by
  have hsame : files.map Stored.written = kept.map fun r => padded nameLength r.1 := by
    have hboth := h.imp (S := fun f r => f.written = padded nameLength r.1) fun f r hprg => by
      rw [Stored.written, hprg.name]
    rw [← List.forall₂_eq_eq_eq]
    exact List.forall₂_map_left_iff.2 (List.forall₂_map_right_iff.2 hboth)
  rw [hsame, List.mem_map]

/-- What becomes of a program file on a disk that holds others. -/
theorem Holds.addPrg_refusal [Text.Folds] {kept : List (Bytes × Prg)} (h : d.Holds dir files)
    (hkept : List.Forall₂ Stored.IsPrg files kept) (name : Bytes) (p : Prg) :
    match d.refusal? kept name p with
    | some e => d.addPrg name p = (d, .error e)
    | none => ∃ d', d.addPrg name p = (d', .ok ()) := by
  have hnames := mem_written_iff hkept (padded nameLength name)
  have htype : closedProgram ≠ 0 := by decide
  have hblocks : blocksFor p.contents.length = blocksOfPrg p := by
    rw [length_contents]
    rfl
  unfold refusal? Disk.addPrg Prg.toBytes Prg.checked
  by_cases hfits : p.Fits
  swap
  · rw [if_pos hfits, if_neg hfits]
    rfl
  rw [if_neg (not_not.2 hfits), if_pos hfits]
  by_cases hname : ∃ r ∈ kept, padded nameLength r.1 = padded nameLength name
  · rw [if_pos hname]
    exact h.add_taken (hnames.2 hname) _ _
  rw [if_neg hname]
  rcases h.add name htype p.contents with
    ⟨htaken, -⟩ | ⟨-, ⟨hroom, hadd⟩ | ⟨hroom, ⟨hmost, hadd⟩ | ⟨hmost, d', -, -, -, hadd, -⟩⟩⟩
  · exact absurd (hnames.1 htaken) hname
  · rw [hblocks] at hroom hadd
    rw [if_pos hroom]
    exact hadd
  · rw [hblocks] at hroom
    rw [if_neg (Nat.not_lt.2 hroom), if_pos (hkept.length_eq ▸ hmost)]
    exact hadd
  · rw [hblocks] at hroom
    have hfewer : kept.length ≠ mostFiles := Nat.ne_of_lt (hkept.length_eq ▸ hmost)
    rw [if_neg (Nat.not_lt.2 hroom), if_neg hfewer]
    exact ⟨d', hadd⟩

/-- **Files are refused for cause.**  Whatever program files were to be added to an empty disk
before: one more is refused for the first reason there is, which leaves every sector of the disk as
it is, and is stored if there is none. -/
theorem refused_iff_reason [Text.Folds] (diskName identity : Bytes) (requests : List (Bytes × Prg))
    (name : Bytes) (p : Prg) :
    let d := (format diskName identity).addPrgs requests
    let kept := (format diskName identity).added requests
    match d.refusal? kept name p with
    | some e => d.addPrg name p = (d, .error e)
    | none => ∃ d', d.addPrg name p = (d', .ok ()) := by
  intro d kept
  obtain ⟨dir, files, hholds, hprgs⟩ := format_addPrgs diskName identity requests
  exact hholds.addPrg_refusal hprgs name p

end Breadbin.Disk

/-! ## Refusals on any disk -/

namespace Breadbin.Disk

variable {d d' prepared : Disk} {dir : List Place} {files : List Stored}
  {name body : Bytes} {p : Prg}
  {type : UInt8} {slot : Place × Nat} {e : StorageError}

/-- A disk tells the truth about its room: there are as many free sectors as the counts promise, and
the table's sector is neither free nor a part of the directory. -/
structure Candid (d : Disk) : Prop where
  room : d.freeBlocks ≤ d.freePlaces.length
  tableTaken : d.isFree tablePlace = false
  apart : ∀ dir, d.directory = .ok dir → tablePlace ∉ dir

/-- The disks that files are added to by name are candid. -/
theorem Holds.candid [Text.Folds] (h : d.Holds dir files) : d.Candid where
  room := (freeBlocks_eq h.counts).le
  tableTaken := (h.used _ (by decide)).2 (.inl List.mem_cons_self)
  apart dir' hdir := by
    rw [h.directory] at hdir
    cases hdir
    exact (List.nodup_cons.1 h.nodup).1

/-- A slot that is taken lies in the directory track, and no sector for data is used up for it. -/
theorem Candid.takeSlot (h : d.Candid) (hdir : d.directory = .ok dir)
    (htake : d.takeSlot dir = some (slot, prepared)) :
    slot.1.OnDisk ∧ slot.1 ≠ tablePlace ∧ prepared.freePlaces = d.freePlaces := by
  obtain ⟨hchain, hin⟩ := directory_eq_ok_iff.1 hdir
  have hapart := h.apart dir hdir
  unfold Disk.takeSlot at htake
  cases hfree : d.freeSlot? dir with
  | some found =>
    rw [hfree] at htake
    cases htake
    obtain ⟨q, hq, hslot⟩ := List.exists_of_findSome?_eq_some hfree
    obtain ⟨n, -, rfl⟩ := Option.map_eq_some_iff.1 hslot
    exact ⟨(hin q hq).2, fun heq => hapart (heq ▸ hq), rfl⟩
  | none =>
    rw [hfree] at htake
    obtain ⟨⟨fresh, grown⟩, hgrow, heq⟩ := Option.map_eq_some_iff.1 htake
    cases heq
    unfold growDirectory takeDirectorySector at hgrow
    obtain ⟨⟨fresh', used⟩, hused, heq⟩ := Option.map_eq_some_iff.1 hgrow
    cases heq
    obtain ⟨fresh, hfind, heq⟩ := Option.map_eq_some_iff.1 hused
    cases heq
    have hfresh : fresh.InDirectory := mem_around.1 (List.mem_of_find?_eq_some hfind)
    have hft : fresh ≠ tablePlace := by
      rintro rfl
      exact absurd (List.find?_some hfind) (by rw [h.tableTaken]; decide)
    have hlast : dir.getLastD directoryStart ∈ dir := by
      rw [List.getLastD_eq_getLast?, List.getLast?_eq_some_getLast hchain.ne_nil, Option.getD_some]
      exact List.getLast_mem hchain.ne_nil
    refine ⟨hfresh.2, hft, List.filter_congr fun q hq => ?_⟩
    have hdata := mem_dataPlaces.1 hq
    exact (isFree_grown (hin _ hlast).2 hfresh.2 (fun heq => hapart (heq ▸ hlast))
      hft hdata.1).trans
      (by rw [decide_eq_true (hdata.ne_of_inDirectory hfresh), Bool.and_true])

theorem writeBlocks_error {blocks : List Bytes} {q : Place}
    (h : d.writeBlocks q blocks = (d', .error e)) : e = .diskFull := by
  induction blocks generalizing d q with
  | nil => cases h
  | cons block rest ih =>
    cases rest with
    | nil => cases h
    | cons next rest =>
      rw [writeBlocks] at h
      · split at h
        · cases h
          rfl
        · exact ih h
      · intro hnil
        cases hnil

/-- While a file is written there is one thing that can go wrong. -/
theorem store_error [Text.Folds] (h : d.store slot type name body = (d', .error e)) :
    e = .diskFull := by
  unfold Disk.store at h
  split at h
  · cases h
    rfl
  · exact writeBlocks_error h

theorem add_error [Text.Folds] (h : d.add name type body = (d', .error e)) :
    d' = d ∨ e = .diskFull ∧ ¬d.Candid := by
  unfold Disk.add at h
  cases hdir : d.directory with
  | error e =>
    rw [hdir] at h
    cases h
    exact .inl rfl
  | ok dir =>
    rw [hdir] at h
    simp only at h
    split at h
    · cases h
      exact .inl rfl
    split at h
    · cases h
      exact .inl rfl
    next hroom =>
    cases htake : d.takeSlot dir with
    | none =>
      rw [htake] at h
      cases h
      exact .inl rfl
    | some taken =>
      obtain ⟨slot, prepared⟩ := taken
      rw [htake] at h
      refine .inr ⟨store_error h, fun hcandid => ?_⟩
      -- what the counts promised is there, and so the file would have been stored
      obtain ⟨hslot, hslotTable, hfree⟩ := hcandid.takeSlot hdir htake
      have hfits : blocksFor body.length ≤ prepared.freePlaces.length := by
        rw [hfree]
        exact (Nat.le_of_not_lt hroom).trans hcandid.room
      obtain ⟨stored, start, chain, hstore, -⟩ :=
        @store_written _ _ name _ type _ hslot hslotTable hfits
      simp only [hstore] at h
      cases h

/-- **Refusals leave disks alone.**  A program file that is refused leaves every sector of any disk
as it is, unless the disk is full against its own word. -/
theorem refused_unchanged_of_candid [Text.Folds] (h : d.addPrg name p = (d', .error e)) :
    d' = d ∨ e = .diskFull ∧ ¬d.Candid := by
  unfold Disk.addPrg at h
  cases hbytes : p.toBytes with
  | error e =>
    rw [hbytes] at h
    cases h
    exact .inl rfl
  | ok body =>
    rw [hbytes] at h
    exact add_error h

/-- A disk from elsewhere: stray bytes in every sector, in the directory too, and one free sector in
the table. -/
def stray : Disk :=
  let sector : Sector := Vector.replicate 256 0x45
  let free := (Sector.blank.setLink directoryStart).putAll (countOffset 17) [1, 1]
  ((Disk.mk (Vector.replicate 683 sector)).change tablePlace fun _ => free).change directoryStart
    (·.setLink ⟨0, 0xFF⟩)

/-- Two blocks do not fit on it. -/
theorem stray_unchanged : stray.addPrg (Text.bytesOf "GAME") ⟨2049, List.replicate 300 0xEA⟩ =
    (stray, .error (.tooManyBlocks (Text.bytesOf "GAME") 2 1)) := by
  have herror : (stray.addPrg (Text.bytesOf "GAME") ⟨2049, List.replicate 300 0xEA⟩).2 =
      .error (.tooManyBlocks (Text.bytesOf "GAME") 2 1) := by decide +kernel
  rcases hrefused : stray.addPrg (Text.bytesOf "GAME") ⟨2049, List.replicate 300 0xEA⟩ with ⟨d', r⟩
  rw [hrefused] at herror
  obtain rfl : r = _ := herror
  rcases refused_unchanged_of_candid hrefused with rfl | ⟨hfull, -⟩
  · rfl
  · cases hfull

end Breadbin.Disk
