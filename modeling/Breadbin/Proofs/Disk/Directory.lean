import Breadbin.Proofs.Disk.Blocks
import Breadbin.Proofs.Text.Petscii
import Mathlib.Data.List.Perm.Subperm

/-!
# What a disk holds

A disk holds a list of files in a directory of some sectors: the files take the slots of the
directory in order, each file is a chain of sectors of its own, and the sectors that the table says
are taken are those of the chains, those of the directory and the table's own.
-/

namespace Breadbin.Disk

variable {d d' : Disk} {p q : Place}

/-! ## Names -/

section Names

variable [Text.Folds]

theorem length_padded (n : Nat) (name : Bytes) : (padded n name).length = n := by
  unfold padded
  rw [List.length_take, List.length_append, List.length_replicate]
  omega

theorem padded_eq (n : Nat) (name : Bytes) : padded n name =
    (Text.Petscii.encode name).take n ++
      List.replicate (n - (Text.Petscii.encode name).length) filler := by
  unfold padded
  rw [List.take_append, List.take_replicate]
  congr 2
  omega

/-- A name is read back as the text of its codes. -/
theorem unpadded_padded (n : Nat) (name : Bytes) :
    unpadded (padded n name) = Text.Petscii.decode ((Text.Petscii.encode name).take n) := by
  have hkeep : ∀ codes : Bytes, (∀ b ∈ codes, b ≠ filler) →
      codes.dropWhile (· == filler) = codes := by
    intro codes hcodes
    cases codes with
    | nil => rfl
    | cons b rest =>
      rw [List.dropWhile_cons_of_neg]
      simpa using hcodes b List.mem_cons_self
  have hdrop : ∀ (k : Nat) (codes : Bytes),
      (List.replicate k filler ++ codes).dropWhile (· == filler) =
          codes.dropWhile (· == filler) := by
    intro k codes
    induction k with
    | zero => rfl
    | succ k ih => rw [List.replicate_succ, List.cons_append,
        List.dropWhile_cons_of_pos (by rfl), ih]
  have hcodes : ∀ b ∈ ((Text.Petscii.encode name).take n).reverse, b ≠ filler := by
    intro b hb
    have hmem := List.mem_of_mem_take (List.mem_reverse.1 hb)
    exact (Text.Petscii.isCode_encode name b hmem).ne_filler
  unfold unpadded
  rw [padded_eq, List.reverse_append, List.reverse_replicate, hdrop, hkeep _ hcodes,
    List.reverse_reverse]

/-- The codes of a name that is read back are those that were written. -/
theorem encode_unpadded (n : Nat) (name : Bytes) :
    Text.Petscii.encode (Text.bytesOf (unpadded (padded n name))) =
      (Text.Petscii.encode name).take n := by
  rw [unpadded_padded]
  apply Text.Petscii.encode_decode
  intro b hb
  exact Text.Petscii.isCode_encode name b (List.mem_of_mem_take hb)

theorem padded_unpadded (n : Nat) (name : Bytes) :
    padded n (Text.bytesOf (unpadded (padded n name))) = padded n name := by
  rw [padded_eq n (Text.bytesOf _), encode_unpadded, List.take_take, Nat.min_self, padded_eq n name]
  congr 2
  rw [List.length_take]
  omega

end Names

/-! ## Slots -/

/-- The slots of some sectors, in order. -/
def slotsOf (ps : List Place) : List (Place × Nat) :=
  ps.flatMap fun p => (List.range slotsPerSector).map (p, ·)

theorem mem_slotsOf {ps : List Place} {slot : Place × Nat} :
    slot ∈ slotsOf ps ↔ slot.1 ∈ ps ∧ slot.2 < slotsPerSector := by
  unfold slotsOf
  rw [List.mem_flatMap]
  constructor
  · rintro ⟨p, hp, hslot⟩
    obtain ⟨i, hi, rfl⟩ := List.mem_map.1 hslot
    exact ⟨hp, List.mem_range.1 hi⟩
  · rintro ⟨hp, hi⟩
    exact ⟨slot.1, hp, List.mem_map.2 ⟨slot.2, List.mem_range.2 hi, rfl⟩⟩

theorem length_slotsOf (ps : List Place) : (slotsOf ps).length = slotsPerSector * ps.length := by
  induction ps with
  | nil => rfl
  | cons p ps ih =>
    rw [slotsOf, List.flatMap_cons, List.length_append, List.length_map,
      List.length_range, ← slotsOf, ih, List.length_cons, Nat.mul_succ, Nat.add_comm]

theorem nodup_slotsOf {ps : List Place} (h : ps.Nodup) : (slotsOf ps).Nodup := by
  refine List.nodup_flatMap.2 ⟨?_, ?_⟩
  · intro p _
    exact List.nodup_range.map fun i j hij => congrArg Prod.snd hij
  · refine h.imp ?_
    intro p q hpq slot hp hq
    obtain ⟨i, -, rfl⟩ := List.mem_map.1 hp
    obtain ⟨j, -, heq⟩ := List.mem_map.1 hq
    exact hpq (congrArg Prod.fst heq).symm

/-- Nothing is written in a slot of the disk. -/
def slotFree (d : Disk) (slot : Place × Nat) : Bool := (d.sector slot.1).slotFree slot.2

/-- What a slot of the disk tells. -/
def slotEntry (d : Disk) (slot : Place × Nat) : Entry := (d.sector slot.1).entry slot.2

theorem freeSlot?_eq (d : Disk) (ps : List Place) :
    d.freeSlot? ps = (slotsOf ps).find? d.slotFree := by
  unfold freeSlot? slotsOf
  rw [List.find?_flatMap]
  congr 1
  funext p
  rw [List.find?_map]
  rfl

theorem entries_eq (d : Disk) (ps : List Place) : (ps.flatMap fun p => (d.sector p).entries) =
    ((slotsOf ps).filter (!d.slotFree ·)).map d.slotEntry := by
  unfold slotsOf
  rw [List.filter_flatMap, List.map_flatMap]
  apply List.flatMap_congr
  intro p _
  rw [List.filter_map, List.map_map]
  rfl

/-- What a slot tells is the same on two disks. -/
theorem slot_congr {slot : Place × Nat} (hslot : slot.2 < slotsPerSector)
    (h : (d'.sector slot.1).SameSlot (d.sector slot.1) slot.2) :
    d'.slotFree slot = d.slotFree slot ∧ d'.slotEntry slot = d.slotEntry slot :=
  ⟨h.slotFree, h.entry hslot⟩

/-! ## Files -/

/-- A file of a disk and the sectors that it takes. -/
structure Stored where
  name : Bytes
  type : UInt8
  body : Bytes
  start : Place
  chain : List Place

/-- The name of a file as it is written. -/
def Stored.written [Text.Folds] (f : Stored) : Bytes := padded nameLength f.name

/-- What the directory tells of a file. -/
def Stored.entry [Text.Folds] (f : Stored) : Entry :=
  ⟨unpadded f.written, f.type, f.start, .ofNat (blocksFor f.body.length)⟩

theorem Stored.written_entry [Text.Folds] (f : Stored) : f.entry.written = f.written :=
  padded_unpadded nameLength f.name

/-- The contents of a file lie in the sectors of its chain. -/
structure Keeps (d : Disk) (f : Stored) : Prop where
  chain : d.Chain f.start f.chain
  countable : ∀ q ∈ f.chain, (d.sector q).Countable
  contents : (f.chain.flatMap fun q => (d.sector q).contents) = f.body
  length : f.chain.length = blocksFor f.body.length

theorem Keeps.congr {f : Stored} (h : d.Keeps f) (hsame : ∀ q ∈ f.chain, d'.sector q = d.sector q) :
    d'.Keeps f where
  chain := h.chain.congr_sectors hsame
  countable q hq := by
    rw [hsame q hq]
    exact h.countable q hq
  contents := by
    rw [← h.contents]
    apply List.flatMap_congr
    intro q hq
    rw [hsame q hq]
  length := h.length

/-- The sectors that files take. -/
def takenBy (files : List Stored) : List Place := files.flatMap (·.chain)

/-- A disk holds some files, in a directory of some sectors. -/
structure Holds [Text.Folds] (d : Disk) (dir : List Place) (files : List Stored) : Prop where
  counts : d.table.Counts
  chain : d.Chain directoryStart dir
  track : ∀ p ∈ dir, p.InDirectory
  nodup : (tablePlace :: dir).Nodup
  /-- The directory is no longer than it has to be. -/
  short : slotsPerSector * (dir.length - 1) ≤ files.length
  filled : ∀ slot ∈ (slotsOf dir).take files.length, d.slotFree slot = false
  entries : ((slotsOf dir).take files.length).map d.slotEntry = files.map Stored.entry
  empty : ∀ slot ∈ (slotsOf dir).drop files.length, d.slotFree slot = true
  keeps : ∀ f ∈ files, d.Keeps f
  data : ∀ q ∈ takenBy files, q.ForData
  apart : (takenBy files).Nodup
  used : ∀ q : Place, q.OnDisk → (d.isFree q = false ↔ q ∈ tablePlace :: dir ∨ q ∈ takenBy files)
  names : (files.map Stored.written).Nodup

namespace Holds

variable {dir : List Place} {files : List Stored} {f : Stored}

theorem mem_takenBy (hf : f ∈ files) (hq : q ∈ f.chain) : q ∈ takenBy files :=
  List.mem_flatMap.2 ⟨f, hf, hq⟩

variable [Text.Folds]

theorem length_dir_le (h : d.Holds dir files) : dir.length ≤ 18 := by
  have hsubset : tablePlace :: dir ⊆ around directoryTrack 0 := by
    intro q hq
    rcases List.mem_cons.1 hq with rfl | hq
    · exact mem_around.2 ⟨rfl, tablePlace_onDisk⟩
    · exact mem_around.2 (h.track q hq)
  have hle := (List.Nodup.subperm h.nodup hsubset).length_le
  rw [List.length_cons, around, List.length_map, List.length_range] at hle
  exact Nat.le_of_succ_le_succ hle

theorem directory (h : d.Holds dir files) : d.directory = .ok dir := by
  refine h.chain.directoryFrom (fun q hq => (h.track q hq).1) ?_
  have hle := h.length_dir_le
  rw [show sectorsOn directoryTrack = 19 by decide]
  omega

/-- There is a slot for each file. -/
theorem length_le (h : d.Holds dir files) : files.length ≤ (slotsOf dir).length := by
  have hlength := congrArg List.length h.entries
  rw [List.length_map, List.length_map, List.length_take] at hlength
  omega

/-- The directory tells of the files in order. -/
theorem entries_eq (h : d.Holds dir files) :
    (dir.flatMap fun p => (d.sector p).entries) = files.map Stored.entry := by
  have hfilled : ((slotsOf dir).take files.length).filter (!d.slotFree ·) =
      (slotsOf dir).take files.length := by
    apply List.filter_eq_self.2
    intro slot hslot
    rw [h.filled slot hslot]
    rfl
  have hempty : ((slotsOf dir).drop files.length).filter (!d.slotFree ·) = [] := by
    apply List.filter_eq_nil_iff.2
    intro slot hslot
    rw [h.empty slot hslot]
    decide
  rw [Disk.entries_eq, ← List.take_append_drop files.length (slotsOf dir),
    List.filter_append, hfilled, hempty, List.append_nil, h.entries]

theorem files_eq (h : d.Holds dir files) : d.files = .ok (files.map Stored.entry) := by
  unfold Disk.files
  rw [h.directory, ← h.entries_eq]
  rfl

/-- The first free slot is the one behind those of the files. -/
theorem freeSlot? (h : d.Holds dir files) : d.freeSlot? dir = (slotsOf dir)[files.length]? := by
  rw [freeSlot?_eq, ← List.take_append_drop files.length (slotsOf dir), List.find?_append]
  have hnone : ((slotsOf dir).take files.length).find? d.slotFree = none := by
    apply List.find?_eq_none.2
    intro slot hslot
    rw [h.filled slot hslot]
    decide
  have hhead : ((slotsOf dir).drop files.length).find? d.slotFree =
      ((slotsOf dir).drop files.length).head? := by
    have hempty := h.empty
    cases hdrop : (slotsOf dir).drop files.length with
    | nil => rfl
    | cons slot rest =>
      rw [hdrop] at hempty
      rw [List.find?_cons_of_pos (hempty slot List.mem_cons_self), List.head?_cons]
  rw [hnone, hhead, Option.none_or, List.head?_drop, List.take_append_drop]

/-- A file is found by its name. -/
theorem named? (h : d.Holds dir files) (hf : f ∈ files) :
    named? f.name (files.map Stored.entry) = some f.entry := by
  have hfound : ∀ fs : List Stored, (fs.map Stored.written).Nodup → f ∈ fs →
      Disk.named? f.name (fs.map Stored.entry) = some f.entry := by
    intro fs
    induction fs with
    | nil => exact fun _ hmem => absurd hmem List.not_mem_nil
    | cons g fs ih =>
      intro hnodup hmem
      rw [List.map_cons, List.nodup_cons] at hnodup
      unfold Disk.named? at ih ⊢
      rw [List.map_cons]
      rcases List.mem_cons.1 hmem with rfl | hmem
      · rw [List.find?_cons_of_pos]
        rw [Stored.written_entry]
        exact beq_self_eq_true _
      · rw [List.find?_cons_of_neg]
        · exact ih hnodup.2 hmem
        · intro heq
          rw [Stored.written_entry, beq_iff_eq] at heq
          exact hnodup.1 (heq ▸ List.mem_map_of_mem hmem)
  exact hfound files h.names hf

theorem named?_eq_none_iff (files : List Stored) (name : Bytes) :
    Disk.named? name (files.map Stored.entry) = none ↔
      padded nameLength name ∉ files.map Stored.written := by
  unfold Disk.named?
  rw [List.find?_eq_none]
  constructor
  · intro hnone hmem
    obtain ⟨f, hf, heq⟩ := List.mem_map.1 hmem
    apply hnone f.entry (List.mem_map_of_mem hf)
    rw [Stored.written_entry, heq]
    exact beq_self_eq_true _
  · intro hnot e he hmatch
    obtain ⟨f, hf, rfl⟩ := List.mem_map.1 he
    rw [Stored.written_entry, beq_iff_eq] at hmatch
    exact hnot (hmatch ▸ List.mem_map_of_mem hf)

/-- The sectors that files take and those they may still take are all places for files. -/
theorem length_freePlaces (h : d.Holds dir files) :
    d.freePlaces.length + (takenBy files).length = 664 := by
  have htaken : (dataPlaces.filter fun q => !d.isFree q).Perm (takenBy files) := by
    refine (List.perm_ext_iff_of_nodup (nodup_dataPlaces.filter _) h.apart).2 ?_
    intro q
    rw [List.mem_filter, mem_dataPlaces, Bool.not_eq_true']
    constructor
    · rintro ⟨hdata, hused⟩
      rcases (h.used q hdata.1).1 hused with hdir | htaken
      · rcases List.mem_cons.1 hdir with rfl | hdir
        · exact absurd rfl hdata.ne_tablePlace
        · exact absurd rfl (hdata.ne_of_inDirectory (h.track q hdir))
      · exact htaken
    · intro htaken
      have hdata := h.data q htaken
      exact ⟨hdata, (h.used q hdata.1).2 (.inr htaken)⟩
  have hsplit := List.length_eq_length_filter_add (l := dataPlaces) d.isFree
  rw [length_dataPlaces, htaken.length_eq] at hsplit
  exact hsplit.symm

theorem length_takenBy (h : d.Holds dir files) :
    (takenBy files).length = (files.map fun f => blocksFor f.body.length).sum := by
  unfold takenBy
  rw [List.length_flatMap]
  congr 1
  apply List.map_congr_left
  intro f hf
  exact (h.keeps f hf).length

/-- The contents of a file are read back. -/
theorem read (h : d.Holds dir files) (hf : f ∈ files) : d.read f.name = .ok f.body := by
  have hkeeps := h.keeps f hf
  have hle : f.chain.length ≤ sectorCount := by
    have hnodup : f.chain.Nodup := (List.nodup_flatMap.1 h.apart).1 f hf
    have hpart := (hnodup.subperm fun q hq => mem_takenBy hf hq).length_le
    have hsum := h.length_freePlaces
    rw [sectorCount]
    omega
  unfold Disk.read
  rw [h.files_eq]
  simp only [bind, Except.bind]
  rw [h.named? hf]
  simp only
  rw [Stored.entry, hkeeps.chain.readBlocks hkeeps.countable hle, hkeeps.contents]

end Holds

/-! ## A slot for one more file -/

/-- A disk with a slot for one more file, made from another disk that holds the same files. -/
structure Prepared [Text.Folds] (d d' : Disk) (dir : List Place) (files : List Stored)
    (slot : Place × Nat) : Prop where
  holds : d'.Holds dir files
  next : (slotsOf dir)[files.length]? = some slot
  free : d'.freePlaces = d.freePlaces

/-- The disk whose directory goes on from its last sector in a fresh one. -/
def grown (d : Disk) (last fresh : Place) : Disk :=
  ((d.use fresh).change last (·.setLink fresh)).change fresh fun _ => Sector.blank.setLink ⟨0, 0xFF⟩

section Grown

variable {last fresh : Place}

theorem sector_grown_fresh (d : Disk) (last : Place) (hfresh : fresh.OnDisk) :
    (d.grown last fresh).sector fresh = Sector.blank.setLink ⟨0, 0xFF⟩ :=
  sector_change_self hfresh

theorem sector_grown_last (hlast : last.OnDisk) (hfresh : fresh.OnDisk) (hne : last ≠ fresh)
    (htable : last ≠ tablePlace) :
    (d.grown last fresh).sector last = (d.sector last).setLink fresh := by
  unfold grown
  rw [sector_change_of_ne hfresh hlast hne.symm, sector_change_self hlast,
    sector_use _ _ hlast htable]

theorem sector_grown_of_ne (hlast : last.OnDisk) (hfresh : fresh.OnDisk)
    (hq : q.OnDisk) (hql : q ≠ last)
    (hqf : q ≠ fresh) (htable : q ≠ tablePlace) : (d.grown last fresh).sector q = d.sector q := by
  unfold grown
  rw [sector_change_of_ne hfresh hq hqf.symm, sector_change_of_ne hlast hq hql.symm,
    sector_use _ _ hq htable]

theorem table_grown (hlast : last.OnDisk) (hfresh : fresh.OnDisk) (hlt : last ≠ tablePlace)
    (hft : fresh ≠ tablePlace) : (d.grown last fresh).table = (d.use fresh).table := by
  unfold grown
  rw [table_change hfresh hft, table_change hlast hlt]

theorem isFree_grown (hlast : last.OnDisk) (hfresh : fresh.OnDisk) (hlt : last ≠ tablePlace)
    (hft : fresh ≠ tablePlace) (hq : q.OnDisk) :
    (d.grown last fresh).isFree q = (d.isFree q && decide (q ≠ fresh)) := by
  rw [isFree, table_grown hlast hfresh hlt hft]
  exact isFree_use d hfresh hq

end Grown

namespace Holds

variable [Text.Folds] {dir : List Place} {files : List Stored} {slot : Place × Nat}

theorem ne_of_mem (h : d.Holds dir files) (hp : p ∈ dir) (hq : q.ForData) : q ≠ p :=
  hq.ne_of_inDirectory (h.track p hp)

theorem ne_tablePlace_of_mem (h : d.Holds dir files) (hp : p ∈ dir) : p ≠ tablePlace := by
  rintro rfl
  exact (List.nodup_cons.1 h.nodup).1 hp

theorem not_mem_of_isFree (h : d.Holds dir files) (hq : q.OnDisk) (hfree : d.isFree q = true) :
    q ∉ tablePlace :: dir ∧ q ∉ takenBy files := by
  have hnot : ¬ (q ∈ tablePlace :: dir ∨ q ∈ takenBy files) := by
    rw [← h.used q hq, hfree]
    decide
  exact not_or.1 hnot

/-- A directory whose slots are all taken goes on in a fresh sector. -/
theorem grown (h : d.Holds dir files) (hfull : files.length = (slotsOf dir).length) {fresh : Place}
    (hfresh : fresh.InDirectory) (hfree : d.isFree fresh = true) :
    Prepared d (d.grown (dir.getLast h.chain.ne_nil) fresh) (dir ++ [fresh]) files (fresh, 0) := by
  have hlastMem := List.getLast_mem h.chain.ne_nil
  generalize hlastEq : dir.getLast h.chain.ne_nil = last at hlastMem ⊢
  have hlast := (h.track last hlastMem).2
  have hlt := h.ne_tablePlace_of_mem hlastMem
  obtain ⟨hnotin, hnotTaken⟩ := h.not_mem_of_isFree hfresh.2 hfree
  obtain ⟨hft, hfd⟩ := not_or.1 (mt List.mem_cons.2 hnotin)
  have hlf : last ≠ fresh := fun heq => hfd (heq ▸ hlastMem)
  have hfreshSector := sector_grown_fresh d last hfresh.2
  have hlastSector := sector_grown_last (d := d) hlast hfresh.2 hlf hlt
  have hother : ∀ q : Place, q.OnDisk → q ≠ last → q ≠ fresh → q ≠ tablePlace →
      (d.grown last fresh).sector q = d.sector q :=
    fun q hq hql hqf hqt => sector_grown_of_ne hlast hfresh.2 hq hql hqf hqt
  have hisFree : ∀ q : Place, q.OnDisk →
      (d.grown last fresh).isFree q = (d.isFree q && decide (q ≠ fresh)) :=
    fun q hq => isFree_grown hlast hfresh.2 hlt hft hq
  -- the slots in use tell what they told before
  have hslots : slotsOf (dir ++ [fresh]) = slotsOf dir ++ slotsOf [fresh] := List.flatMap_append
  have htake : (slotsOf (dir ++ [fresh])).take files.length = slotsOf dir := by
    rw [hslots, hfull, List.take_left]
  have hdrop : (slotsOf (dir ++ [fresh])).drop files.length = slotsOf [fresh] := by
    rw [hslots, hfull, List.drop_left]
  have hold : (slotsOf dir).take files.length = slotsOf dir := by rw [hfull, List.take_length]
  have hsame : ∀ slot ∈ slotsOf dir, (d.grown last fresh).slotFree slot = d.slotFree slot ∧
      (d.grown last fresh).slotEntry slot = d.slotEntry slot := by
    intro slot hslot
    obtain ⟨hin, hlt8⟩ := mem_slotsOf.1 hslot
    apply slot_congr hlt8
    by_cases hsl : slot.1 = last
    · rw [hsl, hlastSector]
      exact Sector.sameSlot_setLink _ _ _
    · rw [hother slot.1 (h.track _ hin).2 hsl (fun heq => hfd (heq ▸ hin))
        (h.ne_tablePlace_of_mem hin)]
      exact fun _ _ _ => rfl
  refine ⟨?_, ?_, ?_⟩
  · refine
      { counts := ?_
        chain := ?_
        track := ?_
        nodup := ?_
        short := ?_
        filled := ?_
        entries := ?_
        empty := ?_
        keeps := ?_
        data := h.data
        apart := h.apart
        used := ?_
        names := h.names }
    · rw [table_grown hlast hfresh.2 hlt hft]
      exact counts_use h.counts hfresh.2
    · refine h.chain.extend (List.nodup_cons.1 h.nodup).2 hfresh.2 ?_ ?_ ?_
      · rw [hlastEq, hlastSector]
        exact Sector.link_setLink _ hfresh.2.track_lt_256 hfresh.2.sector_lt_256
      · rw [hfreshSector, Sector.byte_zero_setLink]
        rfl
      · intro q hq hql
        rw [hlastEq] at hql
        rw [hother q (h.track q hq).2 hql (fun heq => hfd (heq ▸ hq)) (h.ne_tablePlace_of_mem hq)]
    · intro q hq
      rcases List.mem_append.1 hq with hq | hq
      · exact h.track q hq
      · exact List.mem_singleton.1 hq ▸ hfresh
    · rw [← List.cons_append]
      refine List.nodup_append.2 ⟨h.nodup, List.nodup_singleton _, ?_⟩
      intro a ha b hb hab
      exact hnotin (List.mem_singleton.1 hb ▸ hab ▸ ha)
    · rw [List.length_append, List.length_singleton, Nat.add_sub_cancel, hfull, length_slotsOf]
    · intro slot hslot
      rw [htake] at hslot
      rw [(hsame slot hslot).1]
      exact h.filled slot (hold.symm ▸ hslot)
    · rw [htake, ← h.entries, hold]
      exact List.map_congr_left fun slot hslot => (hsame slot hslot).2
    · intro slot hslot
      rw [hdrop] at hslot
      have hin := List.mem_singleton.1 (mem_slotsOf.1 hslot).1
      rw [slotFree, hin, hfreshSector, Sector.slotFree, Sector.byte_setLink_of_le _ _ (by omega),
        Sector.byte_blank]
      rfl
    · intro f hf
      refine (h.keeps f hf).congr ?_
      intro q hq
      have hdata := h.data q (mem_takenBy hf hq)
      exact hother q hdata.1 (h.ne_of_mem hlastMem hdata) (hdata.ne_of_inDirectory hfresh)
        hdata.ne_tablePlace
    · intro q hq
      rw [hisFree q hq, ← List.cons_append, List.mem_append, List.mem_singleton]
      have hused := h.used q hq
      by_cases hqf : q = fresh
      · simp [hqf]
      · rw [decide_eq_true hqf, Bool.and_true, hused]
        simp [hqf]
  · rw [hslots, hfull, List.getElem?_append_right (Nat.le_refl _), Nat.sub_self]
    rfl
  · apply List.filter_congr
    intro q hq
    have hdata := mem_dataPlaces.1 hq
    rw [hisFree q hdata.1, decide_eq_true (hdata.ne_of_inDirectory hfresh), Bool.and_true]

/-- A full directory that cannot grow has all of its track. -/
theorem length_of_no_sector (h : d.Holds dir files) (hfull : files.length = (slotsOf dir).length)
    (hnone : ∀ q : Place, q.InDirectory → d.isFree q = false) : files.length = 144 := by
  have hsubset : around directoryTrack 0 ⊆ tablePlace :: dir := by
    intro q hq
    have hq : q.InDirectory := mem_around.1 hq
    rcases (h.used q hq.2).1 (hnone q hq) with hdir | htaken
    · exact hdir
    · exact absurd rfl ((h.data q htaken).ne_of_inDirectory hq)
  have hle := ((nodup_around _ _).subperm hsubset).length_le
  have hmost := h.length_dir_le
  rw [List.length_cons, around, List.length_map, List.length_range,
    show sectorsOn directoryTrack = 19 by decide] at hle
  rw [hfull, length_slotsOf, slotsPerSector]
  omega

/-- A slot is found for one more file unless there are 144 of them. -/
theorem takeSlot (h : d.Holds dir files) :
    d.takeSlot dir = none ∧ files.length = 144 ∨
      ∃ slot d' dir', d.takeSlot dir = some (slot, d') ∧ Prepared d d' dir' files slot := by
  unfold Disk.takeSlot
  rw [h.freeSlot?]
  cases hslot : (slotsOf dir)[files.length]? with
  | some slot => exact .inr ⟨slot, d, dir, rfl, h, hslot, rfl⟩
  | none =>
    have hfull : files.length = (slotsOf dir).length :=
      Nat.le_antisymm h.length_le (List.getElem?_eq_none_iff.1 hslot)
    have hlast : dir.getLastD directoryStart = dir.getLast h.chain.ne_nil := by
      rw [List.getLastD_eq_getLast?, List.getLast?_eq_some_getLast h.chain.ne_nil, Option.getD_some]
    simp only
    rw [growDirectory, takeDirectorySector, hlast]
    cases hfind : (around directoryTrack
        ((dir.getLast h.chain.ne_nil).sector + directoryStep)).find? d.isFree with
    | none =>
      left
      refine ⟨rfl, h.length_of_no_sector hfull ?_⟩
      intro q hq
      have := List.find?_eq_none.1 hfind q (mem_around.2 hq)
      simpa using this
    | some fresh =>
      right
      have hfresh : fresh.InDirectory := mem_around.1 (List.mem_of_find?_eq_some hfind)
      exact ⟨_, _, _, rfl, h.grown hfull hfresh (List.find?_some hfind)⟩

end Holds

end Breadbin.Disk
