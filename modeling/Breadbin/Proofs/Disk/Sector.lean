import Mathlib.Data.List.Basic
import Mathlib.Data.List.Nodup
import Mathlib.Data.Nat.ModEq
import Breadbin.Disk.Directory
import Breadbin.Disk.FreeTable

/-!
# The bytes of a sector

A sector is known by its 256 bytes: a byte that is stored is read back, and the others stay.  What a
slot of a directory sector tells depends on 30 bytes, from the third byte of the slot on.
-/

namespace Breadbin.Disk.Sector

variable {s s' : Sector} {i j n : Nat}

theorem byte_put (s : Sector) (v : UInt8) (hj : j < 256) :
    (s.put i v).byte j = if i = j then v else s.byte j := by
  unfold byte put
  rw [Vector.getElem?_setIfInBounds]
  by_cases hij : i = j
  · subst hij
    simp [hj]
  · simp [hij]

theorem byte_put_self (s : Sector) (v : UInt8) (hj : j < 256) : (s.put j v).byte j = v := by
  rw [byte_put s v hj, if_pos rfl]

theorem byte_put_of_ne (s : Sector) (v : UInt8) (hij : i ≠ j) : (s.put i v).byte j = s.byte j := by
  unfold byte put
  rw [Vector.getElem?_setIfInBounds, if_neg hij]

@[simp]
theorem byte_blank (j : Nat) : blank.byte j = 0 := by
  unfold byte blank
  rw [Vector.getElem?_replicate]
  split <;> rfl

/-- Bytes outside of what is stored stay. -/
theorem byte_putAll_outside (s : Sector) (bs : Bytes) (h : j < i ∨ i + bs.length ≤ j) :
    (s.putAll i bs).byte j = s.byte j := by
  induction bs generalizing s i with
  | nil => rfl
  | cons b bs ih =>
    rw [List.length_cons] at h
    rw [putAll, ih _ (by omega), byte_put_of_ne s b (by omega)]

/-- What is stored is read back. -/
theorem byte_putAll_inside (s : Sector) (bs : Bytes) {k : Nat} (hk : k < bs.length)
    (hfits : i + bs.length ≤ 256) : (s.putAll i bs).byte (i + k) = bs[k] := by
  induction bs generalizing s i k with
  | nil => exact absurd hk (Nat.not_lt_zero k)
  | cons b bs ih =>
    rw [List.length_cons] at hk hfits
    rw [putAll]
    cases k with
    | zero =>
      rw [byte_putAll_outside _ bs (by omega)]
      exact byte_put_self s b (by omega)
    | succ k =>
      have hshift : i + (k + 1) = i + 1 + k := by omega
      rw [hshift, List.getElem_cons_succ]
      exact ih _ (by omega) (by omega)

theorem length_slice (s : Sector) (h : i + n ≤ 256) : (s.slice i n).length = n := by
  simp only [slice, List.length_take, List.length_drop, Vector.length_toList]
  omega

theorem getElem_slice (s : Sector) (h : i + n ≤ 256) {k : Nat} (hk : k < (s.slice i n).length) :
    (s.slice i n)[k] = s.byte (i + k) := by
  have hkn : k < n := by rwa [length_slice s h] at hk
  have hin : i + k < 256 := by omega
  simp [slice, byte, List.getElem_take, List.getElem_drop, hin]

/-- A slice depends on its own bytes only. -/
theorem slice_congr (h : i + n ≤ 256) (hbytes : ∀ k < n, s.byte (i + k) = s'.byte (i + k)) :
    s.slice i n = s'.slice i n := by
  apply List.ext_getElem
  · rw [length_slice s h, length_slice s' h]
  · intro k hk hk'
    rw [getElem_slice s h hk, getElem_slice s' h hk']
    exact hbytes k (by rwa [length_slice s h] at hk)

theorem slice_putAll (s : Sector) (bs : Bytes) (h : i + bs.length ≤ 256) :
    (s.putAll i bs).slice i bs.length = bs := by
  apply List.ext_getElem
  · rw [length_slice _ h]
  · intro k hk hk'
    rw [getElem_slice _ h hk, byte_putAll_inside s bs hk' h]

/-! ## Links -/

theorem link_eq (s : Sector) : s.link = ⟨(s.byte 0).toNat, (s.byte 1).toNat⟩ := rfl

@[simp]
theorem byte_zero_setLink (s : Sector) (p : Place) : (s.setLink p).byte 0 = .ofNat p.track := by
  rw [setLink, byte_put_of_ne _ _ (by decide), byte_put_self s _ (by decide)]

@[simp]
theorem byte_one_setLink (s : Sector) (p : Place) : (s.setLink p).byte 1 = .ofNat p.sector := by
  rw [setLink, byte_put_self _ _ (by decide)]

theorem byte_setLink_of_le (s : Sector) (p : Place) (h : 2 ≤ j) :
    (s.setLink p).byte j = s.byte j := by
  rw [setLink, byte_put_of_ne _ _ (by omega), byte_put_of_ne _ _ (by omega)]

theorem link_setLink (s : Sector) {p : Place} (ht : p.track < 256) (hs : p.sector < 256) :
    (s.setLink p).link = p := by
  rw [link_eq, byte_zero_setLink, byte_one_setLink, UInt8.toNat_ofNat', UInt8.toNat_ofNat',
    Nat.mod_eq_of_lt ht, Nat.mod_eq_of_lt hs]

theorem slice_setLink (s : Sector) (p : Place) (hi : 2 ≤ i) (h : i + n ≤ 256) :
    (s.setLink p).slice i n = s.slice i n :=
  slice_congr h fun _ _ => byte_setLink_of_le s p (by omega)

/-! ## Slots -/

/-- Two directory sectors tell the same in a slot. -/
def SameSlot (s s' : Sector) (slot : Nat) : Prop :=
  ∀ k, 2 ≤ k → k < 32 → s.byte (slotOffset slot + k) = s'.byte (slotOffset slot + k)

variable {slot : Nat}

theorem SameSlot.slotFree (h : SameSlot s s' slot) : s.slotFree slot = s'.slotFree slot := by
  unfold Sector.slotFree
  rw [h 2 (by decide) (by decide)]

theorem SameSlot.entry (h : SameSlot s s' slot) (hslot : slot < slotsPerSector) :
    s.entry slot = s'.entry slot := by
  have hname : s.slice (slotOffset slot + 5) nameLength =
      s'.slice (slotOffset slot + 5) nameLength := by
    apply slice_congr
    · simp only [slotsPerSector, slotOffset, nameLength] at hslot ⊢
      omega
    · intro k hk
      rw [Nat.add_assoc]
      exact h (5 + k) (by omega) (by simp only [nameLength] at hk; omega)
  unfold Sector.entry
  simp only
  rw [hname, h 2 (by decide) (by decide), h 3 (by decide) (by decide), h 4 (by decide) (by decide),
    h 30 (by decide) (by decide), h 31 (by decide) (by decide)]

theorem sameSlot_setLink (s : Sector) (p : Place) (slot : Nat) : SameSlot (s.setLink p) s slot := by
  intro k hk _
  exact byte_setLink_of_le s p (by omega)

variable {type : UInt8} {start : Place} {name : Bytes} {blocks : Nat}

/-- Filling a slot changes only the bytes of the slot. -/
theorem byte_setEntry_outside (s : Sector) (hname : name.length = nameLength)
    (h : j < slotOffset slot + 2 ∨ slotOffset slot + 32 ≤ j) :
    (s.setEntry slot type start name blocks).byte j = s.byte j := by
  unfold setEntry
  simp only
  rw [byte_putAll_outside, byte_putAll_outside]
  all_goals
    simp only [nameLength, List.length_append, List.length_cons, List.length_nil] at *
    omega

theorem sameSlot_setEntry_of_ne (s : Sector) (hname : name.length = nameLength) {other : Nat}
    (h : other ≠ slot) : SameSlot (s.setEntry slot type start name blocks) s other := by
  intro k hk hk'
  apply byte_setEntry_outside s hname
  simp only [slotOffset]
  omega

theorem link_setEntry (s : Sector) (hname : name.length = nameLength) :
    (s.setEntry slot type start name blocks).link = s.link := by
  rw [link_eq, link_eq, byte_setEntry_outside s hname (by omega),
    byte_setEntry_outside s hname (by omega)]

/-- The bytes of a filled slot in front of the count of blocks. -/
theorem byte_setEntry_front (s : Sector) (hname : name.length = nameLength)
    (hslot : slot < slotsPerSector)
    {k : Nat} (hk : k < ([type, .ofNat start.track, .ofNat start.sector] ++ name).length) :
    (s.setEntry slot type start name blocks).byte (slotOffset slot + 2 + k) =
      ([type, .ofNat start.track, .ofNat start.sector] ++ name)[k] := by
  have hfront : k < 19 := by simpa [hname, nameLength, Nat.add_comm] using hk
  unfold setEntry
  simp only
  rw [byte_putAll_outside _ _ (by omega)]
  apply byte_putAll_inside
  simp only [List.length_append, List.length_cons, List.length_nil, hname, nameLength, slotOffset,
    slotsPerSector] at *
  omega

theorem byte_setEntry_blocks (s : Sector) (hslot : slot < slotsPerSector) {k : Nat} (hk : k < 2) :
    (s.setEntry slot type start name blocks).byte (slotOffset slot + 30 + k) =
      [.ofNat blocks, .ofNat (blocks / 256)][k] := by
  unfold setEntry
  simp only
  apply byte_putAll_inside
  simp only [List.length_cons, List.length_nil, slotOffset, slotsPerSector] at *
  omega

theorem slotFree_setEntry (s : Sector) (hname : name.length = nameLength)
    (hslot : slot < slotsPerSector)
    (htype : type ≠ 0) : (s.setEntry slot type start name blocks).slotFree slot = false := by
  unfold slotFree
  rw [show slotOffset slot + 2 = slotOffset slot + 2 + 0 from rfl,
    byte_setEntry_front s hname hslot (by simp)]
  simpa using htype

/-- A slot tells what it was filled with. -/
theorem entry_setEntry (s : Sector) (hname : name.length = nameLength)
    (hslot : slot < slotsPerSector) (ht : start.track < 256) (hs : start.sector < 256) :
    (s.setEntry slot type start name blocks).entry slot =
      ⟨unpadded name, type, start, .ofNat blocks⟩ := by
  have hfits : slotOffset slot + 5 + nameLength ≤ 256 := by
    simp only [slotOffset, slotsPerSector, nameLength] at *
    omega
  have hnamed : (s.setEntry slot type start name blocks).slice (slotOffset slot + 5) nameLength =
      name := by
    apply List.ext_getElem
    · rw [length_slice _ hfits, hname]
    · intro k hk hk'
      rw [getElem_slice _ hfits hk,
        show slotOffset slot + 5 + k = slotOffset slot + 2 + (3 + k) by
          omega, byte_setEntry_front s hname hslot (by simp; omega)]
      simp [Nat.add_comm 3 k]
  have hfront : ∀ k (hk : k < 3),
      (s.setEntry slot type start name blocks).byte (slotOffset slot + 2 + k) =
      [type, .ofNat start.track, .ofNat start.sector][k] := by
    intro k hk
    rw [byte_setEntry_front s hname hslot (by simp; omega), List.getElem_append_left]
  have hcount : (UInt8.ofNat blocks).toUInt16 + (UInt8.ofNat (blocks / 256)).toUInt16 * 256 =
      .ofNat blocks := by
    apply UInt16.toNat_inj.1
    simp only [UInt16.toNat_add, UInt16.toNat_mul, UInt8.toNat_toUInt16, UInt8.toNat_ofNat',
      UInt16.toNat_ofNat', UInt16.reduceToNat]
    omega
  unfold entry
  simp only
  rw [hnamed, hfront 0 (by decide), hfront 1 (by decide), hfront 2 (by decide),
    byte_setEntry_blocks s hslot (show 0 < 2 by decide),
    byte_setEntry_blocks s hslot (show 1 < 2 by decide)]
  simp only [List.getElem_cons_zero, List.getElem_cons_succ, hcount, UInt8.toNat_ofNat',
    Nat.mod_eq_of_lt ht, Nat.mod_eq_of_lt hs]

end Breadbin.Disk.Sector

/-!
## Sectors and where they lie

Different places of a disk have different positions in its image, so a change of one sector leaves
the others alone.  The places for files are all sectors outside of the directory track.
-/

namespace Breadbin.Disk

namespace Place

variable {p q : Place}

/-- The number of sectors that an image holds before a track. -/
def base (track : Nat) : Nat := (List.range track).foldl (fun n t => n + sectorsOn t) 0

theorem position_eq (p : Place) : p.position = base p.track + p.sector := rfl

theorem base_succ (track : Nat) : base (track + 1) = base track + sectorsOn track := by
  simp [base, List.range_succ]

theorem base_mono {t u : Nat} (h : t ≤ u) : base t ≤ base u := by
  induction h with
  | refl => exact Nat.le_refl _
  | step _ ih => exact Nat.le_trans ih (base_succ _ ▸ Nat.le_add_right _ _)

theorem OnDisk.track_range (h : p.OnDisk) : 1 ≤ p.track ∧ p.track ≤ tracks := by
  unfold OnDisk sectorsOn at h
  split at h
  next => exact absurd h (Nat.not_lt_zero _)
  next hrange => omega

theorem sectorsOn_le (track : Nat) : sectorsOn track ≤ 21 := by
  unfold sectorsOn
  repeat' split
  all_goals decide

theorem OnDisk.sector_lt (h : p.OnDisk) : p.sector < 21 := Nat.lt_of_lt_of_le h (sectorsOn_le _)

theorem OnDisk.track_lt_256 (h : p.OnDisk) : p.track < 256 :=
  Nat.lt_of_le_of_lt h.track_range.2 (by decide)

theorem OnDisk.sector_lt_256 (h : p.OnDisk) : p.sector < 256 := Nat.lt_trans h.sector_lt (by decide)

/-- Every place of the disk has a sector in the image. -/
theorem OnDisk.position_lt (h : p.OnDisk) : p.position < sectorCount := by
  have hnext : base (p.track + 1) ≤ base (tracks + 1) :=
    base_mono (Nat.succ_le_succ h.track_range.2)
  rw [base_succ, show base (tracks + 1) = sectorCount by decide] at hnext
  rw [position_eq]
  exact Nat.lt_of_lt_of_le (Nat.add_lt_add_left h _) hnext

/-- A place lies before all of those on later tracks. -/
theorem OnDisk.position_lt_of_track_lt (h : p.OnDisk) (ht : p.track < q.track) :
    p.position < q.position := by
  calc p.position < base (p.track + 1) := by
        rw [base_succ, position_eq]
        exact Nat.add_lt_add_left h _
    _ ≤ base q.track := base_mono ht
    _ ≤ q.position := Nat.le_add_right _ _

theorem eq_of_position_eq (hp : p.OnDisk) (hq : q.OnDisk)
    (h : p.position = q.position) : p = q := by
  rcases Nat.lt_trichotomy p.track q.track with ht | ht | ht
  · exact absurd h (Nat.ne_of_lt (hp.position_lt_of_track_lt ht))
  · cases p
    cases q
    simp only [position_eq] at ht h
    subst ht
    simpa using h
  · exact absurd h.symm (Nat.ne_of_lt (hq.position_lt_of_track_lt ht))

end Place

theorem tablePlace_onDisk : tablePlace.OnDisk := by decide

theorem directoryStart_onDisk : directoryStart.OnDisk := by decide

/-! ## Changing one sector -/

variable {d : Disk} {p q : Place} {f : Sector → Sector}

theorem sector_change_self (hp : p.OnDisk) : (d.change p f).sector p = f (d.sector p) := by
  have hin : p.position < 683 := hp.position_lt
  rw [sector, change]
  simp only [Vector.getElem?_setIfInBounds, if_pos hin, if_true, Option.getD_some]

theorem sector_change_of_ne (hp : p.OnDisk) (hq : q.OnDisk) (h : p ≠ q) :
    (d.change p f).sector q = d.sector q := by
  have hne : p.position ≠ q.position := fun heq => h (Place.eq_of_position_eq hp hq heq)
  rw [sector, change]
  simp only [Vector.getElem?_setIfInBounds, if_neg hne]
  rfl

theorem sector_blank (p : Place) : blank.sector p = Sector.blank := by
  unfold sector blank
  rw [Vector.getElem?_replicate]
  split <;> rfl

/-! ## The places for files -/

/-- The places that files may take, in the order in which they are filled. -/
def dataPlaces : List Place := dataTracks.flatMap (around · 0)

/-- The place is a sector of the disk outside of the directory track. -/
def Place.ForData (p : Place) : Prop := p.OnDisk ∧ p.track ≠ directoryTrack

theorem Place.ForData.ne_of_inDirectory (hp : p.ForData) (hq : q.InDirectory) : p ≠ q := by
  intro h
  exact hp.2 (h ▸ hq.1)

theorem mem_around {track start : Nat} : p ∈ around track start ↔ p.track = track ∧ p.OnDisk := by
  unfold around Place.OnDisk
  constructor
  · intro h
    obtain ⟨k, hk, rfl⟩ := List.mem_map.1 h
    have hpos : 0 < sectorsOn track := Nat.zero_lt_of_lt (List.mem_range.1 hk)
    exact ⟨rfl, Nat.mod_lt _ hpos⟩
  · rintro ⟨rfl, hp⟩
    -- the step from the start that leads round to the sector
    have hpos : 0 < sectorsOn p.track := Nat.zero_lt_of_lt hp
    refine List.mem_map.2
      ⟨(p.sector + (sectorsOn p.track - start % sectorsOn p.track)) % sectorsOn p.track,
      List.mem_range.2 (Nat.mod_lt _ hpos), ?_⟩
    have hle : start % sectorsOn p.track ≤ sectorsOn p.track := Nat.le_of_lt (Nat.mod_lt _ hpos)
    have hround : (start + (p.sector + (sectorsOn p.track - start % sectorsOn p.track)) %
        sectorsOn p.track)
        % sectorsOn p.track = p.sector := by
      rw [Nat.add_mod_mod, ← Nat.mod_add_mod]
      rw [show start % sectorsOn p.track +
        (p.sector + (sectorsOn p.track - start % sectorsOn p.track)) =
        p.sector + sectorsOn p.track by omega, Nat.add_mod_right, Nat.mod_eq_of_lt hp]
    rw [hround]

theorem mem_dataTracks {t : Nat} : t ∈ dataTracks ↔ 1 ≤ t ∧ t ≤ tracks ∧ t ≠ directoryTrack := by
  simp only [dataTracks, List.mem_append, List.mem_map, List.mem_range, tracks, directoryTrack]
  constructor
  · rintro (⟨k, hk, rfl⟩ | ⟨k, hk, rfl⟩) <;> omega
  · rintro ⟨hlow, hhigh, hne⟩
    by_cases ht : t < 18
    · exact .inl ⟨17 - t, by omega, by omega⟩
    · exact .inr ⟨t - 19, by omega, by omega⟩

theorem nodup_dataTracks : dataTracks.Nodup := by decide

theorem mem_dataPlaces : p ∈ dataPlaces ↔ p.ForData := by
  simp only [dataPlaces, List.mem_flatMap, mem_around, mem_dataTracks, Place.ForData]
  constructor
  · rintro ⟨t, ⟨-, -, hne⟩, rfl, hp⟩
    exact ⟨hp, hne⟩
  · rintro ⟨hp, hne⟩
    exact ⟨p.track, ⟨hp.track_range.1, hp.track_range.2, hne⟩, rfl, hp⟩

theorem nodup_around (track start : Nat) : (around track start).Nodup := by
  unfold around
  refine List.Nodup.map_on ?_ List.nodup_range
  intro x hx y hy hxy
  have hx := List.mem_range.1 hx
  have hy := List.mem_range.1 hy
  have hmod : x ≡ y [MOD sectorsOn track] :=
    Nat.ModEq.add_left_cancel' start (congrArg Place.sector hxy)
  exact hmod.eq_of_lt_of_lt hx hy

theorem nodup_dataPlaces : dataPlaces.Nodup := by
  refine List.nodup_flatMap.2 ⟨fun t _ => nodup_around t 0, ?_⟩
  refine nodup_dataTracks.imp ?_
  intro t u htu p ht hu
  exact htu ((mem_around.1 ht).1.symm.trans (mem_around.1 hu).1)

theorem length_dataPlaces : dataPlaces.length = 664 := by
  simp only [dataPlaces, List.length_flatMap, around, List.length_map, List.length_range]
  decide

end Breadbin.Disk
