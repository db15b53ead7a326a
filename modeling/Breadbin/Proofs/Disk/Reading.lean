import Breadbin.Proofs.Disk.Blocks
import Mathlib.Data.List.Perm.Subperm
import Mathlib.Logic.Function.Iterate

/-!
# Reading any disk

The bytes of an opened image are not trusted: links may leave the disk or go round for ever.
Reading succeeds exactly on chains, which end inside the disk; a chain visits no sector twice, so
the bounds on the number of sectors never cut one off, and they end every walk that goes round.
`files?`, `read?` and `readPrg?` read with every access checked; they never fail on a check and read
the same.
-/

namespace Breadbin.Disk

variable {d : Disk} {p q : Place} {ps : List Place} {name body : Bytes}

/-! ## Chains visit no sector twice -/

namespace Chain

/-- From each of its sectors on a chain is a chain. -/
theorem suffix (h : d.Chain p ps) (hq : q ∈ ps) : ∃ qs, qs <:+ ps ∧ d.Chain q qs := by
  induction h with
  | @last p hp hlast =>
    obtain rfl := List.mem_singleton.1 hq
    exact ⟨[q], List.suffix_refl _, .last hp hlast⟩
  | @next p ps hp hmore rest ih =>
    rcases List.mem_cons.1 hq with rfl | hq
    · exact ⟨q :: ps, List.suffix_refl _, .next hp hmore rest⟩
    · obtain ⟨qs, hsuffix, hchain⟩ := ih hq
      exact ⟨qs, hsuffix.trans (List.suffix_cons p ps), hchain⟩

theorem nodup (h : d.Chain p ps) : ps.Nodup := by
  induction h with
  | last => exact List.nodup_singleton _
  | @next p ps hp hmore rest ih =>
    refine List.nodup_cons.2 ⟨fun hmem => ?_, ih⟩
    -- a sector that came again would begin a chain that is shorter than itself
    obtain ⟨qs, hsuffix, hchain⟩ := rest.suffix hmem
    have hle := hsuffix.length_le
    rw [hchain.unique (.next hp hmore rest), List.length_cons] at hle
    omega

end Chain

/-- All sectors of a disk. -/
def places : List Place := (List.range (tracks + 1)).flatMap (around · 0)

theorem mem_places (hp : p.OnDisk) : p ∈ places := by
  refine List.mem_flatMap.2 ⟨p.track, List.mem_range.2 ?_, mem_around.2 ⟨rfl, hp⟩⟩
  exact Nat.lt_succ_of_le hp.track_range.2

theorem length_places : places.length = sectorCount := by
  simp only [places, List.length_flatMap, around, List.length_map, List.length_range]
  decide

theorem Chain.length_le (h : d.Chain p ps) : ps.length ≤ sectorCount := by
  rw [← length_places]
  exact (h.nodup.subperm fun q hq => mem_places (h.onDisk q hq)).length_le

theorem Chain.length_le_directory (h : d.Chain p ps) (hin : ∀ q ∈ ps, q.InDirectory) :
    ps.length ≤ sectorsOn directoryTrack := by
  have hsub : ps ⊆ around directoryTrack 0 := fun q hq => mem_around.2 (hin q hq)
  have hle := (h.nodup.subperm hsub).length_le
  rwa [around, List.length_map, List.length_range] at hle

/-! ## Reading succeeds exactly on chains -/

theorem chain_of_directoryFrom {n : Nat} (h : d.directoryFrom n p = .ok ps) :
    d.Chain p ps ∧ ∀ q ∈ ps, q.InDirectory := by
  induction n generalizing p ps with
  | zero => cases h
  | succ n ih =>
    rw [directoryFrom] at h
    by_cases hin : p.InDirectory
    swap
    · rw [if_neg hin] at h
      cases h
    rw [if_pos hin] at h
    simp only at h
    by_cases hlast : (d.sector p).byte 0 = 0
    · rw [if_pos hlast] at h
      cases h
      exact ⟨.last hin.2 hlast, by simpa using hin⟩
    · rw [if_neg hlast] at h
      cases hrest : d.directoryFrom n (d.sector p).link with
      | error e =>
        rw [hrest] at h
        cases h
      | ok rest =>
        rw [hrest] at h
        cases h
        obtain ⟨hchain, hall⟩ := ih hrest
        exact ⟨.next hin.2 hlast hchain, by simpa using ⟨hin, hall⟩⟩

/-- The directory is read exactly if it is a chain on its own track. -/
theorem directory_eq_ok_iff :
    d.directory = .ok ps ↔ d.Chain directoryStart ps ∧ ∀ q ∈ ps, q.InDirectory := by
  constructor
  · exact chain_of_directoryFrom
  · rintro ⟨hchain, hin⟩
    exact hchain.directoryFrom (fun q hq => (hin q hq).1) (hchain.length_le_directory hin)

theorem files_eq_ok_iff {entries : List Entry} :
    d.files = .ok entries ↔ ∃ dir, d.Chain directoryStart dir ∧ (∀ q ∈ dir, q.InDirectory) ∧
      entries = dir.flatMap fun q => (d.sector q).entries := by
  unfold files
  constructor
  · intro h
    cases hdir : d.directory with
    | error e =>
      rw [hdir] at h
      cases h
    | ok dir =>
      rw [hdir] at h
      cases h
      obtain ⟨hchain, hin⟩ := directory_eq_ok_iff.1 hdir
      exact ⟨dir, hchain, hin, rfl⟩
  · rintro ⟨dir, hchain, hin, rfl⟩
    rw [directory_eq_ok_iff.2 ⟨hchain, hin⟩]
    rfl

theorem chain_of_readBlocks {n : Nat} (h : d.readBlocks n p = .ok body) :
    ∃ ps, d.Chain p ps ∧ (∀ q ∈ ps, (d.sector q).Countable) ∧
      body = ps.flatMap fun q => (d.sector q).contents := by
  induction n generalizing p body with
  | zero => cases h
  | succ n ih =>
    rw [readBlocks] at h
    by_cases hp : p.OnDisk
    swap
    · rw [if_neg hp] at h
      cases h
    rw [if_pos hp] at h
    simp only at h
    by_cases hlast : (d.sector p).byte 0 = 0
    · rw [if_pos hlast] at h
      by_cases hempty : (d.sector p).byte 1 = 0
      · rw [if_pos hempty] at h
        cases h
      · rw [if_neg hempty] at h
        cases h
        refine ⟨[p], .last hp hlast, ?_, ?_⟩
        · intro q hq _
          exact List.mem_singleton.1 hq ▸ hempty
        · rw [List.flatMap_singleton, Sector.contents, if_pos hlast]
    · rw [if_neg hlast] at h
      cases hrest : d.readBlocks n (d.sector p).link with
      | error e =>
        rw [hrest] at h
        cases h
      | ok rest =>
        rw [hrest] at h
        cases h
        obtain ⟨ps, hchain, hcount, rfl⟩ := ih hrest
        refine ⟨p :: ps, .next hp hlast hchain, ?_, ?_⟩
        · intro q hq
          rcases List.mem_cons.1 hq with rfl | hq
          · exact fun hzero => absurd hzero hlast
          · exact hcount q hq
        · rw [List.flatMap_cons, Sector.contents, if_neg hlast]

/-- A file is read exactly if its blocks are a chain whose last block counts a byte. -/
theorem readBlocks_eq_ok_iff :
    d.readBlocks sectorCount p = .ok body ↔
      ∃ ps, d.Chain p ps ∧ (∀ q ∈ ps, (d.sector q).Countable) ∧
      body = ps.flatMap fun q => (d.sector q).contents := by
  constructor
  · exact chain_of_readBlocks
  · rintro ⟨ps, hchain, hcount, rfl⟩
    exact hchain.readBlocks hcount hchain.length_le

theorem read_eq_ok_iff [Text.Folds] :
    d.read name = .ok body ↔ ∃ entries e ps, d.files = .ok entries ∧ named? name entries = some e ∧
      d.Chain e.start ps ∧ (∀ q ∈ ps, (d.sector q).Countable) ∧
      body = ps.flatMap fun q => (d.sector q).contents := by
  unfold read
  cases hfiles : d.files with
  | error e =>
    simp only [bind, Except.bind, reduceCtorEq, false_and, exists_false]
  | ok entries =>
    simp only [bind, Except.bind]
    cases hnamed : named? name entries with
    | none => simp [hnamed]
    | some e =>
      simp only [readBlocks_eq_ok_iff]
      constructor
      · rintro ⟨ps, hps⟩
        exact ⟨entries, e, ps, rfl, hnamed, hps⟩
      · rintro ⟨_, e', ps, ⟨⟩, hnamed', hps⟩
        obtain rfl := Option.some.inj (hnamed.symm.trans hnamed')
        exact ⟨ps, hps⟩

/-! ## Walks that never end -/

/-- The place that so many links lead to. -/
def follow (d : Disk) (p : Place) (n : Nat) : Place := (fun q => (d.sector q).link)^[n] p

/-- All links from a place on lead to sectors of a kind, and none of these is a last one. -/
def Endless (d : Disk) (inside : Place → Prop) (p : Place) : Prop :=
  ∀ n, inside (d.follow p n) ∧ (d.sector (d.follow p n)).byte 0 ≠ 0

/-- The links from a place on lead through sectors of a kind, none of them a last one, to a place
they have led to before. -/
def Cyclic (d : Disk) (inside : Place → Prop) (p : Place) : Prop :=
  ∃ i j, i < j ∧ d.follow p i = d.follow p j ∧
    ∀ n < j, inside (d.follow p n) ∧ (d.sector (d.follow p n)).byte 0 ≠ 0

theorem follow_add (d : Disk) (p : Place) (m n : Nat) :
    d.follow p (m + n) = d.follow (d.follow p n) m :=
  Function.iterate_add_apply _ m n p

theorem Cyclic.endless {inside : Place → Prop} (h : d.Cyclic inside p) : d.Endless inside p := by
  obtain ⟨i, j, hlt, hsame, hall⟩ := h
  intro n
  induction n using Nat.strongRecOn with
  | ind n ih =>
    by_cases hn : n < j
    · exact hall n hn
    · -- what the links lead to behind `j` they led to behind `i`
      have hback : d.follow p n = d.follow p (n - (j - i)) := by
        rw [show n = n - j + j by omega, follow_add, ← hsame, ← follow_add]
        congr 1
        omega
      rw [hback]
      exact ih _ (by omega)

theorem Endless.next {inside : Place → Prop} (h : d.Endless inside p) :
    d.Endless inside (d.sector p).link :=
  fun n => h (n + 1)

theorem Endless.directoryFrom (h : d.Endless Place.InDirectory p) (n : Nat) :
    d.directoryFrom n p = .error .directoryLoops := by
  induction n generalizing p with
  | zero => rfl
  | succ n ih =>
    obtain ⟨hin, hmore⟩ := h 0
    have hin : p.InDirectory := hin
    have hmore : (d.sector p).byte 0 ≠ 0 := hmore
    rw [Disk.directoryFrom, if_pos hin]
    simp only
    rw [if_neg hmore, ih h.next]
    rfl

theorem Endless.readBlocks (h : d.Endless Place.OnDisk p) (n : Nat) :
    d.readBlocks n p = .error .blocksLoop := by
  induction n generalizing p with
  | zero => rfl
  | succ n ih =>
    obtain ⟨hp, hmore⟩ := h 0
    have hp : p.OnDisk := hp
    have hmore : (d.sector p).byte 0 ≠ 0 := hmore
    rw [Disk.readBlocks, if_pos hp]
    simp only
    rw [if_neg hmore, ih h.next]
    rfl

/-! ## Checked access -/

namespace Sector

/-- The byte at an offset, if there is one. -/
def byte? (s : Sector) (i : Nat) : Option UInt8 := s[i]?

/-- So many bytes from an offset on, if there are as many. -/
def slice? (s : Sector) (i n : Nat) : Option Bytes :=
  if i + n ≤ 256 then some (s.slice i n) else none

/-- The place that the first two bytes name. -/
def link? (s : Sector) : Option Place := do
  return ⟨(← s.byte? 0).toNat, (← s.byte? 1).toNat⟩

/-- What a slot tells, nothing if it is free. -/
def told? (s : Sector) (slot : Nat) : Option (List Entry) := do
  let o := slotOffset slot
  let type ← s.byte? (o + 2)
  if type = 0 then return []
  return [⟨unpadded (← s.slice? (o + 5) nameLength), type,
    ⟨(← s.byte? (o + 3)).toNat, (← s.byte? (o + 4)).toNat⟩,
    (← s.byte? (o + 30)).toUInt16 + (← s.byte? (o + 31)).toUInt16 * 256⟩]

/-- The files that slots of a directory sector tell of. -/
def entries? (s : Sector) : (slots : List Nat) → Option (List Entry)
  | [] => some []
  | slot :: rest => do return (← s.told? slot) ++ (← s.entries? rest)

end Sector

/-- The sector at a place, if the image reaches there. -/
def sector? (d : Disk) (p : Place) : Option Sector := d.sectors[p.position]?

/-- The files that a directory from a place on tells of. -/
def filesFrom? (d : Disk) : (n : Nat) → Place → Option (Except StorageError (List Entry))
  | 0, _ => some (.error .directoryLoops)
  | n + 1, p =>
    if p.InDirectory then do
      let s ← d.sector? p
      let entries ← s.entries? (List.range slotsPerSector)
      if (← s.byte? 0) = 0 then return .ok entries
      return (entries ++ ·) <$> (← d.filesFrom? n (← s.link?))
    else some (.error (.directoryLink p.track p.sector))

/-- The files of a disk, in order. -/
def files? (d : Disk) : Option (Except StorageError (List Entry)) :=
  d.filesFrom? (sectorsOn directoryTrack) directoryStart

/-- The bytes of a file from a block on. -/
def readBlocks? (d : Disk) : (n : Nat) → Place → Option (Except StorageError Bytes)
  | 0, _ => some (.error .blocksLoop)
  | n + 1, p =>
    if p.OnDisk then do
      let s ← d.sector? p
      if (← s.byte? 0) = 0 then
        let count ← s.byte? 1
        if count = 0 then return .error (.emptyLastBlock p.track p.sector)
        return .ok (← s.slice? 2 (count.toNat - 1))
      let block ← s.slice? 2 payload
      return (block ++ ·) <$> (← d.readBlocks? n (← s.link?))
    else some (.error (.blockLink p.track p.sector))

/-- The contents of the first file of a name. -/
def read? [Text.Folds] (d : Disk) (name : Bytes) : Option (Except StorageError Bytes) := do
  match ← d.files? with
  | .error e => return .error e
  | .ok entries =>
    match named? name entries with
    | some e => d.readBlocks? sectorCount e.start
    | none => return .error (.notFound name)

/-- The program file of a name. -/
def readPrg? [Text.Folds] (d : Disk) (name : Bytes) : Option (Except StorageError Prg) := do
  return (← d.read? name) >>= Prg.parse

namespace Sector

variable {s : Sector} {i n : Nat}

theorem byte?_eq (h : i < 256) : s.byte? i = some (s.byte i) := by
  unfold byte? byte
  rw [Vector.getElem?_eq_getElem h, Option.getD_some]

theorem slice?_eq (h : i + n ≤ 256) : s.slice? i n = some (s.slice i n) := if_pos h

theorem link?_eq (s : Sector) : s.link? = some s.link := by
  unfold link?
  rw [byte?_eq (by decide), byte?_eq (by decide)]
  rfl

theorem told?_eq {slot : Nat} (h : slot < slotsPerSector) :
    s.told? slot = some (if s.slotFree slot then [] else [s.entry slot]) := by
  have hfits : slotOffset slot + 32 ≤ 256 := by
    simp only [slotOffset, slotsPerSector] at *
    omega
  unfold told?
  simp only
  rw [byte?_eq (by omega), byte?_eq (by omega), byte?_eq (by omega), byte?_eq (by omega),
    byte?_eq (by omega), slice?_eq (by rw [nameLength]; omega)]
  simp only [Option.bind_eq_bind, Option.bind_some, slotFree, beq_iff_eq]
  split <;> rfl

theorem entries?_eq {slots : List Nat} (h : ∀ slot ∈ slots, slot < slotsPerSector) :
    s.entries? slots = some ((slots.filter (!s.slotFree ·)).map s.entry) := by
  induction slots with
  | nil => rfl
  | cons slot rest ih =>
    rw [entries?, told?_eq (h slot List.mem_cons_self), ih fun slot hslot =>
      h slot (List.mem_cons_of_mem _ hslot)]
    cases hfree : s.slotFree slot <;> simp [hfree]

end Sector

theorem sector?_eq (hp : p.OnDisk) : d.sector? p = some (d.sector p) := by
  have hin : p.position < 683 := hp.position_lt
  unfold sector? sector
  rw [Vector.getElem?_eq_getElem hin, Option.getD_some]

theorem filesFrom?_eq (d : Disk) (n : Nat) (p : Place) :
    d.filesFrom? n p =
      some ((·.flatMap fun q => (d.sector q).entries) <$> d.directoryFrom n p) := by
  induction n generalizing p with
  | zero => rfl
  | succ n ih =>
    rw [filesFrom?, directoryFrom]
    by_cases hin : p.InDirectory
    swap
    · rw [if_neg hin, if_neg hin]
      rfl
    rw [if_pos hin, if_pos hin, sector?_eq hin.2]
    simp only [Option.bind_eq_bind, Option.bind_some]
    rw [Sector.entries?_eq fun slot hslot => List.mem_range.1 hslot,
      Sector.byte?_eq (by decide), Sector.link?_eq]
    simp only [Option.bind_some]
    by_cases hlast : (d.sector p).byte 0 = 0
    · rw [if_pos hlast, if_pos hlast]
      simp [Functor.map, Except.map, Sector.entries]
    · rw [if_neg hlast, if_neg hlast, ih]
      cases d.directoryFrom n (d.sector p).link <;> simp [Functor.map, Except.map, Sector.entries]

theorem files?_eq (d : Disk) : d.files? = some d.files := d.filesFrom?_eq _ _

theorem readBlocks?_eq (d : Disk) (n : Nat) (p : Place) :
    d.readBlocks? n p = some (d.readBlocks n p) := by
  induction n generalizing p with
  | zero => rfl
  | succ n ih =>
    rw [readBlocks?, readBlocks]
    by_cases hp : p.OnDisk
    swap
    · rw [if_neg hp, if_neg hp]
    have hcount := ((d.sector p).byte 1).toNat_lt
    rw [if_pos hp, if_pos hp, sector?_eq hp]
    simp only [Option.bind_eq_bind, Option.bind_some]
    rw [Sector.byte?_eq (by decide), Sector.byte?_eq (by decide), Sector.link?_eq,
      Sector.slice?_eq (by decide)]
    simp only [Option.bind_some]
    by_cases hlast : (d.sector p).byte 0 = 0
    · rw [if_pos hlast, if_pos hlast]
      by_cases hempty : (d.sector p).byte 1 = 0
      · rw [if_pos hempty, if_pos hempty]
        rfl
      · rw [if_neg hempty, if_neg hempty, Sector.slice?_eq (by omega)]
        rfl
    · rw [if_neg hlast, if_neg hlast, ih]
      rfl

theorem read?_eq [Text.Folds] (d : Disk) (name : Bytes) : d.read? name = some (d.read name) := by
  unfold read? read
  rw [files?_eq]
  cases d.files with
  | error e => rfl
  | ok entries =>
    simp only [Option.bind_some, bind, Except.bind]
    cases named? name entries with
    | none => rfl
    | some e => exact d.readBlocks?_eq _ _

theorem readPrg?_eq [Text.Folds] (d : Disk) (name : Bytes) :
    d.readPrg? name = some (d.readPrg name) := by
  unfold readPrg? readPrg
  rw [read?_eq]
  rfl

/-- **Reading is safe and exact.**  On any disk no access leaves the image or a sector.  The
directory is read exactly if it is a chain on its own track; a file is read exactly if the directory
is, the first entry of its name begins a chain, and the last block of that counts at least one byte,
and then what is read is what the blocks hold.  Links that go round are found out. -/
theorem reading_exact [Text.Folds] (d : Disk) (name : Bytes) :
    (d.files? = some d.files ∧ d.read? name = some (d.read name) ∧
      d.readPrg? name = some (d.readPrg name)) ∧
    (∀ entries, d.files = .ok entries ↔ ∃ dir, d.Chain directoryStart dir ∧
      (∀ q ∈ dir, q.InDirectory) ∧ entries = dir.flatMap fun q => (d.sector q).entries) ∧
    (∀ body, d.read name = .ok body ↔ ∃ entries e ps, d.files = .ok entries ∧
      named? name entries = some e ∧ d.Chain e.start ps ∧ (∀ q ∈ ps, (d.sector q).Countable) ∧
      body = ps.flatMap fun q => (d.sector q).contents) ∧
    (d.Cyclic Place.InDirectory directoryStart → d.files = .error .directoryLoops) ∧
    ∀ entries e, d.files = .ok entries → named? name entries = some e →
      d.Cyclic Place.OnDisk e.start →
      d.read name = .error .blocksLoop := by
  refine ⟨⟨d.files?_eq, d.read?_eq name, d.readPrg?_eq name⟩, fun _ => files_eq_ok_iff, fun _ =>
    read_eq_ok_iff, ?_, ?_⟩
  · intro hcyclic
    unfold files directory
    rw [hcyclic.endless.directoryFrom]
    rfl
  · intro entries e hfiles hnamed hcyclic
    unfold read
    rw [hfiles]
    simp only [bind, Except.bind]
    rw [hnamed]
    exact hcyclic.endless.readBlocks sectorCount

end Breadbin.Disk
