import Breadbin.Proofs.Disk.Sector
import Mathlib.Tactic.IntervalCases
import Mathlib.Data.List.Count
import Mathlib.Data.List.Range

/-!
# The table of free sectors

The count of a track is the number of its bits that are set, and only bits of sectors that there are
get set.  Taking a sector clears its bit and leaves every other bit as it is, so the counts of all
tracks outside of the directory's add up to the number of places that files may still take.
-/

namespace Breadbin.Disk

/-- The table has a bit for the place, whether there is such a sector or not. -/
structure Place.HasBit (p : Place) : Prop where
  low : 1 ≤ p.track
  high : p.track ≤ tracks
  sector : p.sector < 24

theorem Place.OnDisk.hasBit {p : Place} (h : p.OnDisk) : p.HasBit :=
  ⟨h.track_range.1, h.track_range.2, Nat.lt_trans h.sector_lt (by decide)⟩

theorem bitOffset_ne_countOffset {p : Place} (hp : p.sector < 24) (t : Nat) :
    bitOffset p ≠ countOffset t := by
  simp only [bitOffset, countOffset]
  omega

theorem eq_of_bitOffset_eq {p q : Place} (hp : p.sector < 24) (hq : q.sector < 24)
    (hoffset : bitOffset p = bitOffset q) (hbit : p.sector % 8 = q.sector % 8) : p = q := by
  cases p
  cases q
  simp only [bitOffset, countOffset, Place.mk.injEq] at *
  omega

theorem toBitVec_bitMask (s : Nat) : (bitMask s).toBitVec = BitVec.twoPow 8 (s % 8) := by
  have hlt : s % 8 < 8 := Nat.mod_lt s (by decide)
  unfold bitMask
  interval_cases s % 8 <;> rfl

namespace Sector

variable {table table' : Sector} {p q : Place} {track : Nat}

theorem isFree_eq (table : Sector) (p : Place) :
    table.isFree p = (table.byte (bitOffset p)).toBitVec.getLsbD (p.sector % 8) := by
  have hlt : p.sector % 8 < 8 := Nat.mod_lt _ (by decide)
  have hmask : BitVec.twoPow 8 (p.sector % 8) ≠ 0#8 := by
    intro hzero
    have hbit := congrArg (fun b => BitVec.getLsbD b (p.sector % 8)) hzero
    simp [hlt] at hbit
  have hzero : (0 : UInt8).toBitVec = 0#8 := rfl
  unfold isFree
  rw [Bool.eq_iff_iff, bne_iff_ne, ne_eq, ← UInt8.toBitVec_inj,
    UInt8.toBitVec_and, toBitVec_bitMask, BitVec.and_twoPow, hzero]
  cases (table.byte (bitOffset p)).toBitVec.getLsbD (p.sector % 8) <;> simp [hmask]

/-- Two sectors hold the same table. -/
def SameTable (s s' : Sector) : Prop := ∀ j, 4 ≤ j → j < 144 → s.byte j = s'.byte j

theorem SameTable.isFree (h : SameTable table table') (hp : p.HasBit) :
    table.isFree p = table'.isFree p := by
  have hlow := hp.low
  have hhigh := hp.high
  have hsector := hp.sector
  unfold Sector.isFree
  rw [h (bitOffset p)]
  all_goals
    simp only [bitOffset, countOffset, tracks] at *
    omega

theorem SameTable.count (h : SameTable table table') (hlow : 1 ≤ track) (hhigh : track ≤ tracks) :
    table.byte (countOffset track) = table'.byte (countOffset track) := by
  apply h
  all_goals
    simp only [countOffset, tracks] at *
    omega

/-! ## Single bits -/

theorem isFree_put_count (table : Sector) (v : UInt8) (hq : q.HasBit) :
    (table.put (countOffset track) v).isFree q = table.isFree q := by
  unfold isFree
  rw [byte_put_of_ne _ _ (bitOffset_ne_countOffset hq.sector track).symm]

/-- A byte of bits in which one bit is changed. -/
theorem isFree_put_bits (table : Sector) {v : UInt8} {b : Bool} (hp : p.HasBit) (hq : q.HasBit)
    (hsame : v.toBitVec.getLsbD (p.sector % 8) = b)
    (hother : ∀ k < 8, k ≠ p.sector % 8 →
      v.toBitVec.getLsbD k = (table.byte (bitOffset p)).toBitVec.getLsbD k) :
    (table.put (bitOffset p) v).isFree q = if q = p then b else table.isFree q := by
  have hin : bitOffset p < 256 := by
    have := hp.high
    have := hp.sector
    simp only [bitOffset, countOffset, tracks] at *
    omega
  rw [isFree_eq, isFree_eq table]
  by_cases hqp : q = p
  · subst hqp
    rw [byte_put_self _ _ hin, if_pos rfl, hsame]
  · rw [if_neg hqp]
    by_cases hoffset : bitOffset p = bitOffset q
    · have hbit : q.sector % 8 ≠ p.sector % 8 := fun hbit =>
        hqp (eq_of_bitOffset_eq hq.sector hp.sector hoffset.symm hbit)
      rw [← hoffset, byte_put_self _ _ hin, hother _ (Nat.mod_lt _ (by decide)) hbit]
    · rw [byte_put_of_ne _ _ hoffset]

theorem isFree_clear (table : Sector) (hp : p.HasBit) (hq : q.HasBit) :
    (table.put (bitOffset p) (table.byte (bitOffset p) &&& ~~~ bitMask p.sector)).isFree q =
      (table.isFree q && decide (q ≠ p)) := by
  have hlt : p.sector % 8 < 8 := Nat.mod_lt _ (by decide)
  rw [isFree_put_bits (b := false) table hp hq]
  · by_cases hqp : q = p <;> simp [hqp]
  · simp [toBitVec_bitMask, hlt]
  · intro k hk hne
    simp [toBitVec_bitMask, hk, hne]

theorem isFree_set (table : Sector) (hp : p.HasBit) (hq : q.HasBit) :
    (table.put (bitOffset p) (table.byte (bitOffset p) ||| bitMask p.sector)).isFree q =
      (table.isFree q || decide (q = p)) := by
  have hlt : p.sector % 8 < 8 := Nat.mod_lt _ (by decide)
  rw [isFree_put_bits (b := true) table hp hq]
  · by_cases hqp : q = p <;> simp [hqp]
  · simp [toBitVec_bitMask, hlt]
  · intro k hk hne
    simp [toBitVec_bitMask, hk, hne]

/-! ## The counts -/

/-- The number of bits of a track that are set. -/
def freeOn (table : Sector) (track : Nat) : Nat :=
  (List.range 24).countP fun s => table.isFree ⟨track, s⟩

/-- The counts are those of the bits, and only sectors that there are have their bits set. -/
structure Counts (table : Sector) : Prop where
  count : ∀ track, 1 ≤ track → track ≤ tracks →
    (table.byte (countOffset track)).toNat = table.freeOn track
  onDisk : ∀ p : Place, p.HasBit → table.isFree p = true → p.OnDisk

theorem freeOn_congr (h : ∀ s < 24, table.isFree ⟨track, s⟩ = table'.isFree ⟨track, s⟩) :
    table.freeOn track = table'.freeOn track := by
  apply List.countP_congr
  intro s hs
  rw [h s (List.mem_range.1 hs)]

theorem SameTable.counts (h : SameTable table table') (hcounts : table'.Counts) : table.Counts where
  count track hlow hhigh := by
    rw [h.count hlow hhigh, hcounts.count track hlow hhigh]
    exact freeOn_congr fun s hs => (h.isFree ⟨hlow, hhigh, hs⟩).symm
  onDisk p hp hfree := hcounts.onDisk p hp (h.isFree hp ▸ hfree)

/-- Taking a sector clears its bit and no other. -/
theorem isFree_use (table : Sector) (hp : p.HasBit) (hq : q.HasBit) :
    (table.use p).isFree q = (table.isFree q && decide (q ≠ p)) := by
  unfold use
  by_cases hfree : table.isFree p = true
  · rw [if_pos hfree]
    simp only
    rw [isFree_put_count _ _ hq, isFree_clear table hp hq]
  · rw [if_neg hfree]
    by_cases hqp : q = p
    · subst hqp
      simp [hfree]
    · simp [hqp]

theorem byte_count_use (table : Sector) (hp : p.HasBit) (hfree : table.isFree p = true) (u : Nat)
    (hu : u ≤ tracks) : (table.use p).byte (countOffset u) =
      if u = p.track then table.byte (countOffset u) - 1 else table.byte (countOffset u) := by
  have hin : countOffset u < 256 := by
    simp only [countOffset, tracks] at *
    omega
  have hbits (t : Nat) := byte_put_of_ne table
    (table.byte (bitOffset p) &&& ~~~ bitMask p.sector) (bitOffset_ne_countOffset hp.sector t)
  unfold use
  rw [if_pos hfree]
  simp only
  by_cases hut : u = p.track
  · subst hut
    rw [byte_put_self _ _ hin, if_pos rfl, hbits]
  · have hne : countOffset p.track ≠ countOffset u := by
      simp only [countOffset]
      omega
    rw [byte_put_of_ne _ _ hne, if_neg hut, hbits]

theorem freeOn_use (table : Sector) (hp : p.HasBit) (hfree : table.isFree p = true) :
    (table.use p).freeOn p.track = table.freeOn p.track - 1 := by
  have hmem : p.sector ∈ (List.range 24).filter fun s => table.isFree ⟨p.track, s⟩ :=
    List.mem_filter.2 ⟨List.mem_range.2 hp.sector, hfree⟩
  have hnodup : ((List.range 24).filter fun s => table.isFree ⟨p.track, s⟩).Nodup :=
    List.nodup_range.filter _
  unfold freeOn
  rw [List.countP_eq_length_filter, List.countP_eq_length_filter, ← List.length_erase_of_mem hmem,
    hnodup.erase_eq_filter, List.filter_filter]
  congr 1
  apply List.filter_congr
  intro s hs
  have hbit : (⟨p.track, s⟩ : Place).HasBit := ⟨hp.low, hp.high, List.mem_range.1 hs⟩
  rw [isFree_use table hp hbit, Bool.and_comm]
  rw [bne, Bool.beq_eq_decide_eq, decide_not]
  congr 2
  cases p
  simp

theorem Counts.use (h : table.Counts) (hp : p.HasBit) : (table.use p).Counts := by
  by_cases hfree : table.isFree p = true
  swap
  · unfold Sector.use
    rwa [if_neg hfree]
  refine ⟨?_, ?_⟩
  · intro u hlow hhigh
    rw [byte_count_use table hp hfree u hhigh]
    by_cases hut : u = p.track
    · have hpos : 0 < table.freeOn u := by
        subst hut
        exact List.countP_pos_iff.2 ⟨p.sector, List.mem_range.2 hp.sector, hfree⟩
      rw [if_pos hut, hut, freeOn_use table hp hfree, ← hut, ← h.count u hlow hhigh]
      rw [← h.count u hlow hhigh] at hpos
      exact UInt8.toNat_sub_of_le _ _ (UInt8.le_iff_toNat_le.2 hpos)
    · rw [if_neg hut, h.count u hlow hhigh]
      apply freeOn_congr
      intro s hs
      have hbit : (⟨u, s⟩ : Place).HasBit := ⟨hlow, hhigh, hs⟩
      have hne : (⟨u, s⟩ : Place) ≠ p := fun heq => hut (congrArg Place.track heq)
      rw [isFree_use table hp hbit, decide_eq_true hne, Bool.and_true]
  · intro q hq hqfree
    rw [isFree_use table hp hq, Bool.and_eq_true] at hqfree
    exact h.onDisk q hq hqfree.1

/-- The bits that count are those of the sectors that there are. -/
theorem Counts.freeOn_eq (h : table.Counts) (hlow : 1 ≤ track) (hhigh : track ≤ tracks) :
    table.freeOn track = (around track 0).countP table.isFree := by
  have hle : sectorsOn track ≤ 24 := Nat.le_trans (Place.sectorsOn_le track) (by decide)
  have hsplit : 24 = sectorsOn track + (24 - sectorsOn track) := (Nat.add_sub_cancel' hle).symm
  have hbehind : ((List.range (24 - sectorsOn track)).map (sectorsOn track + ·)).countP
      (fun s => table.isFree ⟨track, s⟩) = 0 := by
    apply List.countP_eq_zero.2
    intro s hs hfree
    obtain ⟨k, hk, rfl⟩ := List.mem_map.1 hs
    have hlt := List.mem_range.1 hk
    have hdisk := h.onDisk ⟨track, _⟩ ⟨hlow, hhigh, by simp only; omega⟩ hfree
    simp only [Place.OnDisk] at hdisk
    omega
  unfold freeOn around
  rw [hsplit, List.range_add, List.countP_append, hbehind, Nat.add_zero, List.countP_map]
  apply List.countP_congr
  intro s hs
  rw [Function.comp_apply, Nat.zero_add, Nat.mod_eq_of_lt (List.mem_range.1 hs)]

/-! ## The table of an empty disk -/

theorem isFree_freeSectors (table : Sector) (hlow : 1 ≤ track) (hhigh : track ≤ tracks) {n : Nat}
    (hn : n ≤ 24) (hq : q.HasBit) :
    ((List.range n).foldl (fun t s =>
      let o := bitOffset ⟨track, s⟩
      t.put o (t.byte o ||| bitMask s)) table).isFree q =
      (table.isFree q || decide (q.track = track ∧ q.sector < n)) := by
  induction n with
  | zero => simp
  | succ n ih =>
    rw [List.range_succ, List.foldl_append, List.foldl_cons, List.foldl_nil]
    have hset := isFree_set (p := ⟨track, n⟩) (q := q)
      ((List.range n).foldl (fun t s =>
        let o := bitOffset ⟨track, s⟩
        t.put o (t.byte o ||| bitMask s)) table) ⟨hlow, hhigh, hn⟩ hq
    simp only at hset ⊢
    rw [hset, ih (Nat.le_of_succ_le hn), Bool.or_assoc]
    congr 1
    rw [Bool.eq_iff_iff]
    cases q
    simp only [Bool.or_eq_true, decide_eq_true_eq, Place.mk.injEq]
    omega

theorem byte_count_freeSectors (table : Sector) (track u : Nat) {n : Nat} (hn : n ≤ 24) :
    ((List.range n).foldl (fun t s =>
      let o := bitOffset ⟨track, s⟩
      t.put o (t.byte o ||| bitMask s)) table).byte (countOffset u) =
          table.byte (countOffset u) := by
  induction n with
  | zero => rfl
  | succ n ih =>
    rw [List.range_succ, List.foldl_append, List.foldl_cons, List.foldl_nil]
    simp only
    rw [byte_put_of_ne _ _ (bitOffset_ne_countOffset (p := ⟨track, n⟩) hn u)]
    exact ih (Nat.le_of_succ_le hn)

/-- Freeing a track sets the bits of its sectors. -/
theorem isFree_freeTrack (table : Sector) (hlow : 1 ≤ track)
    (hhigh : track ≤ tracks) (hq : q.HasBit) :
    (table.freeTrack track).isFree q =
      (table.isFree q || decide (q.track = track ∧ q.OnDisk)) := by
  have hle : sectorsOn track ≤ 24 := Nat.le_trans (Place.sectorsOn_le track) (by decide)
  unfold freeTrack
  rw [isFree_freeSectors _ hlow hhigh hle hq, isFree_put_count _ _ hq]
  congr 2
  rw [eq_iff_iff]
  constructor
  · rintro ⟨rfl, hs⟩
    exact ⟨rfl, hs⟩
  · rintro ⟨rfl, hs⟩
    exact ⟨rfl, hs⟩

theorem byte_count_freeTrack (table : Sector) {u : Nat} (hhigh : u ≤ tracks) :
    (table.freeTrack track).byte (countOffset u) =
      if u = track then .ofNat (sectorsOn track) else table.byte (countOffset u) := by
  have hle : sectorsOn track ≤ 24 := Nat.le_trans (Place.sectorsOn_le track) (by decide)
  have hin : countOffset u < 256 := by
    simp only [countOffset, tracks] at *
    omega
  unfold freeTrack
  rw [byte_count_freeSectors _ _ _ hle, byte_put _ _ hin]
  congr 1
  rw [eq_iff_iff]
  simp only [countOffset]
  omega

/-- The table that has every sector free. -/
def allFree (n : Nat) : Sector := ((List.range n).map (· + 1)).foldl freeTrack blank

theorem allFree_succ (n : Nat) : allFree (n + 1) = (allFree n).freeTrack (n + 1) := by
  simp [allFree, List.range_succ]

theorem isFree_allFree {n : Nat} (hn : n ≤ tracks) (hq : q.HasBit) :
    (allFree n).isFree q = decide (q.track ≤ n ∧ q.OnDisk) := by
  induction n with
  | zero =>
    have hlow := hq.low
    rw [isFree_eq]
    simp [allFree]
    omega
  | succ n ih =>
    rw [allFree_succ, isFree_freeTrack _ (by omega) hn hq, ih (by omega), Bool.eq_iff_iff]
    simp only [Bool.or_eq_true, decide_eq_true_eq]
    constructor
    · rintro (⟨hle, hdisk⟩ | ⟨heq, hdisk⟩)
      · exact ⟨Nat.le_succ_of_le hle, hdisk⟩
      · exact ⟨Nat.le_of_eq heq, hdisk⟩
    · rintro ⟨hle, hdisk⟩
      rcases Nat.lt_or_eq_of_le hle with hlt | heq
      · exact .inl ⟨Nat.le_of_lt_succ hlt, hdisk⟩
      · exact .inr ⟨heq, hdisk⟩

theorem byte_count_allFree {n u : Nat} (hn : n ≤ tracks) (hlow : 1 ≤ u) (hhigh : u ≤ n) :
    (allFree n).byte (countOffset u) = .ofNat (sectorsOn u) := by
  induction n with
  | zero => omega
  | succ n ih =>
    rw [allFree_succ, byte_count_freeTrack _ (Nat.le_trans hhigh hn)]
    by_cases hu : u = n + 1
    · rw [if_pos hu, hu]
    · rw [if_neg hu]
      exact ih (by omega) (by omega)

theorem counts_allFree : (allFree tracks).Counts where
  count u hlow hhigh := by
    have hle := Place.sectorsOn_le u
    rw [byte_count_allFree (Nat.le_refl _) hlow hhigh, UInt8.toNat_ofNat',
      Nat.mod_eq_of_lt (by omega)]
    have hbits : (allFree tracks).freeOn u = (List.range 24).countP fun s =>
        decide (s < sectorsOn u) := by
      apply List.countP_congr
      intro s hs
      rw [isFree_allFree (Nat.le_refl _) ⟨hlow, hhigh, List.mem_range.1 hs⟩]
      simp [Place.OnDisk, hhigh]
    rw [hbits]
    interval_cases sectorsOn u <;> rfl
  onDisk p hp hfree := by
    rw [isFree_allFree (Nat.le_refl _) hp, decide_eq_true_eq] at hfree
    exact hfree.2

end Sector

end Breadbin.Disk
