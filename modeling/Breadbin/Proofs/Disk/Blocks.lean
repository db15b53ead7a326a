import Breadbin.Proofs.Disk.Sector
import Breadbin.Disk.Files
import Breadbin.Proofs.Disk.FreeTable

/-!
# Chains of sectors

A chain is followed by the links of its sectors up to one that says that none follows.  Following a
chain reads what its sectors hold, and a chain stays one as long as the links of its own sectors
stay.
-/

namespace Breadbin.Disk

/-- The sectors that follow one another from a place on, up to one that none follows. -/
inductive Chain (d : Disk) : Place → List Place → Prop where
  | last {p : Place} (hp : p.OnDisk) (hlast : (d.sector p).byte 0 = 0) : Chain d p [p]
  | next {p : Place} {ps : List Place} (hp : p.OnDisk) (hmore : (d.sector p).byte 0 ≠ 0)
      (rest : Chain d (d.sector p).link ps) : Chain d p (p :: ps)

namespace Sector

/-- The bytes of a file that a block holds. -/
def contents (s : Sector) : Bytes :=
  if s.byte 0 = 0 then s.slice 2 ((s.byte 1).toNat - 1) else s.slice 2 payload

/-- A last block counts at least the byte before the first of the file. -/
def Countable (s : Sector) : Prop := s.byte 0 = 0 → s.byte 1 ≠ 0

theorem byte_zero_of_link {s s' : Sector} (h : s'.link = s.link) : s'.byte 0 = s.byte 0 :=
  UInt8.toNat_inj.1 (congrArg Place.track h)

end Sector

namespace Chain

variable {d d' : Disk} {p q fresh : Place} {ps : List Place}

theorem eq_cons (h : d.Chain p ps) : ∃ rest, ps = p :: rest := by
  cases h with
  | last => exact ⟨[], rfl⟩
  | next => exact ⟨_, rfl⟩

theorem ne_nil (h : d.Chain p ps) : ps ≠ [] := by
  obtain ⟨rest, rfl⟩ := h.eq_cons
  exact List.cons_ne_nil _ _

theorem onDisk (h : d.Chain p ps) : ∀ q ∈ ps, q.OnDisk := by
  induction h with
  | last hp => simpa using hp
  | next hp _ _ ih => simpa using ⟨hp, ih⟩

/-- A chain depends on the links of its own sectors only. -/
theorem congr (h : d.Chain p ps) (hlinks : ∀ q ∈ ps, (d'.sector q).link = (d.sector q).link) :
    d'.Chain p ps := by
  induction h with
  | @last p hp hlast =>
    exact .last hp ((Sector.byte_zero_of_link (hlinks p (by simp))).trans hlast)
  | @next p ps hp hmore rest ih =>
    have hlink := hlinks p (by simp)
    refine .next hp (Sector.byte_zero_of_link hlink ▸ hmore) ?_
    rw [hlink]
    exact ih fun q hq => hlinks q (List.mem_cons_of_mem _ hq)

theorem congr_sectors (h : d.Chain p ps) (hsame : ∀ q ∈ ps, d'.sector q = d.sector q) :
    d'.Chain p ps :=
  h.congr fun q hq => by rw [hsame q hq]

/-- A place has at most one chain. -/
theorem unique {ps' : List Place} (h : d.Chain p ps) (h' : d.Chain p ps') : ps = ps' := by
  induction h generalizing ps' with
  | last _ hlast =>
    cases h' with
    | last => rfl
    | next _ hmore => exact absurd hlast hmore
  | next _ hmore _ ih =>
    cases h' with
    | last _ hlast => exact absurd hlast hmore
    | next _ _ rest => rw [ih rest]

/-- A chain gets one sector longer when its last one links to a sector that none follows. -/
theorem extend (h : d.Chain p ps) (hnodup : ps.Nodup) (hfresh : fresh.OnDisk)
    (hlast : (d'.sector (ps.getLast h.ne_nil)).link = fresh)
    (hend : (d'.sector fresh).byte 0 = 0)
    (hsame : ∀ q ∈ ps, q ≠ ps.getLast h.ne_nil → (d'.sector q).link = (d.sector q).link) :
    d'.Chain p (ps ++ [fresh]) := by
  have htrack : ∀ s : Sector, s.link.OnDisk → s.byte 0 ≠ 0 := by
    intro s hs hzero
    have hlow := hs.track_range.1
    simp [Sector.link_eq, hzero] at hlow
  induction h with
  | @last p hp _ =>
    have hlast : (d'.sector p).link = fresh := hlast
    refine .next hp (htrack _ (hlast ▸ hfresh)) ?_
    rw [hlast]
    exact .last hfresh hend
  | @next p ps hp hmore rest ih =>
    have hne : p ≠ (p :: ps).getLast (List.cons_ne_nil _ _) := by
      rw [List.getLast_cons rest.ne_nil]
      intro heq
      exact (List.nodup_cons.1 hnodup).1 (heq ▸ List.getLast_mem rest.ne_nil)
    have hlink := hsame p (by simp) hne
    rw [List.getLast_cons rest.ne_nil] at hlast
    refine .next hp (Sector.byte_zero_of_link hlink ▸ hmore) ?_
    rw [hlink]
    refine ih (List.nodup_cons.1 hnodup).2 hlast ?_
    intro q hq hqlast
    refine hsame q (List.mem_cons_of_mem _ hq) ?_
    rwa [List.getLast_cons rest.ne_nil]

/-- Following a chain reads what its sectors hold. -/
theorem readBlocks (h : d.Chain p ps) (hcount : ∀ q ∈ ps, (d.sector q).Countable) {n : Nat}
    (hn : ps.length ≤ n) :
    d.readBlocks n p = .ok (ps.flatMap fun q => (d.sector q).contents) := by
  induction h generalizing n with
  | @last p hp hlast =>
    obtain ⟨n, rfl⟩ :=
      Nat.exists_eq_succ_of_ne_zero (n := n) (by rw [List.length_singleton] at hn; omega)
    have hone := hcount p (by simp) hlast
    rw [Disk.readBlocks, if_pos hp]
    simp only
    rw [if_pos hlast, if_neg hone]
    simp [Sector.contents, hlast]
  | @next p ps hp hmore _ ih =>
    rw [List.length_cons] at hn
    obtain ⟨n, rfl⟩ := Nat.exists_eq_succ_of_ne_zero (n := n) (by omega)
    have hrest := ih (fun q hq => hcount q (List.mem_cons_of_mem _ hq)) (Nat.le_of_succ_le_succ hn)
    rw [Disk.readBlocks, if_pos hp]
    simp only
    rw [if_neg hmore, hrest]
    simp [Sector.contents, hmore, Functor.map, Except.map]

/-- A chain within the directory track is what the directory is read as. -/
theorem directoryFrom (h : d.Chain p ps) (htrack : ∀ q ∈ ps, q.track = directoryTrack) {n : Nat}
    (hn : ps.length ≤ n) : d.directoryFrom n p = .ok ps := by
  induction h generalizing n with
  | @last p hp hlast =>
    obtain ⟨n, rfl⟩ :=
      Nat.exists_eq_succ_of_ne_zero (n := n) (by rw [List.length_singleton] at hn; omega)
    have hin : p.InDirectory := ⟨htrack p (by simp), hp⟩
    rw [Disk.directoryFrom, if_pos hin]
    simp only
    rw [if_pos hlast]
  | @next p ps hp hmore _ ih =>
    rw [List.length_cons] at hn
    obtain ⟨n, rfl⟩ := Nat.exists_eq_succ_of_ne_zero (n := n) (by omega)
    have hin : p.InDirectory := ⟨htrack p (by simp), hp⟩
    have hrest := ih (fun q hq => htrack q (List.mem_cons_of_mem _ hq)) (Nat.le_of_succ_le_succ hn)
    rw [Disk.directoryFrom, if_pos hin]
    simp only
    rw [if_neg hmore, hrest]
    rfl

end Chain

end Breadbin.Disk

/-!
## Writing the blocks of a file

A block is looked for from the track of the block before it on, never on the tracks filled earlier.
No sector is free on those when a file begins, because its first block is the first free sector of
all; so a file whose blocks are no more than the free ones is written as a whole.
-/

namespace Breadbin.Disk

variable {d d' : Disk} {p q : Place} {before : Option Place}

/-! ## The table of a disk -/

theorem isFree_use (d : Disk) (hp : p.OnDisk) (hq : q.OnDisk) :
    (d.use p).isFree q = (d.isFree q && decide (q ≠ p)) := by
  unfold isFree table use
  rw [sector_change_self tablePlace_onDisk]
  exact Sector.isFree_use _ hp.hasBit hq.hasBit

theorem counts_use (h : d.table.Counts) (hp : p.OnDisk) : (d.use p).table.Counts := by
  unfold table use
  rw [sector_change_self tablePlace_onDisk]
  exact h.use hp.hasBit

theorem sector_use (d : Disk) (p : Place) (hq : q.OnDisk) (h : q ≠ tablePlace) :
    (d.use p).sector q = d.sector q :=
  sector_change_of_ne tablePlace_onDisk hq h.symm

theorem table_change {f : Sector → Sector} (hp : p.OnDisk) (h : p ≠ tablePlace) :
    (d.change p f).table = d.table :=
  sector_change_of_ne hp tablePlace_onDisk h

theorem isFree_change {f : Sector → Sector} (hp : p.OnDisk) (h : p ≠ tablePlace) (q : Place) :
    (d.change p f).isFree q = d.isFree q := by
  unfold isFree
  rw [table_change hp h]

/-- The places that files may still take. -/
def freePlaces (d : Disk) : List Place := dataPlaces.filter d.isFree

theorem mem_freePlaces : p ∈ d.freePlaces ↔ p.ForData ∧ d.isFree p = true := by
  unfold freePlaces
  rw [List.mem_filter, mem_dataPlaces]

theorem freePlaces_congr (h : ∀ q : Place, q.OnDisk → d'.isFree q = d.isFree q) :
    d'.freePlaces = d.freePlaces := by
  apply List.filter_congr
  intro q hq
  exact h q (mem_dataPlaces.1 hq).1

/-- The counts add up to the number of places that files may still take. -/
theorem freeBlocks_eq (h : d.table.Counts) : d.freeBlocks = d.freePlaces.length := by
  have hsum : ∀ (ts : List Nat) (n : Nat),
      ts.foldl (fun n t => n + (d.table.byte (countOffset t)).toNat) n =
      n + (ts.map fun t => (d.table.byte (countOffset t)).toNat).sum := by
    intro ts
    induction ts with
    | nil => simp
    | cons t ts ih =>
      intro n
      rw [List.foldl_cons, ih, List.map_cons, List.sum_cons, Nat.add_assoc]
  have htracks : dataTracks.map (fun t => (d.table.byte (countOffset t)).toNat) =
      dataTracks.map (List.countP d.isFree ∘ fun t => around t 0) := by
    apply List.map_congr_left
    intro t ht
    obtain ⟨hlow, hhigh, -⟩ := mem_dataTracks.1 ht
    rw [h.count t hlow hhigh, h.freeOn_eq hlow hhigh]
    rfl
  unfold freeBlocks freePlaces dataPlaces
  rw [hsum, Nat.zero_add, htracks, ← List.countP_eq_length_filter, List.countP_flatMap]

theorem freePlaces_use (d : Disk) (hp : p.OnDisk) :
    (d.use p).freePlaces = d.freePlaces.erase p := by
  have hnodup : d.freePlaces.Nodup := nodup_dataPlaces.filter _
  rw [hnodup.erase_eq_filter]
  unfold freePlaces
  rw [List.filter_filter]
  apply List.filter_congr
  intro q hq
  rw [isFree_use d hp (mem_dataPlaces.1 hq).1, Bool.and_comm, bne,
    Bool.beq_eq_decide_eq, decide_not]

/-! ## The order in which the disk is filled -/

/-- The tracks from one of them on, in the order in which they are filled. -/
def tracksFrom (track : Nat) : List Nat := dataTracks.dropWhile (· ≠ track)

theorem tracksFrom_eq : ∀ t ∈ dataTracks, tracksFrom t = t :: (tracksFrom t).drop 1 := by decide

theorem tracksFrom_ordered : dataTracks.Pairwise fun t u => u ∈ tracksFrom t := by decide

/-- All sectors that are free lie on the tracks from that of a place on. -/
def Leads (d : Disk) (p : Place) : Prop := ∀ q ∈ d.freePlaces, q.track ∈ tracksFrom p.track

/-- The tracks that the next block may lie on. -/
def tracksBehind : Option Place → List Nat
  | none => dataTracks
  | some p => tracksFrom p.track

theorem tracksBehind_sublist (before : Option Place) :
    (tracksBehind before).Sublist dataTracks := by
  cases before with
  | none => exact List.Sublist.refl _
  | some p => exact (List.dropWhile_suffix _).sublist

/-- A list of places that visits each of some tracks in turn. -/
theorem pairwise_flatMap_tracks {ts : List Nat} (hts : ts.Sublist dataTracks) {f : Nat → List Place}
    (hf : ∀ t ∈ ts, ∀ p ∈ f t, p.track = t) :
    (ts.flatMap f).Pairwise fun p q => q.track ∈ tracksFrom p.track := by
  refine List.pairwise_flatMap.2 ⟨?_, ?_⟩
  · intro t ht
    refine List.pairwise_of_forall_mem_list ?_
    intro p hp q hq
    rw [hf t ht p hp, hf t ht q hq, tracksFrom_eq t (hts.subset ht)]
    exact List.mem_cons_self
  · refine List.Pairwise.imp_of_mem ?_ (tracksFrom_ordered.sublist hts)
    intro t u ht hu htu p hp q hq
    rwa [hf t ht p hp, hf u hu q hq]

theorem blockPlaces_eq (hbefore : ∀ p ∈ before, p.ForData) : ∃ f : Nat → List Place,
    blockPlaces before = (tracksBehind before).flatMap f ∧
      ∀ t p, p ∈ f t ↔ p.track = t ∧ p.OnDisk := by
  cases before with
  | none => exact ⟨(around · 0), rfl, fun t p => mem_around⟩
  | some p =>
    have hp := hbefore p rfl
    have hin : p.track ∈ dataTracks :=
      mem_dataTracks.2 ⟨hp.1.track_range.1, hp.1.track_range.2, hp.2⟩
    refine ⟨fun t => if t = p.track then around t (p.sector + blockStep) else around t 0, ?_, ?_⟩
    · have hnodup : (tracksFrom p.track).Nodup :=
        nodup_dataTracks.sublist (List.dropWhile_suffix _).sublist
      rw [tracksFrom_eq _ hin] at hnodup
      rw [tracksBehind, tracksFrom_eq _ hin, List.flatMap_cons, if_pos rfl]
      show around _ _ ++ _ = _
      congr 1
      apply List.flatMap_congr
      intro t ht
      have hne : t ≠ p.track := fun heq => (List.nodup_cons.1 hnodup).1 (heq ▸ ht)
      rw [if_neg hne]
    · intro t q
      dsimp only
      split <;> exact mem_around

/-- As long as a sector is free on the tracks that come next, one is found there. -/
theorem takeBlock_eq (before : Option Place) (hbefore : ∀ p ∈ before, p.ForData)
    (hleads : ∀ p ∈ before, d.Leads p) (hfree : d.freePlaces ≠ []) :
    ∃ q, d.takeBlock before = some (q, d.use q) ∧ q ∈ d.freePlaces ∧ (d.use q).Leads q := by
  obtain ⟨f, hplaces, hf⟩ := blockPlaces_eq hbefore
  have hmem : ∀ q, q ∈ blockPlaces before ↔ q.OnDisk ∧ q.track ∈ tracksBehind before := by
    intro q
    rw [hplaces, List.mem_flatMap]
    constructor
    · rintro ⟨t, ht, hq⟩
      obtain ⟨rfl, hdisk⟩ := (hf t q).1 hq
      exact ⟨hdisk, ht⟩
    · rintro ⟨hdisk, ht⟩
      exact ⟨q.track, ht, (hf _ q).2 ⟨rfl, hdisk⟩⟩
  have hcovers : ∀ q ∈ d.freePlaces, q ∈ blockPlaces before := by
    intro q hq
    obtain ⟨hdata, -⟩ := mem_freePlaces.1 hq
    refine (hmem q).2 ⟨hdata.1, ?_⟩
    cases before with
    | none => exact mem_dataTracks.2 ⟨hdata.1.track_range.1, hdata.1.track_range.2, hdata.2⟩
    | some p => exact hleads p rfl q hq
  obtain ⟨r, hr⟩ := List.exists_mem_of_ne_nil _ hfree
  obtain ⟨q, hq⟩ := Option.isSome_iff_exists.1
    (List.find?_isSome.2 ⟨r, hcovers r hr, (mem_freePlaces.1 hr).2⟩)
  obtain ⟨hqfree, front, back, hsplit, hfront⟩ := List.find?_eq_some_iff_append.1 hq
  have hqin := (hmem q).1 (hsplit ▸ List.mem_append_right front List.mem_cons_self)
  have hqdata : q.ForData :=
    ⟨hqin.1, (mem_dataTracks.1 ((tracksBehind_sublist before).subset hqin.2)).2.2⟩
  refine ⟨q, ?_, mem_freePlaces.2 ⟨hqdata, hqfree⟩, ?_⟩
  · unfold takeBlock
    rw [hq]
    rfl
  · -- what is still free is not in front of the sector found
    intro r hr
    rw [freePlaces_use d hqdata.1] at hr
    have hrfree := List.mem_of_mem_erase hr
    have hordered := pairwise_flatMap_tracks (tracksBehind_sublist before)
      fun t _ p hp => ((hf t p).1 hp).1
    have hmemr := hcovers r hrfree
    rw [← hplaces, hsplit] at hordered
    rw [hsplit] at hmemr
    rcases List.mem_append.1 hmemr with hrfront | hrback
    · have := hfront r hrfront
      simp [(mem_freePlaces.1 hrfree).2] at this
    · rcases List.mem_cons.1 hrback with rfl | hrback
      · exact absurd rfl ((List.Nodup.mem_erase_iff (nodup_dataPlaces.filter _)).1 hr).1
      · exact (List.pairwise_cons.1 (List.pairwise_append.1 hordered).2.1).1 r hrback

/-! ## Cutting a file into blocks -/

/-- Blocks that are full, up to the last one. -/
inductive Cut : List Bytes → Prop where
  | last {b : Bytes} (h : b.length ≤ payload) : Cut [b]
  | next {b : Bytes} {bs : List Bytes} (h : b.length = payload) (rest : Cut bs) : Cut (b :: bs)

theorem blocksFor_bounds (size : Nat) : 1 ≤ blocksFor size ∧ size ≤ blocksFor size * payload ∧
    (blocksFor size - 1) * payload ≤ size := by
  unfold blocksFor payload
  omega

theorem length_blocksOf (n : Nat) (body : Bytes) : (blocksOf n body).length = n := by
  induction n generalizing body with
  | zero => rfl
  | succ n ih => rw [blocksOf, List.length_cons, ih]

theorem flatten_blocksOf {n : Nat} {body : Bytes} (h : body.length ≤ n * payload) :
    (blocksOf n body).flatten = body := by
  induction n generalizing body with
  | zero =>
    rw [Nat.zero_mul] at h
    rw [List.length_eq_zero_iff.1 (Nat.le_zero.1 h)]
    rfl
  | succ n ih =>
    have hrest : (body.drop payload).length ≤ n * payload := by
      rw [List.length_drop]
      rw [Nat.succ_mul] at h
      omega
    rw [blocksOf, List.flatten_cons, ih hrest, List.take_append_drop]

theorem cut_blocksOf {n : Nat} {body : Bytes} (hn : 1 ≤ n) (hhigh : body.length ≤ n * payload)
    (hlow : (n - 1) * payload ≤ body.length) : Cut (blocksOf n body) := by
  induction n generalizing body with
  | zero => omega
  | succ n ih =>
    rw [blocksOf]
    rw [Nat.succ_mul] at hhigh
    cases n with
    | zero =>
      refine .last ?_
      rw [List.length_take]
      exact Nat.min_le_left _ _
    | succ n =>
      rw [Nat.add_sub_cancel, Nat.succ_mul] at hlow
      refine .next ?_ (ih (Nat.succ_pos n) ?_ ?_)
      · rw [List.length_take]
        omega
      · rw [List.length_drop]
        omega
      · rw [List.length_drop, Nat.add_sub_cancel]
        omega

/-! ## Writing -/

/-- What is on a disk after the blocks of a file were written into a chain of sectors. -/
structure Written (d d' : Disk) (p : Place) (ps : List Place) (blocks : List Bytes) : Prop where
  chain : d'.Chain p ps
  countable : ∀ q ∈ ps, (d'.sector q).Countable
  contents : (ps.flatMap fun q => (d'.sector q).contents) = blocks.flatten
  length : ps.length = blocks.length
  nodup : ps.Nodup
  fresh : ∀ q ∈ ps, q ≠ p → q ∈ d.freePlaces
  counts : d.table.Counts → d'.table.Counts
  isFree : ∀ q : Place, q.OnDisk → d'.isFree q = (d.isFree q && decide (q ∉ ps))
  others : ∀ q : Place, q.OnDisk → q ≠ tablePlace → q ∉ ps → d'.sector q = d.sector q

theorem Place.ForData.ne_tablePlace (h : p.ForData) : p ≠ tablePlace :=
  h.ne_of_inDirectory (by decide)

/-- The last block. -/
theorem written_last (hp : p.ForData) (hused : d.isFree p = false) {b : Bytes}
    (hb : b.length ≤ payload) :
    d.Written (d.change p fun s => (s.putAll 2 b).setLink ⟨0, b.length + 1⟩) p [p] [b] := by
  have hsector := sector_change_self (d := d)
    (f := fun s => (s.putAll 2 b).setLink ⟨0, b.length + 1⟩) hp.1
  have hzero : ((d.change p fun s => (s.putAll 2 b).setLink ⟨0, b.length + 1⟩).sector p).byte
      0 = 0 := by
    rw [hsector, Sector.byte_zero_setLink]
    rfl
  have hone : (((d.change p fun s => (s.putAll 2 b).setLink ⟨0, b.length + 1⟩).sector p).byte
      1).toNat =
      b.length + 1 := by
    rw [hsector, Sector.byte_one_setLink, UInt8.toNat_ofNat']
    exact Nat.mod_eq_of_lt (show b.length + 1 < 256 by simp only [payload] at hb; omega)
  have hfits : 2 + b.length ≤ 256 := by
    simp only [payload] at hb
    omega
  refine
    { chain := .last hp.1 hzero
      countable := ?_
      contents := ?_
      length := rfl
      nodup := List.nodup_singleton p
      fresh := fun q hq hne => absurd (List.mem_singleton.1 hq) hne
      counts := fun hcounts => (table_change hp.1 hp.ne_tablePlace).symm ▸ hcounts
      isFree := ?_
      others := fun q hq _ hne => sector_change_of_ne hp.1 hq fun h =>
        hne (List.mem_singleton.2 h.symm) }
  · intro q hq _ hcontra
    obtain rfl := List.mem_singleton.1 hq
    rw [hcontra] at hone
    simp at hone
  · rw [List.flatMap_singleton, Sector.contents, if_pos hzero, hone, Nat.add_sub_cancel, hsector,
      Sector.slice_setLink _ _ (Nat.le_refl 2) hfits, Sector.slice_putAll _ b hfits]
    simp
  · intro q _
    rw [isFree_change hp.1 hp.ne_tablePlace]
    by_cases hq : q = p
    · subst hq
      simp [hused]
    · simp [hq]

/-- A block in front of what is written from the next one on. -/
theorem Written.cons {next : Place} {ps : List Place} {b : Bytes} {bs : List Bytes} (hp : p.ForData)
    (hused : d.isFree p = false) (hb : b.length = payload) (hnext : next ∈ d.freePlaces)
    (h : Written (((d.change p (·.putAll 2 b)).use next).change p (·.setLink next)) d' next ps bs) :
    d.Written d' p (p :: ps) (b :: bs) := by
  obtain ⟨hnextData, hnextFree⟩ := mem_freePlaces.1 hnext
  have hfree : ∀ q : Place, q.OnDisk →
      (((d.change p (·.putAll 2 b)).use next).change p (·.setLink next)).isFree q =
        (d.isFree q && decide (q ≠ next)) := by
    intro q hq
    rw [isFree_change hp.1 hp.ne_tablePlace, isFree_use _ hnextData.1 hq,
      isFree_change hp.1 hp.ne_tablePlace]
  have hps : ∀ q ∈ ps, q ∈ d.freePlaces := by
    intro q hq
    by_cases hqn : q = next
    · exact hqn ▸ hnext
    · obtain ⟨hdata, hqfree⟩ := mem_freePlaces.1 (h.fresh q hq hqn)
      rw [hfree q hdata.1, Bool.and_eq_true] at hqfree
      exact mem_freePlaces.2 ⟨hdata, hqfree.1⟩
  have hnotin : p ∉ ps := by
    intro hmem
    have hpfree := (mem_freePlaces.1 (hps p hmem)).2
    rw [hused] at hpfree
    exact absurd hpfree (by decide)
  have hnextIn : next ∈ ps := by
    obtain ⟨rest, rfl⟩ := h.chain.eq_cons
    exact List.mem_cons_self
  have hsector : d'.sector p = ((d.sector p).putAll 2 b).setLink next := by
    rw [h.others p hp.1 hp.ne_tablePlace hnotin, sector_change_self hp.1,
      sector_use _ _ hp.1 hp.ne_tablePlace, sector_change_self hp.1]
  have hlink : (d'.sector p).link = next := by
    rw [hsector]
    exact Sector.link_setLink _ hnextData.1.track_lt_256 hnextData.1.sector_lt_256
  have hmore : (d'.sector p).byte 0 ≠ 0 := by
    intro hzero
    have hlow := hnextData.1.track_range.1
    rw [← hlink, Sector.link_eq, hzero] at hlow
    exact Nat.not_succ_le_zero 0 hlow
  have hfits : 2 + b.length ≤ 256 := by rw [hb]; decide
  refine
    { chain := .next hp.1 hmore (hlink.symm ▸ h.chain)
      countable := ?_
      contents := ?_
      length := by rw [List.length_cons, List.length_cons, h.length]
      nodup := List.nodup_cons.2 ⟨hnotin, h.nodup⟩
      fresh := ?_
      counts := fun hcounts => h.counts ?_
      isFree := ?_
      others := ?_ }
  · intro q hq
    rcases List.mem_cons.1 hq with rfl | hq
    · exact fun hzero => absurd hzero hmore
    · exact h.countable q hq
  · rw [List.flatMap_cons, h.contents, List.flatten_cons, Sector.contents, if_neg hmore, hsector,
      Sector.slice_setLink _ _ (Nat.le_refl 2) (by decide), ← hb, Sector.slice_putAll _ b hfits]
  · intro q hq hne
    rcases List.mem_cons.1 hq with rfl | hq
    · exact absurd rfl hne
    · exact hps q hq
  · rw [table_change hp.1 hp.ne_tablePlace]
    apply counts_use _ hnextData.1
    rwa [table_change hp.1 hp.ne_tablePlace]
  · intro q hq
    rw [h.isFree q hq, hfree q hq]
    by_cases hqp : q = p
    · subst hqp
      simp [hused]
    · by_cases hqn : q = next
      · subst hqn
        simp [hnextIn]
      · simp [hqp, hqn]
  · intro q hq htable hne
    obtain ⟨hqp, hqps⟩ := not_or.1 (mt List.mem_cons.2 hne)
    rw [h.others q hq htable hqps, sector_change_of_ne hp.1 hq (Ne.symm hqp),
      sector_use _ _ hq htable, sector_change_of_ne hp.1 hq (Ne.symm hqp)]

/-- A file is written as a whole if no more blocks follow its first one than sectors are free. -/
theorem writeBlocks_written {blocks : List Bytes} (hcut : Cut blocks) (hp : p.ForData)
    (hused : d.isFree p = false) (hleads : d.Leads p)
    (hroom : blocks.length ≤ d.freePlaces.length + 1) :
    ∃ ps d', d.writeBlocks p blocks = (d', .ok ()) ∧ d.Written d' p ps blocks := by
  induction hcut generalizing d p with
  | last hb => exact ⟨[p], _, rfl, written_last hp hused hb⟩
  | @next b bs hb hrest ih =>
    have hfreePlaces : (d.change p (·.putAll 2 b)).freePlaces = d.freePlaces :=
      freePlaces_congr fun q _ => isFree_change hp.1 hp.ne_tablePlace q
    have hbs : 1 ≤ bs.length := by cases hrest <;> simp
    rw [List.length_cons] at hroom
    have hsome : d.freePlaces ≠ [] := by
      intro hnil
      rw [hnil, List.length_nil] at hroom
      omega
    have hleads' : ∀ r ∈ some p, (d.change p (·.putAll 2 b)).Leads r := by
      rintro r ⟨⟩
      unfold Leads
      rwa [hfreePlaces]
    obtain ⟨next, htake, hnext, hnextLeads⟩ := takeBlock_eq (some p)
      (by rintro r ⟨⟩; exact hp) hleads' (hfreePlaces.symm ▸ hsome)
    rw [hfreePlaces] at hnext
    obtain ⟨hnextData, -⟩ := mem_freePlaces.1 hnext
    -- the disk from which the next block is written
    have hplaces : (((d.change p (·.putAll 2 b)).use next).change p (·.setLink next)).freePlaces =
        ((d.change p (·.putAll 2 b)).use next).freePlaces :=
      freePlaces_congr fun q _ => isFree_change hp.1 hp.ne_tablePlace q
    obtain ⟨ps, d', hwrite, hwritten⟩ := ih
      (d := ((d.change p (·.putAll 2 b)).use next).change p (·.setLink next)) (p := next) hnextData
      (by rw [isFree_change hp.1 hp.ne_tablePlace, isFree_use _ hnextData.1 hnextData.1]; simp)
      (by unfold Leads; rwa [hplaces])
      (by
        rw [hplaces, freePlaces_use _ hnextData.1, hfreePlaces, List.length_erase_of_mem hnext]
        omega)
    refine ⟨p :: ps, d', ?_, hwritten.cons hp hused hb hnext⟩
    obtain ⟨b', bs, rfl⟩ := List.exists_cons_of_length_pos hbs
    rw [writeBlocks]
    · rw [htake]
      exact hwrite
    · exact nofun

end Breadbin.Disk
