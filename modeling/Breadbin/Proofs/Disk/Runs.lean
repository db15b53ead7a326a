import Breadbin.Proofs.Disk.Directory

/-!
# Additions

Files are added to a disk, one after the other.
-/

/-!
## Files that are added

Storing a file in the slot behind those of the others gives a disk that holds it too.  An addition
is refused, and leaves the disk alone, if the name is taken, if there are too few free blocks or if
144 files are there already; in all other cases the file is stored.
-/

namespace Breadbin.Disk

variable {d d' : Disk} {dir : List Place} {files : List Stored} {slot : Place × Nat}
  {name body : Bytes}
  {type : UInt8}

/-- The first block of a file is the first free place of all. -/
theorem takeBlock_none (hfree : d.freePlaces ≠ []) :
    ∃ start, d.takeBlock none = some (start, d.use start) ∧
    start ∈ d.freePlaces ∧ (d.use start).Leads start :=
  takeBlock_eq none nofun nofun hfree

section Announced

variable [Text.Folds] {f : Stored} {q : Place}

/-- The disk that tells of a file whose blocks are still to be written. -/
def announced (d : Disk) (slot : Place × Nat) (f : Stored) : Disk :=
  (d.use f.start).change slot.1 fun s =>
    s.setEntry slot.2 f.type f.start f.written (blocksFor f.body.length)

theorem sector_announced_slot (hslot : slot.1.OnDisk) (htable : slot.1 ≠ tablePlace) :
    (announced d slot f).sector slot.1 =
      (d.sector slot.1).setEntry slot.2 f.type f.start f.written (blocksFor f.body.length) := by
  unfold announced
  rw [sector_change_self hslot, sector_use _ _ hslot htable]

theorem sector_announced_of_ne (hslot : slot.1.OnDisk) (hq : q.OnDisk) (hne : q ≠ slot.1)
    (htable : q ≠ tablePlace) : (announced d slot f).sector q = d.sector q := by
  unfold announced
  rw [sector_change_of_ne hslot hq hne.symm, sector_use _ _ hq htable]

theorem link_announced (hslot : slot.1.OnDisk) (hslotTable : slot.1 ≠ tablePlace) (hq : q.OnDisk)
    (htable : q ≠ tablePlace) : ((announced d slot f).sector q).link = (d.sector q).link := by
  by_cases hqs : q = slot.1
  · subst hqs
    rw [sector_announced_slot hslot hslotTable]
    exact Sector.link_setEntry _ (length_padded _ _)
  · rw [sector_announced_of_ne hslot hq hqs htable]

/-- A file that fits into the free sectors is written, and told of in its slot. -/
theorem store_written (hslotDisk : slot.1.OnDisk) (hslotTable : slot.1 ≠ tablePlace)
    (hroom : blocksFor body.length ≤ d.freePlaces.length) :
    ∃ d' start chain, d.store slot type name body = (d', .ok ()) ∧ start ∈ d.freePlaces ∧
      (announced d slot ⟨name, type, body, start, chain⟩).Written d' start chain
        (blocksOf (blocksFor body.length) body) := by
  obtain ⟨hblocks, hhigh, hlow⟩ := blocksFor_bounds body.length
  have hsome : d.freePlaces ≠ [] := by
    intro hnil
    rw [hnil, List.length_nil] at hroom
    omega
  obtain ⟨start, htake, hstart, hleads⟩ := takeBlock_none hsome
  obtain ⟨hstartData, hstartFree⟩ := mem_freePlaces.1 hstart
  let f : Stored := ⟨name, type, body, start, []⟩
  have htable : (announced d slot f).table = (d.use start).table :=
    table_change hslotDisk hslotTable
  have hfree : (announced d slot f).freePlaces = (d.use start).freePlaces :=
    freePlaces_congr fun q _ => isFree_change hslotDisk hslotTable q
  obtain ⟨chain, d', hwrite, hwritten⟩ := writeBlocks_written (d := announced d slot f)
    (cut_blocksOf hblocks hhigh hlow) hstartData
    (by rw [isFree, htable]; exact (isFree_use d hstartData.1 hstartData.1).trans (by simp))
    (by unfold Leads; rwa [hfree])
    (by
      rw [length_blocksOf, hfree, freePlaces_use d hstartData.1, List.length_erase_of_mem hstart]
      omega)
  refine ⟨d', start, chain, ?_, hstart, hwritten⟩
  unfold Disk.store
  rw [htake]
  exact hwrite

end Announced

namespace Holds

variable [Text.Folds] {f : Stored}

/-- The file lies in sectors that were free, and the directory tells of it. -/
theorem written (h : d.Holds dir files) (hslot : (slotsOf dir)[files.length]? = some slot)
    (hname : f.written ∉ files.map Stored.written) (htype : f.type ≠ 0)
    (hstart : f.start ∈ d.freePlaces) (hwritten : (announced d slot f).Written d' f.start f.chain
      (blocksOf (blocksFor f.body.length) f.body)) : d'.Holds dir (files ++ [f]) := by
  obtain ⟨hstartData, hstartFree⟩ := mem_freePlaces.1 hstart
  obtain ⟨hindex, hslotEq⟩ := List.getElem?_eq_some_iff.1 hslot
  have hslotMem : slot ∈ slotsOf dir := hslotEq ▸ List.getElem_mem hindex
  obtain ⟨hslotDir, hslotLt⟩ := mem_slotsOf.1 hslotMem
  have hslotDisk := (h.track _ hslotDir).2
  have hslotTable := h.ne_tablePlace_of_mem hslotDir
  have hisFree : ∀ q : Place, q.OnDisk →
      (announced d slot f).isFree q = (d.isFree q && decide (q ≠ f.start)) := by
    intro q hq
    unfold announced
    rw [isFree_change hslotDisk hslotTable]
    exact isFree_use d hstartData.1 hq
  -- the sectors of the new file were free
  have hfresh : ∀ q ∈ f.chain, q ∈ d.freePlaces := by
    intro q hq
    by_cases hqs : q = f.start
    · exact hqs ▸ hstart
    · obtain ⟨hdata, hfree⟩ := mem_freePlaces.1 (hwritten.fresh q hq hqs)
      rw [hisFree q hdata.1, Bool.and_eq_true] at hfree
      exact mem_freePlaces.2 ⟨hdata, hfree.1⟩
  have hstartIn : f.start ∈ f.chain := by
    obtain ⟨rest, hrest⟩ := hwritten.chain.eq_cons
    exact hrest ▸ List.mem_cons_self
  have hdirNot : ∀ q ∈ dir, q ∉ f.chain := by
    intro q hq hmem
    exact h.ne_of_mem hq (mem_freePlaces.1 (hfresh q hmem)).1 rfl
  have hold : ∀ q ∈ takenBy files, q ∉ f.chain := by
    intro q hq hmem
    obtain ⟨hdata, hfree⟩ := mem_freePlaces.1 (hfresh q hmem)
    exact (h.not_mem_of_isFree hdata.1 hfree).2 hq
  have hdirSector : ∀ q ∈ dir, d'.sector q = (announced d slot f).sector q := fun q hq =>
    hwritten.others q (h.track q hq).2 (h.ne_tablePlace_of_mem hq) (hdirNot q hq)
  have hslotSector := sector_announced_slot (d := d) (f := f) hslotDisk hslotTable
  -- the slots in front of the new file's tell what they told, and its own tells of it
  have hothers : ∀ other ∈ slotsOf dir, other ≠ slot →
      d'.slotFree other = d.slotFree other ∧ d'.slotEntry other = d.slotEntry other := by
    intro other hother hne
    obtain ⟨hin, hlt⟩ := mem_slotsOf.1 hother
    apply slot_congr hlt
    rw [hdirSector _ hin]
    by_cases hplace : other.1 = slot.1
    · have hnumber : other.2 ≠ slot.2 := fun heq => hne (Prod.ext hplace heq)
      rw [hplace, hslotSector]
      exact Sector.sameSlot_setEntry_of_ne _ (length_padded _ _) hnumber
    · rw [sector_announced_of_ne hslotDisk (h.track _ hin).2 hplace (h.ne_tablePlace_of_mem hin)]
      exact fun _ _ _ => rfl
  have hnewFree : d'.slotFree slot = false := by
    rw [slotFree, hdirSector _ hslotDir, hslotSector]
    exact Sector.slotFree_setEntry _ (length_padded _ _) hslotLt htype
  have hnewEntry : d'.slotEntry slot = f.entry := by
    rw [slotEntry, hdirSector _ hslotDir, hslotSector]
    exact Sector.entry_setEntry _ (length_padded _ _) hslotLt hstartData.1.track_lt_256
      hstartData.1.sector_lt_256
  have hnodup := nodup_slotsOf (List.nodup_cons.1 h.nodup).2
  have htake : (slotsOf dir).take (files.length + 1) =
      (slotsOf dir).take files.length ++ [slot] := by
    rw [List.take_add_one, hslot]
    rfl
  have hfront : ∀ other ∈ (slotsOf dir).take files.length, other ∈ slotsOf dir ∧ other ≠ slot := by
    intro other hother
    refine ⟨List.mem_of_mem_take hother, ?_⟩
    rintro rfl
    rw [← List.take_append_drop (files.length + 1) (slotsOf dir), htake,
      List.append_assoc] at hnodup
    exact (List.nodup_append.1 hnodup).2.2 _ hother _ (by simp) rfl
  have hback : ∀ other ∈ (slotsOf dir).drop (files.length + 1),
      other ∈ (slotsOf dir).drop files.length ∧ other ≠ slot := by
    intro other hother
    refine ⟨List.drop_subset_drop_left _ (Nat.le_succ _) hother, ?_⟩
    rintro rfl
    rw [← List.take_append_drop (files.length + 1) (slotsOf dir), htake] at hnodup
    exact (List.nodup_append.1 hnodup).2.2 _ (by simp) _ hother rfl
  obtain ⟨hblocks, hhigh, hlow⟩ := blocksFor_bounds f.body.length
  refine
    { counts := hwritten.counts ?_
      chain := ?_
      track := h.track
      nodup := h.nodup
      short := ?_
      filled := ?_
      entries := ?_
      empty := ?_
      keeps := ?_
      data := ?_
      apart := ?_
      used := ?_
      names := ?_ }
  · unfold announced
    rw [table_change hslotDisk hslotTable]
    exact counts_use h.counts hstartData.1
  · refine h.chain.congr ?_
    intro q hq
    rw [hdirSector q hq]
    exact link_announced hslotDisk hslotTable (h.track q hq).2 (h.ne_tablePlace_of_mem hq)
  · rw [List.length_append]
    exact Nat.le_trans h.short (Nat.le_add_right _ _)
  · rw [List.length_append, List.length_singleton, htake]
    intro other hother
    rcases List.mem_append.1 hother with hother | hother
    · obtain ⟨hin, hne⟩ := hfront other hother
      rw [(hothers other hin hne).1]
      exact h.filled other hother
    · exact List.mem_singleton.1 hother ▸ hnewFree
  · rw [List.length_append, List.length_singleton, htake, List.map_append,
      List.map_append, ← h.entries, List.map_singleton, List.map_singleton, hnewEntry]
    congr 1
    apply List.map_congr_left
    intro other hother
    obtain ⟨hin, hne⟩ := hfront other hother
    exact (hothers other hin hne).2
  · rw [List.length_append, List.length_singleton]
    intro other hother
    obtain ⟨hin, hne⟩ := hback other hother
    rw [(hothers other (List.mem_of_mem_drop hin) hne).1]
    exact h.empty other hin
  · intro g hg
    rcases List.mem_append.1 hg with hg | hg
    · refine (h.keeps g hg).congr ?_
      intro q hq
      have htaken := mem_takenBy hg hq
      have hdata := h.data q htaken
      rw [hwritten.others q hdata.1 hdata.ne_tablePlace (hold q htaken)]
      exact sector_announced_of_ne hslotDisk hdata.1 (h.ne_of_mem hslotDir hdata)
        hdata.ne_tablePlace
    · obtain rfl := List.mem_singleton.1 hg
      exact
        { chain := hwritten.chain
          countable := hwritten.countable
          contents := hwritten.contents.trans (flatten_blocksOf hhigh)
          length := hwritten.length.trans (length_blocksOf _ _) }
  · intro q hq
    rw [takenBy, List.flatMap_append, List.mem_append, List.flatMap_singleton] at hq
    rcases hq with hq | hq
    · exact h.data q hq
    · exact (mem_freePlaces.1 (hfresh q hq)).1
  · rw [takenBy, List.flatMap_append, List.flatMap_singleton]
    refine List.nodup_append.2 ⟨h.apart, hwritten.nodup, ?_⟩
    rintro a ha b hb rfl
    exact hold a ha hb
  · intro q hq
    rw [hwritten.isFree q hq, hisFree q hq, takenBy, List.flatMap_append, List.flatMap_singleton,
      List.mem_append, ← or_assoc, ← takenBy, ← h.used q hq]
    by_cases hin : q ∈ f.chain
    · simp [hin]
    · have hne : q ≠ f.start := fun heq => hin (heq ▸ hstartIn)
      simp [hin, hne]
  · rw [List.map_append, List.map_singleton]
    refine List.nodup_append.2 ⟨h.names, List.nodup_singleton _, ?_⟩
    rintro a ha b hb rfl
    exact hname (List.mem_singleton.1 hb ▸ ha)

/-- A file that fits is stored in the next slot. -/
theorem store (h : d.Holds dir files) (hslot : (slotsOf dir)[files.length]? = some slot)
    (hname : padded nameLength name ∉ files.map Stored.written) (htype : type ≠ 0)
    (hroom : blocksFor body.length ≤ d.freePlaces.length) :
    ∃ d' start chain, d.store slot type name body = (d', .ok ()) ∧
      d'.Holds dir (files ++ [⟨name, type, body, start, chain⟩]) := by
  obtain ⟨hindex, hslotEq⟩ := List.getElem?_eq_some_iff.1 hslot
  obtain ⟨hslotDir, hslotLt⟩ := mem_slotsOf.1 (hslotEq ▸ List.getElem_mem hindex)
  obtain ⟨d', start, chain, hstore, hstart, hwritten⟩ := @store_written _ _ name _ type
    _ (h.track _ hslotDir).2 (h.ne_tablePlace_of_mem hslotDir) hroom
  refine ⟨d', start, chain, hstore, ?_⟩
  exact h.written (f := ⟨name, type, body, start, chain⟩) hslot hname htype hstart hwritten

/-- What becomes of a file that is to be added: the first of the reasons against it that applies, or
it is stored. -/
theorem add (h : d.Holds dir files) (name : Bytes) (htype : type ≠ 0) (body : Bytes) :
    (padded nameLength name ∈ files.map Stored.written ∧
      ∃ holder, d.add name type body = (d, .error (.taken holder))) ∨
    padded nameLength name ∉ files.map Stored.written ∧
      (d.freeBlocks < blocksFor body.length ∧
        d.add name type body =
          (d, .error (.tooManyBlocks name (blocksFor body.length) d.freeBlocks)) ∨
      blocksFor body.length ≤ d.freeBlocks ∧
        (files.length = 144 ∧ d.add name type body = (d, .error .directoryFull) ∨
        files.length < 144 ∧ ∃ d' dir' start chain, d.add name type body = (d', .ok ()) ∧
          d'.Holds dir' (files ++ [⟨name, type, body, start, chain⟩]))) := by
  unfold Disk.add
  rw [h.directory]
  simp only
  rw [h.entries_eq]
  by_cases hname : padded nameLength name ∈ files.map Stored.written
  · obtain ⟨e, hnamed⟩ := Option.ne_none_iff_exists'.1
      (mt (named?_eq_none_iff files name).1 (not_not.2 hname))
    rw [hnamed]
    exact .inl ⟨hname, e.name, rfl⟩
  · right
    refine ⟨hname, ?_⟩
    rw [(named?_eq_none_iff files name).2 hname]
    simp only
    by_cases hroom : d.freeBlocks < blocksFor body.length
    · rw [if_pos hroom]
      exact .inl ⟨hroom, rfl⟩
    · rw [if_neg hroom]
      refine .inr ⟨Nat.le_of_not_lt hroom, ?_⟩
      rcases h.takeSlot with ⟨hnone, hlength⟩ | ⟨slot, prepared, dir', htake, hprepared⟩
      · rw [hnone]
        exact .inl ⟨hlength, rfl⟩
      · rw [htake]
        right
        rw [freeBlocks_eq h.counts, ← hprepared.free] at hroom
        obtain ⟨d', start, chain, hstore, hholds⟩ :=
          hprepared.holds.store hprepared.next hname htype (Nat.le_of_not_lt hroom)
        refine ⟨?_, d', dir', start, chain, hstore, hholds⟩
        have hindex := (List.getElem?_eq_some_iff.1 hprepared.next).1
        have hmost := hprepared.holds.length_dir_le
        rw [length_slotsOf, slotsPerSector] at hindex
        omega

end Holds

end Breadbin.Disk

/-!
## Disks that files are added to

After any sequence of additions to an empty disk, the directory lists the files that were added, in
order, each of them is read back as it was given, and the blocks they take are no longer free.  The
three structures that tell of this agree: the table of free sectors, the directory and the chains of
the files.
-/

namespace Breadbin.Disk

variable {d : Disk} {dir : List Place} {files : List Stored}

/-! ### The empty disk -/

/-- The table of an empty disk before the directory takes its sectors. -/
def emptyTable [Text.Folds] (name identity : Bytes) : Sector :=
  (((Sector.allFree tracks).setLink directoryStart).put 2 0x41).putAll 0x90 <|
    padded 16 name ++ [filler, filler] ++ padded 2 identity ++
      [filler, 0x32, 0x41, filler, filler, filler, filler]

theorem format_eq [Text.Folds] (name identity : Bytes) : format name identity =
    ((blank.change tablePlace fun _ => emptyTable name identity).use tablePlace |>.use
      directoryStart).change
      directoryStart fun s => s.setLink ⟨0, 0xFF⟩ := rfl

theorem emptyTable_sameTable [Text.Folds] (name identity : Bytes) :
    (emptyTable name identity).SameTable (Sector.allFree tracks) := by
  intro j hlow hhigh
  unfold emptyTable
  rw [Sector.byte_putAll_outside _ _ (.inl hhigh), Sector.byte_put_of_ne _ _ (by omega),
    Sector.byte_setLink_of_le _ _ (by omega)]

/-- An empty disk holds no files. -/
theorem format_holds [Text.Folds] (name identity : Bytes) :
    (format name identity).Holds [directoryStart] [] := by
  have hne : directoryStart ≠ tablePlace := by decide
  have htable : (blank.change tablePlace fun _ => emptyTable name identity).table =
      emptyTable name identity := sector_change_self tablePlace_onDisk
  have hsame := emptyTable_sameTable name identity
  have hsector : (format name identity).sector directoryStart = Sector.blank.setLink ⟨0, 0xFF⟩ := by
    rw [format_eq, sector_change_self directoryStart_onDisk,
      sector_use _ _ directoryStart_onDisk hne, sector_use _ _ directoryStart_onDisk hne,
      sector_change_of_ne tablePlace_onDisk directoryStart_onDisk hne.symm, sector_blank]
  have hisFree : ∀ q : Place, q.OnDisk →
      (format name identity).isFree q =
          (decide (q ≠ tablePlace) && decide (q ≠ directoryStart)) := by
    intro q hq
    have hfree : (blank.change tablePlace fun _ => emptyTable name identity).isFree q = true := by
      rw [isFree, htable, hsame.isFree hq.hasBit, Sector.isFree_allFree (Nat.le_refl _) hq.hasBit]
      exact decide_eq_true ⟨hq.track_range.2, hq⟩
    rw [format_eq, isFree_change directoryStart_onDisk hne, isFree_use _ directoryStart_onDisk hq,
      isFree_use _ tablePlace_onDisk hq, hfree, Bool.true_and]
  refine
    { counts := ?_
      chain := .last directoryStart_onDisk ?_
      track := ?_
      nodup := by decide
      short := Nat.le_refl 0
      filled := by simp
      entries := by simp
      empty := ?_
      keeps := by simp
      data := by simp [takenBy]
      apart := List.nodup_nil
      used := ?_
      names := List.nodup_nil }
  · rw [format_eq, table_change directoryStart_onDisk hne]
    refine counts_use (counts_use ?_ tablePlace_onDisk) directoryStart_onDisk
    rw [htable]
    exact hsame.counts Sector.counts_allFree
  · rw [hsector, Sector.byte_zero_setLink]
    rfl
  · intro p hp
    obtain rfl := List.mem_singleton.1 hp
    exact ⟨rfl, directoryStart_onDisk⟩
  · intro slot hslot
    have hin := List.mem_singleton.1 (mem_slotsOf.1 (List.mem_of_mem_drop hslot)).1
    rw [slotFree, hin, hsector, Sector.slotFree, Sector.byte_setLink_of_le _ _ (by omega),
      Sector.byte_blank]
    rfl
  · intro q hq
    rw [hisFree q hq]
    simp [takenBy, or_iff_not_imp_left]

/-! ### Sequences of additions -/

/-- The disk after some program files were to be added to it, each under a name. -/
def addPrgs [Text.Folds] (d : Disk) : List (Bytes × Prg) → Disk
  | [] => d
  | r :: rest => (d.addPrg r.1 r.2).1.addPrgs rest

/-- Those of the files that were added. -/
def added [Text.Folds] (d : Disk) : List (Bytes × Prg) → List (Bytes × Prg)
  | [] => []
  | r :: rest =>
    match d.addPrg r.1 r.2 with
    | (d', .ok ()) => r :: d'.added rest
    | (d', .error _) => d'.added rest

/-- A file of a disk is the program file of a name. -/
structure Stored.IsPrg (f : Stored) (r : Bytes × Prg) : Prop where
  name : f.name = r.1
  type : f.type = closedProgram
  body : f.body = r.2.contents
  fits : r.2.Fits

/-- A program file is added or leaves the disk as it is. -/
theorem Holds.addPrg [Text.Folds] (h : d.Holds dir files) (r : Bytes × Prg) :
    (∃ e, d.addPrg r.1 r.2 = (d, .error e)) ∨
      ∃ d' dir' f, d.addPrg r.1 r.2 = (d', .ok ()) ∧ d'.Holds dir' (files ++ [f]) ∧ f.IsPrg r := by
  unfold Disk.addPrg Prg.toBytes Prg.checked
  by_cases hfits : r.2.Fits
  · rw [if_pos hfits]
    have htype : closedProgram ≠ 0 := by decide
    rcases h.add r.1 htype r.2.contents with
      ⟨-, holder, hadd⟩ | ⟨-,
        ⟨-, hadd⟩ | ⟨-, ⟨-, hadd⟩ | ⟨-, d', dir', start, chain, hadd, hholds⟩⟩⟩
    · exact .inl ⟨_, hadd⟩
    · exact .inl ⟨_, hadd⟩
    · exact .inl ⟨_, hadd⟩
    · exact .inr ⟨d', dir', _, hadd, hholds, rfl, rfl, rfl, hfits⟩
  · rw [if_neg hfits]
    exact .inl ⟨_, rfl⟩

/-- What a sequence of additions leaves behind. -/
theorem Holds.addPrgs [Text.Folds] (h : d.Holds dir files) (requests : List (Bytes × Prg)) :
    ∃ dir' more, (d.addPrgs requests).Holds dir' (files ++ more) ∧
      List.Forall₂ Stored.IsPrg more (d.added requests) := by
  induction requests generalizing d dir files with
  | nil => exact ⟨dir, [], by rwa [List.append_nil], .nil⟩
  | cons r rest ih =>
    unfold Disk.addPrgs Disk.added
    rcases h.addPrg r with ⟨e, hrefused⟩ | ⟨d', dir', f, hadded, hholds, hprg⟩
    · rw [hrefused]
      exact ih h
    · rw [hadded]
      obtain ⟨dir'', more, hmore, hprgs⟩ := ih hholds
      exact ⟨dir'', f :: more, by rwa [List.append_assoc] at hmore, .cons hprg hprgs⟩

theorem format_addPrgs [Text.Folds] (name identity : Bytes) (requests : List (Bytes × Prg)) :
    ∃ dir files, ((format name identity).addPrgs requests).Holds dir files ∧
      List.Forall₂ Stored.IsPrg files ((format name identity).added requests) := by
  obtain ⟨dir, files, hholds, hprgs⟩ := (format_holds name identity).addPrgs requests
  exact ⟨dir, files, hholds, hprgs⟩

/-! ### What the directory and the files tell -/

/-- The number of blocks of a program file. -/
def blocksOfPrg (p : Prg) : Nat := max 1 ((2 + p.data.length + 253) / 254)

/-- An entry of the directory tells of a program file of a name. -/
structure Entry.Tells [Text.Folds] (e : Entry) (r : Bytes × Prg) : Prop where
  type : e.type = 0x82
  name : e.name = Text.Petscii.decode ((Text.Petscii.encode r.1).take 16)
  codes : Text.Petscii.encode (Text.bytesOf e.name) = (Text.Petscii.encode r.1).take 16
  blocks : e.blocks.toNat = blocksOfPrg r.2

theorem length_contents (p : Prg) : p.contents.length = 2 + p.data.length := by
  rw [Prg.contents, List.length_cons, List.length_cons]
  omega

theorem Prg.parse_contents {p : Prg} (h : p.Fits) : Prg.parse p.contents = .ok p := by
  have hload : p.load.toUInt8.toUInt16 + (p.load >>> 8).toUInt8.toUInt16 * 256 = p.load := by
    apply UInt16.toNat_inj.1
    have := p.load.toNat_lt
    simp [UInt16.toNat_shiftRight, Nat.shiftRight_eq_div_pow]
    omega
  show Prg.checked ⟨p.load.toUInt8.toUInt16 + (p.load >>> 8).toUInt8.toUInt16 * 256, p.data⟩ = .ok p
  rw [hload]
  exact if_pos h

variable {f : Stored} {r : Bytes × Prg}

theorem Stored.IsPrg.blocks (h : f.IsPrg r) : blocksFor f.body.length = blocksOfPrg r.2 := by
  rw [h.body, length_contents]
  rfl

theorem Stored.IsPrg.tells [Text.Folds] (h : f.IsPrg r) : f.entry.Tells r := by
  refine ⟨h.type, ?_, ?_, ?_⟩
  · rw [← h.name]
    exact unpadded_padded nameLength f.name
  · rw [← h.name]
    exact encode_unpadded nameLength f.name
  · have hfits := h.fits
    unfold Prg.Fits Prg.stop at hfits
    rw [Stored.entry, h.blocks, UInt16.toNat_ofNat', blocksOfPrg]
    omega

/-- Every program file of a disk is read back. -/
theorem Holds.readPrg [Text.Folds] (h : d.Holds dir files) {kept : List (Bytes × Prg)}
    (hprgs : List.Forall₂ Stored.IsPrg files kept) (hr : r ∈ kept) : d.readPrg r.1 = .ok r.2 := by
  obtain ⟨i, hi, hir⟩ := List.getElem_of_mem hr
  have hif : i < files.length := hprgs.length_eq.symm ▸ hi
  have hprg : files[i].IsPrg r := hir ▸ hprgs.get hif hi
  have hread := h.read (List.getElem_mem hif)
  rw [hprg.name, hprg.body] at hread
  unfold Disk.readPrg
  rw [hread]
  exact Prg.parse_contents hprg.fits

/-- **Files on a disk.**  However many program files are added to an empty disk, and whichever of
them are refused: the directory lists the ones that were added, in order, each is read back with its
load address and its bytes, and what they do not take is free. -/
theorem files_addPrgs [Text.Folds] (name identity : Bytes) (requests : List (Bytes × Prg)) :
    let d := (format name identity).addPrgs requests
    let kept := (format name identity).added requests
    (∃ entries, d.files = .ok entries ∧ List.Forall₂ Entry.Tells entries kept) ∧
      (∀ r ∈ kept, d.readPrg r.1 = .ok r.2) ∧
      d.freeBlocks + (kept.map fun r => blocksOfPrg r.2).sum = 664 := by
  intro d kept
  obtain ⟨dir, files, hholds, hprgs⟩ := format_addPrgs name identity requests
  refine ⟨⟨files.map Stored.entry, hholds.files_eq, ?_⟩, ?_, ?_⟩
  · exact List.forall₂_map_left_iff.2 (hprgs.imp fun _ _ hprg => hprg.tells)
  · exact fun r hr => hholds.readPrg hprgs hr
  · have hblocks : files.map (fun f => blocksFor f.body.length) = kept.map fun r =>
        blocksOfPrg r.2 := by
      have hboth := hprgs.imp (S := fun f r => blocksFor f.body.length = blocksOfPrg r.2)
        fun _ _ hprg => hprg.blocks
      rw [← List.forall₂_eq_eq_eq]
      exact List.forall₂_map_left_iff.2 (List.forall₂_map_right_iff.2 hboth)
    have hsum := hholds.length_freePlaces
    rw [hholds.length_takenBy, hblocks, ← freeBlocks_eq hholds.counts] at hsum
    exact hsum

/-- **Allocation of sectors.**  On every disk that files were added to, the counts of the table are
those of its bits, no bit is set for a sector that there is not, the directory is a chain on its own
track that takes the sectors used there, and the chains of the files take all other used sectors,
none of them twice. -/
theorem allocation_addPrgs [Text.Folds] (name identity : Bytes) (requests : List (Bytes × Prg)) :
    let d := (format name identity).addPrgs requests
    (∀ track, 1 ≤ track → track ≤ 35 →
      (d.table.byte (4 * track)).toNat =
        ((List.range 24).filter fun s => d.isFree ⟨track, s⟩).length ∧
      ∀ s < 24, d.isFree ⟨track, s⟩ = true → s < sectorsOn track) ∧
    ∃ dir entries chains,
      d.Chain directoryStart dir ∧ dir.Nodup ∧ (∀ p ∈ dir, p.InDirectory) ∧
      (∀ p : Place, p.InDirectory → (d.isFree p = false ↔ p = tablePlace ∨ p ∈ dir)) ∧
      d.files = .ok entries ∧
      List.Forall₂ (fun e chain => d.Chain e.start chain ∧ chain.Nodup ∧
        e.blocks.toNat = chain.length)
        entries chains ∧
      chains.Pairwise List.Disjoint ∧
      (∀ chain ∈ chains, ∀ p ∈ chain, p.ForData) ∧
      ∀ p : Place, p.ForData → (d.isFree p = false ↔ ∃ chain ∈ chains, p ∈ chain) := by
  intro d
  obtain ⟨dir, files, hholds, hprgs⟩ := format_addPrgs name identity requests
  refine ⟨?_, dir, files.map Stored.entry, files.map (·.chain), hholds.chain,
    (List.nodup_cons.1 hholds.nodup).2, hholds.track, ?_, hholds.files_eq, ?_, ?_, ?_, ?_⟩
  · intro track hlow hhigh
    refine ⟨?_, fun s hs hfree => hholds.counts.onDisk ⟨track, s⟩ ⟨hlow, hhigh, hs⟩ hfree⟩
    rw [← List.countP_eq_length_filter]
    exact hholds.counts.count track hlow hhigh
  · intro p hp
    rw [hholds.used p hp.2, List.mem_cons]
    constructor
    · rintro (hdir | htaken)
      · exact hdir
      · exact absurd rfl ((hholds.data p htaken).ne_of_inDirectory hp)
    · exact .inl
  · refine List.forall₂_map_left_iff.2 (List.forall₂_map_right_iff.2 (List.forall₂_same.2 ?_))
    intro f hf
    have hkeeps := hholds.keeps f hf
    refine ⟨hkeeps.chain, (List.nodup_flatMap.1 hholds.apart).1 f hf, ?_⟩
    have hnodup := (List.nodup_flatMap.1 hholds.apart).1 f hf
    have hpart := (hnodup.subperm fun q hq => Holds.mem_takenBy hf hq).length_le
    have hsum := hholds.length_freePlaces
    rw [Stored.entry, hkeeps.length, UInt16.toNat_ofNat', ← hkeeps.length]
    omega
  · exact List.pairwise_map.2 (List.nodup_flatMap.1 hholds.apart).2
  · intro chain hchain p hp
    obtain ⟨f, hf, rfl⟩ := List.mem_map.1 hchain
    exact hholds.data p (Holds.mem_takenBy hf hp)
  · intro p hp
    rw [hholds.used p hp.1]
    constructor
    · rintro (hdir | htaken)
      · rcases List.mem_cons.1 hdir with rfl | hdir
        · exact absurd rfl hp.ne_tablePlace
        · exact absurd rfl (hholds.ne_of_mem hdir hp)
      · obtain ⟨f, hf, hmem⟩ := List.mem_flatMap.1 htaken
        exact ⟨f.chain, List.mem_map_of_mem hf, hmem⟩
    · rintro ⟨chain, hchain, hmem⟩
      obtain ⟨f, hf, rfl⟩ := List.mem_map.1 hchain
      exact .inr (Holds.mem_takenBy hf hmem)

end Breadbin.Disk
