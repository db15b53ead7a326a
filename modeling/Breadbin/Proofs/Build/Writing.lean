import Breadbin.Build.Output
import Breadbin.Proofs.Compilation.Caching
import Breadbin.Proofs.Disk.Runs

/-!
# What writing the output leaves behind

When all that is written is written without an error, a disk holds every image under the name of its
program.  Program files hold every image as well, except that the file of one program takes the
place of an earlier one at the same path: unlike a disk, a directory does not refuse a name it
already has.
-/

namespace Breadbin

/-! ## Files that are written one after the other -/

namespace FileTree

variable {t t' : FileTree} {path : Bytes} {contents : Bytes} {spot : List Bytes}

/-- Writing puts the contents where the path leads to, unless there is a directory. -/
theorem write_eq_ok (h : t.write path contents = .ok t') :
    ∃ place, t.place path = .ok place ∧ t.node? place ≠ some .directory ∧
      t' = t.set place (.file contents) := by
  unfold write at h
  split at h
  · cases h
  next place hplace =>
    split at h
    · cases h
    next hnode => exact ⟨place, hplace, hnode, (Except.ok.inj h).symm⟩

theorem node?_set (n : FileNode) (hspot : spot ≠ []) (q : List Bytes) :
    (t.set spot n).node? q = if q = spot then some n else t.node? q := by
  unfold node? set
  by_cases hq : q = spot
  · simp [hq, hspot]
  · rw [List.lookup_cons, beq_eq_false_iff_ne.2 hq, if_neg hq]
    exact congrArg (if q.isEmpty then some FileNode.directory else ·) (lookup_filter_ne hq t.nodes)

/-- A path leads to where it did before a file was written. -/
theorem follow_set (hspot : t.node? spot ≠ some .directory) (names : List Bytes)
    {start found : List Bytes}
    (h : t.follow start names = .ok found) :
    (t.set spot (.file contents)).follow start names = .ok found := by
  have hne : spot ≠ [] := by
    rintro rfl
    exact hspot rfl
  have hblocked (q : List Bytes) (hq : t.blocked? q = none) :
      (t.set spot (.file contents)).blocked? q = none := by
    unfold blocked? at hq ⊢
    have hqspot : q ≠ spot := by
      rintro rfl
      split at hq <;> simp_all
    rwa [node?_set _ hne, if_neg hqspot]
  induction names generalizing start with
  | nil => exact h
  | cons name names ih =>
    unfold follow at h ⊢
    cases hstart : t.blocked? start with
    | some cause => rw [hstart] at h; cases h
    | none =>
      rw [hstart] at h
      rw [hblocked start hstart]
      dsimp only at h ⊢
      split
      next hname => exact ih (by rwa [if_pos hname] at h)
      next hname =>
        rw [if_neg hname] at h
        split
        next hup => exact ih (by rwa [if_pos hup] at h)
        next hup =>
          rw [if_neg hup] at h
          split
          next hlong => rw [if_pos hlong] at h; cases h
          next hlong => exact ih (by rwa [if_neg hlong] at h)

/-- One tree of files is left by another when some files are written, one after the other. -/
inductive Leaves : FileTree → List (Bytes × Bytes) → FileTree → Prop
  | nil (t : FileTree) : Leaves t [] t
  | cons {t t' t'' : FileTree} {path : Bytes} {contents : Bytes} {files : List (Bytes × Bytes)}
      (write : t.write path contents = .ok t') (rest : Leaves t' files t'') :
      Leaves t ((path, contents) :: files) t''

namespace Leaves

variable {files : List (Bytes × Bytes)}

theorem place (h : Leaves t files t') {path : Bytes} {place : List Bytes}
    (hplace : t.place path = .ok place) :
    t'.place path = .ok place := by
  induction h with
  | nil => exact hplace
  | @cons t t' t'' written contents files hwrite hrest ih =>
    refine ih ?_
    obtain ⟨q, hq, hnode, rfl⟩ := write_eq_ok hwrite
    unfold FileTree.place at hplace ⊢
    split at hplace
    · cases hplace
    next hempty =>
      rw [if_neg hempty]
      split at hplace
      · cases hplace
      next hinvalid =>
        rw [if_neg hinvalid]
        exact follow_set hnode _ hplace

/-- What no written file has as its place is left as it was. -/
theorem node? (h : Leaves t files t') {q : List Bytes} (hq : ∀ f ∈ files, t'.place f.1 ≠ .ok q) :
    t'.node? q = t.node? q := by
  induction h with
  | nil => rfl
  | @cons t t' t'' path contents files hwrite hrest ih =>
    rw [ih fun f hf => hq f (List.mem_cons_of_mem _ hf)]
    have hhead := hq _ List.mem_cons_self
    obtain ⟨place, hplace, hnode, rfl⟩ := write_eq_ok hwrite
    have hne : place ≠ [] := by
      rintro rfl
      exact hnode rfl
    rw [node?_set _ hne, if_neg]
    rintro rfl
    exact hhead ((Leaves.cons hwrite hrest).place hplace)

/-- A written file holds what was written to it, unless a later one is at the same place. -/
theorem read (h : Leaves t files t') {before after : List (Bytes × Bytes)} {path : Bytes}
    {contents : Bytes} (hfiles : files = before ++ (path, contents) :: after)
    (hlater : ∀ f ∈ after, t'.place f.1 ≠ t'.place path) : t'.read path = .ok contents := by
  induction h generalizing before with
  | nil => simp at hfiles
  | @cons t t' t'' path' contents' files hwrite hrest ih =>
    cases before with
    | cons f before =>
      obtain ⟨-, rfl⟩ := List.cons_eq_cons.1 hfiles
      exact ih rfl hlater
    | nil =>
      obtain ⟨heq, rfl⟩ := List.cons_eq_cons.1 hfiles
      obtain ⟨rfl, rfl⟩ := Prod.mk.inj heq
      have hwhole := Leaves.cons hwrite hrest
      obtain ⟨place, hplace, hnode, rfl⟩ := write_eq_ok hwrite
      have hne : place ≠ [] := by
        rintro rfl
        exact hnode rfl
      have hfinal := hwhole.place hplace
      have hheld : t''.node? place = some (.file contents') := by
        rw [hrest.node? fun f hf hf' => hlater f hf (hf'.trans hfinal.symm),
          node?_set _ hne, if_pos rfl]
      unfold FileTree.read look
      rw [hfinal]
      dsimp only
      rw [hheld]

end Leaves

end FileTree

/-! ## Disks that are written and read again -/

namespace Disk

theorem sectorsOf_toList (sectors : List Sector) :
    sectorsOf sectors.length (sectors.flatMap (·.toList)) = sectors := by
  induction sectors with
  | nil => rfl
  | cons s sectors ih =>
    have hsize : s.toList.length = 256 := s.length_toList
    have hfirst : Sector.blank.putAll 0 s.toList = s := by
      have hslice := Sector.slice_putAll (i := 0) Sector.blank s.toList (by omega)
      unfold Sector.slice at hslice
      rw [List.drop_zero, List.take_of_length_le (by rw [hsize, Vector.length_toList])] at hslice
      exact Vector.toList_inj.1 hslice
    rw [List.flatMap_cons, List.length_cons, sectorsOf, List.take_left' hsize,
      List.drop_left' hsize, hfirst, ih]

/-- The image of a disk is read as that disk. -/
theorem parse_toBytes (d : Disk) : parse d.toBytes = .ok d := by
  have hcount : d.sectors.toList.length = 683 := d.sectors.length_toList
  have hsize : d.toBytes.length = imageSize := by
    have hsectors (s : Sector) : s.toList.length = 256 := s.length_toList
    rw [toBytes, List.length_flatMap, List.map_congr_left fun s _ => hsectors s, List.map_const',
      List.sum_replicate_nat, hcount]
    rfl
  have hread := sectorsOf_toList d.sectors.toList
  rw [hcount, ← toBytes] at hread
  unfold parse
  simp only [hsize, true_or, if_true, Except.ok.injEq]
  congr 1
  refine Vector.toArray_inj.1 ?_
  show (sectorsOf 683 d.toBytes).toArray = d.sectors.toArray
  rw [hread, Vector.toArray_toList]

end Disk

/-! ## Images that are written -/

namespace Work

/-- Telling leaves the files alone. -/
theorem within_tell (news : Build.Progress) (s : Session) (w : World) :
    ∃ w', (tell news).within s w = (((), s), w') ∧ w'.files = w.files := by
  unfold tell
  rw [within_bind, within_ask, within_bind]
  have hget (w : World) : (get : Work Session).within s w = ((s, s), w) := rfl
  rw [hget]
  dsimp only
  split
  · exact ⟨_, within_ask _ s _, rfl⟩
  · exact ⟨_, within_pure _ s _, rfl⟩

end Work

namespace Build

/-- The program that an outcome has, with its name. -/
def Outcome.program? (o : Outcome) : Option (Bytes × Prg) :=
  o.image?.map fun image => (o.name, .ofImage image)

/-- A program file, with what it holds. -/
def programFile (directory : String) (r : Bytes × Prg) : Bytes × Bytes :=
  (programPath directory r.1, r.2.contents)

variable {directory : String} {outcomes : List Outcome} {s : Session} {w : World}

variable (directory) in
theorem within_writeProgramFile (o : Outcome) (image : Image) :
    (∃ cause, (writeProgramFile directory o image).within s w = ((.error cause, s), w)) ∨
      ∃ files, w.files.write (programPath directory o.name) (Prg.ofImage image).contents =
        .ok files ∧
        (writeProgramFile directory o image).within s w =
          ((.ok (programPath directory o.name), s), { w with files }) := by
  unfold writeProgramFile
  cases hbytes : (Prg.ofImage image).toBytes with
  | error e => exact .inl ⟨_, rfl⟩
  | ok contents =>
    have hcontents : contents = (Prg.ofImage image).contents := by
      unfold Prg.toBytes Prg.checked at hbytes
      split at hbytes
      · exact (Except.ok.inj hbytes).symm
      · cases hbytes
    subst hcontents
    dsimp only
    rw [Work.within_bind, Work.within_ask]
    simp only [World.answer]
    cases hwrite : w.files.write (programPath directory o.name) (Prg.ofImage image).contents with
    | error e =>
      exact .inl ⟨.file e, by simp only [World.settle]; rfl⟩
    | ok files =>
      refine .inr ⟨files, rfl, ?_⟩
      simp only [World.settle]
      rfl

variable (directory) in
/-- When no program file is missing, they are the ones that were written. -/
theorem writeProgramFiles_leaves (outcomes : List Outcome) (s : Session) (w : World)
    (hcauses : ((writeProgramFiles directory outcomes).within s w).1.1.2 = []) :
    let files := (outcomes.filterMap (·.program?)).map (programFile directory)
    ((writeProgramFiles directory outcomes).within s w).1.1.1 = files.map (·.1) ∧
      w.files.Leaves files ((writeProgramFiles directory outcomes).within s w).2.files := by
  induction outcomes generalizing w with
  | nil => exact ⟨rfl, .nil _⟩
  | cons o outcomes ih =>
    unfold writeProgramFiles at hcauses ⊢
    cases himage : o.image? with
    | none =>
      rw [himage] at hcauses
      have hnone : o.program? = none := by rw [Outcome.program?, himage]; rfl
      rw [List.filterMap_cons_none hnone]
      exact ih w hcauses
    | some image =>
      rw [himage] at hcauses
      have hsome : o.program? = some (o.name, .ofImage image) := by
        rw [Outcome.program?, himage]; rfl
      rw [List.filterMap_cons_some hsome]
      dsimp only at hcauses ⊢
      obtain ⟨w₁, htold, hfiles₁⟩ := Work.within_tell
        { file := Text.shown o.path, stage := .write, status := .working } s w
      rw [Work.within_bind, htold, Work.within_bind] at hcauses ⊢
      dsimp only at hcauses ⊢
      rcases within_writeProgramFile directory (s := s) (w := w₁) o image with
        ⟨cause, hwritten⟩ | ⟨files, hwrite, hwritten⟩
      · rw [hwritten] at hcauses
        dsimp only at hcauses
        rw [Work.within_bind, Work.within_bind] at hcauses
        cases hcauses
      · rw [hwritten] at hcauses ⊢
        dsimp only at hcauses ⊢
        obtain ⟨w₂, htold₂, hfiles₂⟩ := Work.within_tell
          { file := Text.shown o.path, stage := .write, status := .done } s { w₁ with files }
        rw [Work.within_bind, htold₂, Work.within_bind] at hcauses ⊢
        dsimp only at hcauses ⊢
        obtain ⟨hpaths, hleaves⟩ := ih w₂ hcauses
        rw [hfiles₁] at hwrite
        rw [hfiles₂] at hleaves
        exact ⟨congrArg (programPath directory o.name :: ·) hpaths, .cons hwrite hleaves⟩

/-- A disk that is filled with programs holds them. -/
theorem fillDisk_holds {d d' : Disk} {dir : List Disk.Place} {files : List Disk.Stored}
    (h : d.Holds dir files) (outcomes : List Outcome) (s : Session) (w : World)
    (hfilled : ((fillDisk d outcomes).within s w).1.1 = .ok d') :
    ∃ dir' more, d'.Holds dir' (files ++ more) ∧
      List.Forall₂ Disk.Stored.IsPrg more (outcomes.filterMap (·.program?)) := by
  induction outcomes generalizing d dir files w with
  | nil =>
    obtain rfl := Except.ok.inj hfilled
    exact ⟨dir, [], by rwa [List.append_nil], .nil⟩
  | cons o outcomes ih =>
    unfold fillDisk at hfilled
    cases himage : o.image? with
    | none =>
      rw [himage] at hfilled
      have hnone : o.program? = none := by rw [Outcome.program?, himage]; rfl
      rw [List.filterMap_cons_none hnone]
      exact ih h w hfilled
    | some image =>
      rw [himage] at hfilled
      have hsome : o.program? = some (o.name, .ofImage image) := by
        rw [Outcome.program?, himage]; rfl
      rw [List.filterMap_cons_some hsome]
      dsimp only at hfilled
      rcases h.addPrg (o.name, .ofImage image) with ⟨e, hrefused⟩ | ⟨d₁, dir₁, f,
        hadded, hholds, hprg⟩
      · dsimp only at hrefused
        rw [hrefused] at hfilled
        dsimp only at hfilled
        rw [Work.within_bind] at hfilled
        cases hfilled
      · dsimp only at hadded
        rw [hadded] at hfilled
        dsimp only at hfilled
        obtain ⟨w₁, htold, -⟩ :=
          Work.within_tell { file := Text.shown o.path, stage := .write, status := .done } s w
        rw [Work.within_bind, htold] at hfilled
        obtain ⟨dir', more, hmore, hprgs⟩ := ih hholds w₁ hfilled
        exact ⟨dir', f :: more, by rwa [List.append_assoc] at hmore, .cons hprg hprgs⟩

variable {out : Output} {written : Written} {s' : Session} {w' : World}

/-- Output without an error is program files, or a disk. -/
theorem writeOutcomes_cases (hrun : (writeOutcomes out outcomes).within s w = ((written, s'), w'))
    (hok : written.error = none) : ∃ w₁,
    (Text.lower out.format = "" ∨ Text.lower out.format = "prg") ∧
        (writeProgramFiles (orElse out.directory ".") outcomes).within s w₁ =
          (((written.files, []), s'), w') ∨
      Text.lower out.format = "d64" ∧
        (writeDisk out (orElse out.directory ".") outcomes).within s w₁ = ((written, s'), w') := by
  unfold writeOutcomes at hrun
  rw [Work.within_bind] at hrun
  obtain ⟨reply, w₁, hreply⟩ : ∃ reply w₁,
      (Work.ask (.makeDirectories (orElse out.directory "."))).within s w = ((reply, s), w₁) :=
        ⟨_, _, rfl⟩
  rw [hreply] at hrun
  refine ⟨w₁, ?_⟩
  cases reply with
  | error e =>
    cases hrun
    cases hok
  | ok =>
    dsimp only at hrun
    split at hrun
    next hformat =>
      rw [Work.within_bind] at hrun
      rcases hfiles : (writeProgramFiles (orElse out.directory ".") outcomes).within s w₁
        with ⟨⟨⟨paths, causes⟩, s₂⟩, w₂⟩
      rw [hfiles] at hrun
      cases causes with
      | nil => cases hrun; exact .inl ⟨hformat, rfl⟩
      | cons cause causes => cases hrun; cases hok
    next =>
      split at hrun
      next hformat => exact .inr ⟨hformat, hrun⟩
      next => cases hrun; cases hok

/-- A disk that is written is found in its file, unless there is nothing to write. -/
theorem writeDisk_cases (hrun : (writeDisk out directory outcomes).within s w = ((written, s'), w'))
    (hok : written.error = none) (hsome : outcomes.all (·.failed) = false) :
    ∃ path, ∃ d : Disk, ∃ dir files, written.files = [path] ∧ w'.files.read path = .ok d.toBytes ∧
      d.Holds dir files ∧
        List.Forall₂ Disk.Stored.IsPrg files (outcomes.filterMap (·.program?)) := by
  unfold writeDisk at hrun
  rw [Work.within_bind] at hrun
  have hholds := Disk.format_holds (Text.bytesOf (orElse out.diskName "halfbyte"))
    (Text.bytesOf (orElse out.diskId "hb"))
  rcases hfill : (fillDisk (Disk.format (Text.bytesOf (orElse out.diskName "halfbyte"))
    (Text.bytesOf (orElse out.diskId "hb"))) outcomes).within s w with ⟨⟨result, s₁⟩, w₁⟩
  rw [hfill] at hrun
  cases result with
  | error cause => cases hrun; cases hok
  | ok d =>
    obtain ⟨dir, files, hd, hprgs⟩ := fillDisk_holds hholds outcomes s w (by rw [hfill])
    dsimp only at hrun
    rw [hsome, if_neg Bool.false_ne_true, Work.within_bind, Work.within_ask] at hrun
    generalize hpath : Text.Path.joined [Text.bytesOf directory,
      Text.bytesOf (Text.lower (orElse out.diskName "halfbyte") ++ ".d64")] = path at hrun
    simp only [World.answer] at hrun
    cases hwrite : w₁.files.write path d.toBytes with
    | error e =>
      simp only [hwrite, World.settle] at hrun
      cases hrun
      cases hok
    | ok written =>
      simp only [hwrite, World.settle] at hrun
      cases hrun
      refine ⟨path, d, dir, files, rfl, ?_, hd, hprgs⟩
      exact (FileTree.Leaves.cons hwrite (.nil _)).read
        (show [(path, _)] = [] ++ (path, _) :: [] from rfl) (by simp)

/-- **No output is lost** when output is written without an error.  A disk holds every image under
the name of its program.  A program file holds its image unless a later one is at the same place:
then it is the later one that is found there. -/
theorem outputs_kept (hrun : (writeOutcomes out outcomes).within s w = ((written, s'), w'))
    (hok : written.error = none) {before after : List Outcome} {o : Outcome} {image : Image}
    (houtcomes : outcomes = before ++ o :: after) (himage : o.image? = some image) :
    let path := programPath (orElse out.directory ".")
    ((Text.lower out.format = "" ∨ Text.lower out.format = "prg") ∧ path o.name ∈ written.files ∧
      ((∀ o' ∈ after, o'.failed = false →
        w'.files.place (path o'.name) ≠ w'.files.place (path o.name)) →
        w'.files.read (path o.name) = .ok (Prg.ofImage image).contents)) ∨
    (Text.lower out.format = "d64" ∧ ∃ disk contents d, written.files = [disk] ∧
      w'.files.read disk = .ok contents ∧ Disk.parse contents = .ok d ∧
      d.readPrg o.name = .ok (.ofImage image)) := by
  intro path
  have hprogram : o.program? = some (o.name, .ofImage image) := by
    rw [Outcome.program?, himage]; rfl
  have hprograms : outcomes.filterMap (·.program?) =
      before.filterMap (·.program?) ++ (o.name, .ofImage image) :: after.filterMap
          (·.program?) := by
    rw [houtcomes, List.filterMap_append, List.filterMap_cons_some hprogram]
  obtain ⟨w₁, ⟨hformat, hfiles⟩ | ⟨hformat, hdisk⟩⟩ := writeOutcomes_cases hrun hok
  · obtain ⟨hpaths, hleaves⟩ :=
      writeProgramFiles_leaves (orElse out.directory ".") outcomes s w₁ (by rw [hfiles])
    rw [hfiles, hprograms, List.map_append, List.map_cons] at hpaths hleaves
    refine .inl ⟨hformat, ?_, fun hlater => ?_⟩
    · dsimp only at hpaths
      rw [hpaths, List.map_append, List.map_cons]
      exact List.mem_append_right _ List.mem_cons_self
    · refine hleaves.read rfl fun f hf => ?_
      obtain ⟨r, hr, rfl⟩ := List.mem_map.1 hf
      obtain ⟨o', ho', hr'⟩ := List.mem_filterMap.1 hr
      obtain ⟨image', himage', rfl⟩ := Option.map_eq_some_iff.1 hr'
      exact hlater o' ho' (by rw [Outcome.failed, himage']; rfl)
  · have hsome : outcomes.all (·.failed) = false := by
      rw [List.all_eq_false]
      exact ⟨o, by rw [houtcomes]; exact List.mem_append_right _ List.mem_cons_self,
        by rw [Outcome.failed, himage]; simp⟩
    obtain ⟨disk, d, dir, files, hpaths, hread, hholds, hprgs⟩ := writeDisk_cases hdisk hok hsome
    refine .inr ⟨hformat, disk, d.toBytes, d, hpaths, hread, Disk.parse_toBytes d, ?_⟩
    have ho : o ∈ outcomes := by
      rw [houtcomes]
      exact List.mem_append_right _ List.mem_cons_self
    exact hholds.readPrg (r := (o.name, .ofImage image)) hprgs
      (List.mem_filterMap.2 ⟨o, ho, hprogram⟩)

/-- An outcome with an image of one byte. -/
def Outcome.ofByte (name : String) (byte : UInt8) : Outcome where
  path := Text.bytesOf (name ++ ".hbir")
  program := some { name := Text.bytesOf name }
  result := some { image := some { origin := 0x801, entry := 0x801, bytes := #[byte] } }

/-- Of three outcomes, two of one name, that are written to program files. -/
def namesakes : List Outcome := [.ofByte "game" 1, .ofByte "game" 2, .ofByte "tool" 3]

/-- The second of two programs of one name is kept. -/
theorem second_namesake_kept :
    let run := (writeOutcomes {} namesakes).within {} {}
    run.1.1.error = none ∧ run.2.files.read (Text.bytesOf "game.prg") = .ok [1, 8, 2] := by
  intro run
  have hrun : (writeOutcomes {} namesakes).within {} {} = ((run.1.1, run.1.2), run.2) := rfl
  have hok : run.1.1.error = none := by decide +kernel
  have hsplit : namesakes = [.ofByte "game" 1] ++ .ofByte "game" 2 :: [.ofByte "tool" 3] := rfl
  have hpath : programPath (orElse ({} : Output).directory ".") (Outcome.ofByte "game" 2).name =
      Text.bytesOf "game.prg" := by
    decide +kernel
  refine ⟨hok, ?_⟩
  rcases outputs_kept hrun hok hsplit rfl with ⟨-, -, hkept⟩ | ⟨hformat, -⟩
  · rw [← hpath]
    exact hkept (by decide +kernel)
  · exact absurd hformat (by decide +kernel)

end Build

end Breadbin
