import Breadbin.Proofs.Assembly.Trampolines
import Breadbin.Proofs.Lowering.Deeds
import Breadbin.Proofs.Machine.Clearing

/-!
# Clearing arrays

`clearRegion` writes one loop per page.  Its branches go back over two instructions, so they are
linked short wherever the code lies and whatever else the program has, and the linked bytes are
those of `clearing`.
-/

namespace Breadbin.Lowering

open Assembly Machine

variable {p : Program} {s : Emission} {base : UInt16} {n : Nat}

/-! ## Lines that are written -/

/-- Lowering succeeds and writes lines with a property. -/
def Produces (act : Lower Unit) (p : Program) (s : Emission) (P : List Line → Prop) : Prop :=
  ∃ s' ls, perform act p s = (.ok (), s') ∧ s.Writes s' ls ∧ P ls

namespace Produces

variable {x y : Lower Unit} {P Q : List Line → Prop}

theorem mono (h : Produces x p s P) (hPQ : ∀ ls, P ls → Q ls) : Produces x p s Q := by
  obtain ⟨s', ls, hperform, hwrites, hP⟩ := h
  exact ⟨s', ls, hperform, hwrites, hPQ ls hP⟩

theorem straight (act : Lower Unit) [h : Straight act] : Produces act p s (· = h.lines) :=
  ⟨_, _, h.performs p s, .writing s h.plain, rfl⟩

theorem bind (hx : Produces x p s P) (hy : ∀ s', Produces y p s' Q) :
    Produces (x >>= fun _ => y) p s fun ls => ∃ xs ys, P xs ∧ Q ys ∧ ls = xs ++ ys := by
  obtain ⟨s₁, xs, hperform, hwrites, hP⟩ := hx
  obtain ⟨s₂, ys, hperform', hwrites', hQ⟩ := hy s₁
  exact ⟨s₂, xs ++
    ys, by rw [perform_bind_ok hperform, hperform'], hwrites.trans hwrites', xs, ys, hP, hQ, rfl⟩

theorem label {name : String} {f : LabelId → Lower Unit} {P : LabelId → List Line → Prop}
    (h : ∀ l s', Produces (f l) p s' (P l)) : Produces (newLabel name >>= f) p s fun ls =>
      ∃ l, P l ls := by
  have hmade := Emission.Writes.labelled s (s.labels + 1) (Text.bytesOf s!"{name}_{s.labels + 1}")
  obtain ⟨s', ls, hperform, hwrites, hP⟩ := h s.workspace.nextLabel
    { s with labels := s.labels + 1, workspace :=
      s.workspace.labelled (Text.bytesOf s!"{name}_{s.labels + 1}") }
  exact ⟨s', ls, hperform, hmade.trans hwrites, _, hP⟩

end Produces

/-! ## The lines that clear a region -/

/-- The lines that clear a page of a region. -/
def clearingPageLines (base : UInt16) (n k : Nat) (l : LabelId) : List Line :=
  [.instr .ldx (.immediate (UInt8.ofNat (min (n - 256 * k) 256))), .bound l, .instr .dex .implied,
    .instr .sta (.absoluteX (.fixed (base + UInt16.ofNat (256 * k)))), .instr .bne (.relative l)]

/-- The lines that clear some pages of a region, each with a label of its own. -/
inductive ClearingPageLines (base : UInt16) (n : Nat) : List Nat → List Line → Prop where
  | nil : ClearingPageLines base n [] []
  | cons {k : Nat} {ks : List Nat} {ls : List Line} (l : LabelId)
      (rest : ClearingPageLines base n ks ls) :
      ClearingPageLines base n (k :: ks) (clearingPageLines base n k l ++ ls)

/-- The lines that clear a region. -/
inductive ClearingLines (base : UInt16) : Nat → List Line → Prop where
  | nothing : ClearingLines base 0 []
  | pages {n : Nat} {ls : List Line} (some : n ≠ 0)
      (pages : ClearingPageLines base n (List.range (clearingPages n)) ls) :
      ClearingLines base n (.instr .lda (.immediate 0) :: ls)

instance (mn : Mnemonic) (r : AddressRef) : Straight (emit mn (.absoluteX r)) where
  lines := [.instr mn (.absoluteX r)]
  performs _ _ := rfl
  plain := rfl

/-- Writes the code that clears a page of a region. -/
def clearPage (base : UInt16) (n k : Nat) : Lower Unit := do
  imm .ldx (UInt8.ofNat (min (n - 256 * k) 256))
  let again ← newLabel "clear"
  place again
  op .dex
  emit .sta (.absoluteX (.fixed (base + UInt16.ofNat (256 * k))))
  branchTo .bne again

theorem clearRegion_eq (base : UInt16) (n : Nat) :
    clearRegion base n = if n ≠ 0 then do
      imm .lda 0
      (List.range (clearingPages n)).forM (clearPage base n)
    else pure () := rfl

theorem clearPage_produces (k : Nat) :
    Produces (clearPage base n k) p s fun ls => ∃ l, ls = clearingPageLines base n k l := by
  refine ((Produces.straight (imm .ldx (UInt8.ofNat (min (n - 256 * k) 256)))).bind fun s' =>
    .label fun l s'' => .straight (do
      place l
      op .dex
      emit .sta (.absoluteX (.fixed (base + UInt16.ofNat (256 * k))))
      branchTo .bne l)).mono ?_
  rintro _ ⟨_, _, rfl, ⟨l, rfl⟩, rfl⟩
  exact ⟨l, rfl⟩

theorem clearPages_produces (ks : List Nat) :
    Produces (ks.forM (clearPage base n)) p s (ClearingPageLines base n ks) := by
  induction ks generalizing s with
  | nil => exact (Produces.straight (pure ())).mono fun ls h => h ▸ .nil
  | cons k ks ih =>
    refine (Produces.bind (clearPage_produces k) fun _ => ih).mono ?_
    rintro _ ⟨_, ys, ⟨l, rfl⟩, hys, rfl⟩
    exact .cons l hys

theorem clearRegion_produces (base : UInt16) (n : Nat) (p : Program) (s : Emission) :
    Produces (clearRegion base n) p s (ClearingLines base n) := by
  rw [clearRegion_eq]
  split
  next hn =>
    refine (Produces.bind (.straight (imm .lda 0)) fun _ => clearPages_produces _).mono ?_
    rintro _ ⟨_, ys, rfl, hys, rfl⟩
    exact .pages hn hys
  next hn =>
    obtain rfl : n = 0 := not_not.1 hn
    exact (Produces.straight (pure ())).mono fun ls h => h ▸ .nothing

/-! ## Their bytes -/

/-- The only way back over six bytes. -/
theorem displacement_of_back {a : Nat} {d : UInt8} (ha : 4 ≤ a) (hend : a < 0x10000)
    (h : (Opcode.branchTarget (UInt16.ofNat a) d).toNat = a - 4) : d = 0xFA := by
  have hd := d.toNat_lt
  apply UInt8.toNat_inj.1
  rw [Opcode.branchTarget] at h
  split at h
  next hlow =>
    rw [UInt8.lt_iff_toNat_lt] at hlow
    simp at h hlow
    omega
  next hhigh =>
    rw [UInt8.lt_iff_toNat_lt] at hhigh
    simp at h hhigh
    simp
    omega

variable {L : Listing} {image : Image} {env : Addresses} {u m v : List Placement}

/-- A line that needs no label is linked as it stands. -/
theorem bytes_of_plain {q : Placement} {line : Line} {bytes : List UInt8}
    (h : L.LinkedSparingly image env (u ++ q :: v))
    (hline : q.line = line) (hneeds : line.needs? = none) (hraw : line.raw = bytes)
    (halign : line.isAlign = false) :
    q.bytes = bytes := by
  subst hline
  rw [← hraw]
  exact h.fixed q (by simp) hneeds halign

/-- The branch of a page goes back over six bytes. -/
theorem bytes_of_clearing_branch {again dex sta bne : Placement} {l : LabelId}
    (h : L.LinkedSparingly image env (u ++ again :: ([dex, sta] ++ bne :: v)))
    (hstop : image.stop ≤ 0x10000)
    (hagain : again.line = .bound l) (hdex : dex.line = .instr .dex .implied)
    (hsta : ∃ r : AddressRef, sta.line = .instr .sta (.absoluteX r))
    (hbne : bne.line = .instr .bne (.relative l)) (hsizes : Placement.size [again, dex, sta] = 4) :
    bne.bytes = [0xD0, 0xFA] := by
  obtain ⟨r, hsta⟩ := hsta
  obtain ⟨hsome, henv⟩ := h.labels u again _ l rfl hagain
  have hshort : bne.isLong = false := by
    refine h.not_isLong hagain hbne ?_ ?_
    · intro q hq
      simp only [List.mem_cons, List.not_mem_nil, or_false] at hq
      rcases hq with rfl | rfl
      · rw [hdex]; rfl
      · rw [hsta]; rfl
    · have hraw : (Line.instr .sta (.absoluteX r)).raw.length = 3 := by
        cases hr : r.isLabel <;> simp [Line.raw, Arg.raw, hr, Arg.mode, wordBytes] <;> rfl
      simp only [List.map_cons, List.map_nil, hdex, hsta, List.flatMap_cons, List.flatMap_nil,
        List.length_append, hraw]
      decide
  have hsplit : u ++ again :: ([dex, sta] ++ bne :: v) = (u ++ [again, dex, sta]) ++
    bne :: v := by simp
  have hencodes := (hsplit ▸ h.assembled).split.1
  rw [hbne, Placement.size_append, hsizes] at hencodes
  generalize hbytes : bne.bytes = bytes at hencodes
  cases hencodes with
  | instr known fixed fits => simp [Arg.branch?, hsome] at fixed
  | @short _ _ code d known isSome lands =>
    have hend := (hsplit ▸ h).within
    rw [Placement.size_append, hsizes, hbytes, List.length_cons, List.length_singleton] at hend
    rw [henv, ← Nat.add_assoc] at lands
    obtain rfl : code = 0xD0 := by
      have : Opcode.encode? .bne .relative = some 0xD0 := by decide
      exact Option.some.inj (known.symm.trans this)
    obtain rfl : d = 0xFA :=
      displacement_of_back (a := image.origin.toNat + Placement.size u + 4)
        (by omega) (by omega) lands
    rfl
  | long inverts known isSome fits =>
    simp [Placement.isLong, hbne, hbytes, wordBytes] at hshort

/-- A page's lines are linked as the bytes of its code. -/
theorem bytes_of_clearingPageLines {k : Nat} {l : LabelId}
    (h : L.LinkedSparingly image env (u ++ m ++ v))
    (hstop : image.stop ≤ 0x10000) (hmid : m.map Placement.line = clearingPageLines base n k l) :
    m.flatMap Placement.bytes = clearingPageOf base n k := by
  obtain ⟨ldx, _, rfl, hldx, hmid⟩ := List.map_eq_cons_iff.1 hmid
  obtain ⟨again, _, rfl, hagain, hmid⟩ := List.map_eq_cons_iff.1 hmid
  obtain ⟨dex, _, rfl, hdex, hmid⟩ := List.map_eq_cons_iff.1 hmid
  obtain ⟨sta, _, rfl, hsta, hmid⟩ := List.map_eq_cons_iff.1 hmid
  obtain ⟨bne, _, rfl, hbne, hmid⟩ := List.map_eq_cons_iff.1 hmid
  obtain rfl := List.map_eq_nil_iff.1 hmid
  have hldx : ldx.bytes = [0xA2, UInt8.ofNat (min (n - 256 * k) 256)] :=
    bytes_of_plain (u := u) (by simpa using h) hldx rfl rfl rfl
  have hagain' : again.bytes = [] :=
    bytes_of_plain (u := u ++ [ldx]) (by simpa using h) hagain rfl rfl rfl
  have hdex' : dex.bytes = [0xCA] :=
    bytes_of_plain (u := u ++ [ldx, again]) (by simpa using h) hdex rfl rfl rfl
  have hsta' : sta.bytes = 0x9D :: wordBytes (base + UInt16.ofNat (256 * k)).toNat :=
    bytes_of_plain (u := u ++ [ldx, again, dex]) (by simpa using h) hsta rfl rfl rfl
  rw [wordBytes_toNat] at hsta'
  have hbne : bne.bytes = [0xD0, 0xFA] :=
    bytes_of_clearing_branch (u := u ++ [ldx]) (by simpa using h) hstop hagain hdex ⟨_, hsta⟩ hbne
      (by simp [Placement.size, hagain', hdex', hsta'])
  simp [hldx, hagain', hdex', hsta', hbne, clearingPageOf, clearingPage]

theorem bytes_of_clearingPages {ks : List Nat} {ls : List Line}
    (hlines : ClearingPageLines base n ks ls)
    (h : L.LinkedSparingly image env (u ++ m ++ v)) (hstop : image.stop ≤ 0x10000)
    (hmid : m.map Placement.line = ls) :
    m.flatMap Placement.bytes = ks.flatMap (clearingPageOf base n) := by
  induction hlines generalizing u m with
  | nil =>
    obtain rfl := List.map_eq_nil_iff.1 hmid
    rfl
  | cons l rest ih =>
    obtain ⟨page, more, rfl, hpage, hmore⟩ := List.map_eq_append_iff.1 hmid
    rw [List.flatMap_append, List.flatMap_cons,
      bytes_of_clearingPageLines (u := u) (v := more ++ v) (by simpa using h) hstop hpage,
      ih (u := u ++ page) (by simpa using h) hmore]

/-- The lines that clear a region are linked as the bytes of the clearing code. -/
theorem bytes_of_clearing {ls : List Line} (hlines : ClearingLines base n ls)
    (h : L.LinkedSparingly image env (u ++ m ++ v)) (hstop : image.stop ≤ 0x10000)
    (hmid : m.map Placement.line = ls) : m.flatMap Placement.bytes = clearing base n := by
  cases hlines with
  | nothing =>
    obtain rfl := List.map_eq_nil_iff.1 hmid
    rfl
  | pages hn hpages =>
    obtain ⟨lda, more, rfl, hlda, hmore⟩ := List.map_eq_cons_iff.1 hmid
    have hfirst : lda.bytes = [0xA9, 0] :=
      bytes_of_plain (u := u) (v := more ++ v) (by simpa using h) hlda rfl rfl rfl
    rw [List.flatMap_cons, hfirst, clearing, if_neg hn,
      bytes_of_clearingPages (u := u ++ [lda]) hpages (by simpa using h) hstop hmore]

/-! ## Running it -/

/-- **Clearing is exact.**  Lowering writes the code that clears a region, and wherever its lines
are linked, whatever stands before and behind them, their bytes clear the region: from any state of
the processor that has them in memory, outside of the region, and no trap at an instruction of
theirs, it comes to their end with the bytes of the region zero and every other byte, Y and the
stack pointer as before. -/
theorem region_cleared (p : Program) (s : Emission) {base : UInt16} {n : Nat}
    (hfits : base.toNat + n ≤ 0x10000) :
    ∃ s' ls, perform (clearRegion base n) p s = (.ok (), s') ∧ s.Writes s' ls ∧
      ∀ (t : Stream) (before after : List Line) (origin : UInt16) (image : Image),
        Stream.Grows {} t (before ++ ls ++ after) → t.link origin = .ok image →
        ∃ (L : Listing) (env : Addresses) (pre mid post : List Placement),
          L.Linked image env (pre ++ mid ++ post) ∧ image.origin = origin ∧ image.stop ≤ 0x10000 ∧
          pre.map Placement.line = before ∧ mid.map Placement.line = ls ∧
            post.map Placement.line = after ∧
          ∀ c : Cpu, c.Faces (mid.flatMap Placement.bytes) (clearingStarts n) (InRegion base n) →
            ∃ d, c.Runs d ∧ d.pc = c.pc + UInt16.ofNat (Placement.size mid) ∧
              c.Clears (InRegion base n) d := by
  obtain ⟨s', ls, hperform, hwrites, hclearing⟩ := clearRegion_produces base n p s
  refine ⟨s', ls, hperform, hwrites, ?_⟩
  intro t before after origin image hgrows hlink
  obtain ⟨horigin, hstop⟩ := Stream.link_extent hlink
  obtain ⟨L, env, ps, hlines, -, h⟩ := hgrows.link_sparing hlink
  obtain ⟨_, post, rfl, hfront, hpost⟩ := List.map_eq_append_iff.1 (h.lines.trans hlines)
  obtain ⟨pre, mid, rfl, hpre, hmid⟩ := List.map_eq_append_iff.1 hfront
  refine ⟨L, env, pre, mid, post, h.toLinked, horigin, hstop, hpre, hmid, hpost, ?_⟩
  intro c hc
  rw [bytes_of_clearing hclearing h hstop hmid] at hc
  obtain ⟨d, hruns, hpc, hclears⟩ := hc.clears hfits
  refine ⟨d, hruns, ?_, hclears⟩
  rw [hpc, Placement.size, bytes_of_clearing hclearing h hstop hmid]

/-- Lowering that has written nothing yet. -/
def Emission.blank : Emission :=
  { workspace := { target := default }, allocator := default, reports := {} }

/-- The linked code that clears a region and nothing else. -/
def clearingImage? (base : UInt16) (n : Nat) (origin : UInt16) : Option Image :=
  ((perform (clearRegion base n) default .blank).2.workspace.stream.link origin).toOption

/-- A processor at the start of some code, one cell being one. -/
def clearingCpu (origin cell : UInt16) (code : List UInt8) : Cpu :=
  { pc := origin, memory := (Memory.zero.write cell 1).writeBytes origin code }

theorem clearingCpu_keeps (origin cell : UInt16) {code : List UInt8} (h : code.length ≤ 65536) :
    (clearingCpu origin cell code).Keeps origin code :=
  fun _ _ hi => read_writeBytes h hi

theorem clearingCpu_read {origin cell a : UInt16} {code : List UInt8}
    (h : ∀ i < code.length, a ≠ origin + UInt16.ofNat i) :
    (clearingCpu origin cell code).read a = if a = cell then 1 else 0 := by
  refine (read_writeBytes_of_outside h).trans ?_
  split
  next heq => rw [heq, Memory.read_write_self]
  next hne =>
    rw [Memory.read_write_of_ne _ _ (Ne.symm hne)]
    simp [Memory.read, Memory.zero]

theorem link_of_clearingImage? {base origin : UInt16} {n : Nat} {image : Image} {s' : Emission}
    (himage : clearingImage? base n origin = some image)
    (hperform : perform (clearRegion base n) default .blank = (.ok (), s')) :
    s'.workspace.stream.link origin = .ok image := by
  rw [clearingImage?, hperform] at himage
  generalize s'.workspace.stream.link origin = linked at himage
  cases linked with
  | error e => cases himage
  | ok linked => exact congrArg _ (Option.some.inj himage)

/-- Three hundred bytes, more than a page, are cleared. -/
theorem region_cleared_300 :
    ∃ (image : Image) (c d : Cpu), clearingImage? 0x0400 300 0xC000 = some image ∧
    c.pc = 0xC000 ∧ c.Faces image.bytes.toList (clearingStarts 300) (InRegion 0x0400 300) ∧
      c.read 0x0400 = 1 ∧
    c.Runs d ∧ d.pc = 0xC012 ∧ c.Clears (InRegion 0x0400 300) d := by
  have hbytes : (clearingImage? 0x0400 300 0xC000).map (·.bytes.toList) =
      some [0xA9, 0, 0xA2, 0, 0xCA, 0x9D, 0, 4, 0xD0, 0xFA, 0xA2, 44, 0xCA, 0x9D, 0,
          5, 0xD0, 0xFA] := by
    decide +kernel
  obtain ⟨s', ls, hperform, hwrites, hclears⟩ :=
    region_cleared default .blank (show (0x0400 : UInt16).toNat + 300 ≤ 0x10000 by decide)
  obtain ⟨image, himage, hcode⟩ := Option.map_eq_some_iff.1 hbytes
  have hgrows : Stream.Grows {} s'.workspace.stream ls := hwrites.grows.stream
  obtain ⟨L, env, pre, mid, post, hlinked, -, -, hpre, -, hpost, hrun⟩ :=
    hclears s'.workspace.stream [] [] 0xC000 image (by simpa using hgrows)
      (link_of_clearingImage? himage hperform)
  obtain rfl := List.map_eq_nil_iff.1 hpre
  obtain rfl := List.map_eq_nil_iff.1 hpost
  have hmid : mid.flatMap Placement.bytes = image.bytes.toList := by
    rw [hlinked.bytes]
    simp
  have hfaces : (clearingCpu 0xC000 0x0400 image.bytes.toList).Faces image.bytes.toList
      (clearingStarts 300)
      (InRegion 0x0400 300) := by
    refine ⟨clearingCpu_keeps _ _ (by rw [hcode]; decide), ?_, ?_⟩
    · rw [hcode]
      show ∀ i < 18, ¬(0x0400 ≤ (0xC000 + UInt16.ofNat i).toNat ∧
        (0xC000 + UInt16.ofNat i).toNat < 0x0400 + 300)
      decide
    · show ∀ i ∈ clearingStarts 300, ¬((0xFFD2 : UInt16) ≠ 0 ∧ 0xC000 + UInt16.ofNat i = 0xFFD2 ∨
        (0xFFF0 : UInt16) ≠ 0 ∧ 0xC000 + UInt16.ofNat i = 0xFFF0)
      decide
  have hcell : (clearingCpu 0xC000 0x0400 image.bytes.toList).read 0x0400 = 1 := by
    refine (clearingCpu_read ?_).trans (if_pos rfl)
    rw [hcode]
    decide
  rw [hmid] at hrun
  obtain ⟨d, hruns, hpc, hd⟩ := hrun _ hfaces
  refine ⟨image, _, d, himage, rfl, hfaces, hcell, hruns, ?_, hd⟩
  rw [hpc, Placement.size, hmid, hcode]
  rfl

/-- **A trap is executed instead of the code.**  Code whose first instruction lies where characters
are printed never clears the byte it was written for. -/
theorem trapped_region_kept :
    ∃ (image : Image) (c : Cpu), clearingImage? 0x0400 1 0xFFD2 = some image ∧
    c.pc = 0xFFD2 ∧ c.Keeps 0xFFD2 image.bytes.toList ∧
    (∀ i < image.bytes.toList.length, ¬InRegion 0x0400 1 (0xFFD2 + UInt16.ofNat i)) ∧
    ∀ d, c.Runs d → d.read 0x0400 = 1 := by
  have hbytes : (clearingImage? 0x0400 1 0xFFD2).map (·.bytes.toList) =
      some [0xA9, 0, 0xA2, 1, 0xCA, 0x9D, 0, 4, 0xD0, 0xFA] := by
    decide +kernel
  obtain ⟨image, himage, hcode⟩ := Option.map_eq_some_iff.1 hbytes
  generalize hc : clearingCpu 0xFFD2 0x0400 image.bytes.toList = c
  have hread : ∀ a, (∀ i < 10, a ≠ 0xFFD2 + UInt16.ofNat i) →
      c.read a = if a = 0x0400 then 1 else 0 := by
    intro a ha
    rw [← hc]
    exact clearingCpu_read (by rw [hcode]; exact ha)
  have hcell : c.read 0x0400 = 1 := hread 0x0400 (by decide)
  have hpc : c.pc = 0xFFD2 := by rw [← hc]; rfl
  have hchrout : c.chrout = 0xFFD2 := by rw [← hc]; rfl
  have hplot : c.plot = 0xFFF0 := by rw [← hc]; rfl
  have hsp : c.sp = 0xFF := by rw [← hc]; rfl
  -- the trap returns to address 1, where a break ends the run
  have hfirst : c.step = (c.printTrap, none) :=
    if_pos ⟨by rw [hchrout]; decide, by rw [hpc, hchrout]⟩
  have hreturn : c.printTrap.pc = 1 := by
    show (c.read (Cpu.stackSlot (c.sp + 1))).toUInt16 +
      (c.read (Cpu.stackSlot (c.sp + 1 + 1))).toUInt16 * 256 + 1 = 1
    rw [hsp, hread _ (by decide), hread _ (by decide)]
    decide
  have hsecond : c.printTrap.step.2 ≠ none := by
    have hzero : c.printTrap.read c.printTrap.pc = 0 := by
      rw [hreturn]
      exact hread 1 (by decide)
    have hfree : c.printTrap.Untrapped := by
      refine Cpu.untrapped_of_not_trapsAt ?_
      rw [hreturn]
      show ¬(c.chrout ≠ 0 ∧ 1 = c.chrout ∨ c.plot ≠ 0 ∧ 1 = c.plot)
      rw [hchrout, hplot]
      decide
    obtain ⟨cycles, hstep⟩ := Cpu.step_known hfree .brk .implied (by decide) hzero
    rw [hstep]
    exact Option.some_ne_none _
  refine ⟨image, c, himage, hpc, ?_, ?_, ?_⟩
  · rw [← hc]
    exact clearingCpu_keeps _ _ (by rw [hcode]; decide)
  · rw [hcode]
    show ∀ i < 10, ¬(0x0400 ≤ (0xFFD2 + UInt16.ofNat i).toNat ∧
      (0xFFD2 + UInt16.ofNat i).toNat < 0x0400 + 1)
    decide
  · rintro d ⟨k, hk⟩
    rcases k with _ | _ | k
    · obtain rfl : c = d := congrArg Prod.fst hk
      exact hcell
    · rw [Cpu.stepMany_succ hfirst] at hk
      obtain rfl : c.printTrap = d := congrArg Prod.fst hk
      exact hcell
    · rw [Cpu.stepMany_succ hfirst, Cpu.stepMany] at hk
      split at hk
      next b hstep => exact absurd (congrArg Prod.snd hstep) hsecond
      next b fault _ => cases congrArg Prod.snd hk

end Breadbin.Lowering
