import Mathlib
import Breadbin.Proofs.Compilation.Faults
import Breadbin.Proofs.Lowering.Interning
import Breadbin.Proofs.Machine.Branching

/-!
# The parts of a compiled program

A program is written from its start to its end: first its code, then the routines that the code asks
for, the constants and the data blocks.  The image is the listing of all this.  What is written on
the way through the code stands in the image where it was written, so the instructions that load an
address load the one that the label has in the end.
-/

set_option synthInstance.maxSize 100000
set_option synthInstance.maxHeartbeats 100000

namespace Breadbin

namespace Machine

open Assembly

/-- Where the processor stands a number is loaded into A and X; nothing else is changed but flags
and counts. -/
def Cpu.Loads (c : Cpu) (n : Nat) : Prop :=
  ∃ d, c.stepMany 2 = (d, none) ∧ d.a.toNat + 256 * d.x.toNat = n ∧ d.pc = c.pc + 4 ∧
    d.y = c.y ∧ d.sp = c.sp ∧
    d.memory = c.memory

/-- Two bytes that are loaded at once. -/
theorem Cpu.Carries.loads {c : Cpu} {image : Image} (h : c.Carries image)
    {front back : List UInt8} {n : Nat} (hn : n < 0x10000) (hbytes : image.bytes.toList =
      front ++ [0xA9, UInt8.ofNat (n % 256), 0xA2, UInt8.ofNat (n / 256)] ++ back)
    (hstop : image.stop ≤ 0x10000) (hpc : c.pc.toNat = image.origin.toNat + front.length) :
    c.Loads n := by
  have hwithin : c.pc.toNat + 4 ≤ image.stop := by
    rw [hpc, Image.stop, ← Array.length_toList, hbytes]
    simp only [List.length_append, List.length_cons, List.length_nil]
    omega
  have hpos : image.origin + UInt16.ofNat front.length = c.pc := by
    apply UInt16.toNat_inj.1
    have := c.pc.toNat_lt
    rw [UInt16.toNat_add, UInt16.toNat_ofNat', hpc]
    omega
  have hread : ∀ {i : Nat} {b : UInt8},
      [0xA9, UInt8.ofNat (n % 256), 0xA2, UInt8.ofNat (n / 256)][i]? = some b →
      c.read (c.pc + UInt16.ofNat i) = b := fun hi => hpos ▸ h.read hbytes hi
  have hlda : c.read c.pc = 0xA9 := by simpa using hread (i := 0) rfl
  obtain ⟨cycles, hdecode⟩ :=
    Opcode.decode?_of_encode? (show Opcode.encode? .lda .immediate = some 0xA9 by decide)
  rw [← hlda] at hdecode
  have hfirst := Cpu.step_eq (h.untrapped (by omega) (by omega)) hdecode
  let d : Cpu := ({ c with pc := c.pc + 2, steps := c.steps + 1, cycles := c.cycles + cycles } :
    Cpu).setA
    (c.read (c.pc + 1))
  have hdpc : d.pc.toNat = c.pc.toNat + 2 := by
    show (c.pc + 2).toNat = _
    rw [UInt16.toNat_add, show (2 : UInt16).toNat = 2 from rfl]
    omega
  have hd : d.Carries image := h.congr rfl rfl rfl
  have hldx : d.read d.pc = 0xA2 := hread (i := 2) rfl
  obtain ⟨cycles', hdecode'⟩ :=
    Opcode.decode?_of_encode? (show Opcode.encode? .ldx .immediate = some 0xA2 by decide)
  rw [← hldx] at hdecode'
  have hsecond := Cpu.step_eq (hd.untrapped (by omega) (by omega)) hdecode'
  have hlow : c.read (c.pc + 1) = UInt8.ofNat (n % 256) := hread (i := 1) rfl
  have hhigh : d.read (d.pc + 1) = UInt8.ofNat (n / 256) := by
    have hthird := hread (i := 3) rfl
    show c.read (c.pc + 2 + 1) = _
    rwa [UInt16.add_assoc]
  refine ⟨_, (Cpu.stepMany_succ hfirst 1).trans (Cpu.stepMany_succ hsecond 0), ?_,
    UInt16.add_assoc _ _ _, rfl, rfl, rfl⟩
  show (c.read (c.pc + 1)).toNat + 256 * (d.read (d.pc + 1)).toNat = n
  rw [hlow, hhigh, UInt8.toNat_ofNat', UInt8.toNat_ofNat']
  omega

end Machine

namespace Lowering

open Assembly Emission

variable {p : Program} {α β : Type} {s s' : Emission}

/-! ## Parts that succeed -/

/-- What lowering leads along, it has led along. -/
theorem leads {R : Emission → Emission → Prop} {act : Lower α}
    {r : Except LoweringError α} [h : Moves R act]
    (hperform : perform act p s = (r, s')) : R s s' := by
  have hmoves := h.moves p s
  rwa [hperform] at hmoves

theorem ok_of_perform_bind {x : Lower α} {f : α → Lower β} {b : β}
    (h : perform (x >>= f) p s = (.ok b, s')) :
    ∃ a s₁, perform x p s = (.ok a, s₁) ∧ perform (f a) p s₁ = (.ok b, s') := by
  rw [perform_bind] at h
  split at h
  next a s₁ hx => exact ⟨a, s₁, hx, h⟩
  next => cases h

theorem perform_pass_ok {name : String} {body : Lower Unit}
    (h : perform (pass name body) p s = (.ok (), s')) :
    ∃ t s₁ t', perform body p { s with tracer := t } = (.ok (), s₁) ∧
      s' = { s₁ with tracer := t' } := by
  unfold pass at h
  rw [perform_openSpan_bind, perform_tryCatch] at h
  split at h
  next hdone =>
    cases h
    obtain ⟨_, s₁, hbody, hclose⟩ := ok_of_perform_bind hdone
    cases hclose
    exact ⟨_, s₁, _, hbody, rfl⟩
  next => cases h

/-! ## Before and behind the code -/

/-- Addresses are handed out, and functions and data blocks get their labels. -/
def declarations : Lower Unit := do
  let p ← read
  pass "allocate" allocateStorage
  if p.entry?.isNone then
    reportError .missingEntry .none "program has no entry function"
  warnRecursion
  declareData [] p.data.items.zipIdx

/-- What is done before code is written. -/
def prologue : Lower Unit := do
  declarations
  let target := (← get).workspace.target
  write (.data target.stub.1)
  write (.onStream fun s => (s.placeLabel startLabel).1)

/-- Links what is written. -/
def epilogue : Lower Image := do
  let span ← openSpan .pass "link"
  let image ←
    try linkImage
    catch e =>
      closeSpan span e.message
      throw e
  closeSpan span ""
  return image

theorem perform_lowerProgram (p : Program) (s : Emission) : perform lowerProgram p s = perform (do
    prologue
    pass "lower" (lowerCode p.entry?)
    pass "runtime" lowerTail
    epilogue) p s := by
  unfold lowerProgram prologue declarations epilogue
  simp only [bind_assoc]
  rw [perform_read_bind, perform_read_bind]
  by_cases hentry : p.entry?.isNone = true
  · rw [if_pos hentry, if_pos hentry]
    simp only [bind_assoc]
  · rw [if_neg hentry, if_neg hentry]
    simp only [bind_assoc]

/-- A data block as it is written, if it has a label. -/
def Emission.row? (s : Emission) (block : DataBlock × Nat) : Option Row :=
  (s.data.lookup (UInt32.ofNat (block.2 + 1))).map fun l =>
    ⟨block.1.align.toNat, l, block.1.bytes.items⟩

/-- The data blocks as they are written. -/
def Emission.blocks (p : Program) (s : Emission) : List Row := p.data.items.zipIdx.filterMap s.row?

theorem perform_emitData (p : Program) (s : Emission) : perform emitData p s = (.ok (), { s with
    workspace := { s.workspace with
      stream := ((s.blocks p).flatMap Row.actions).foldl Action.perform
          s.workspace.stream } }) := by
  unfold emitData Emission.blocks
  rw [perform_read_bind]
  generalize p.data.items.zipIdx = ds
  induction ds generalizing s with
  | nil => rfl
  | cons block ds ih =>
    obtain ⟨d, i⟩ := block
    show perform (_ >>= fun _ => ds.forM _) p s = _
    rw [perform_bind, perform_get_bind]
    rw [List.filterMap_cons, row?]
    cases s.data.lookup (UInt32.ofNat (i + 1)) with
    | none => exact ih s
    | some l =>
      rw [Option.map_some, List.flatMap_cons, List.foldl_append]
      have hrow : (Row.actions ⟨d.align.toNat, l, d.bytes.items⟩).foldl Action.perform
          s.workspace.stream =
          ((s.workspace.stream.align d.align).bind l).data d.bytes.items := by
        rw [Row.actions, UInt16.ofNat_toNat]
        rfl
      rw [hrow]
      exact ih { s with workspace := { s.workspace with
        stream := ((s.workspace.stream.align d.align).bind l).data d.bytes.items } }

-- Of the library and of the way images are linked only what is proved about them is used.
attribute [local irreducible] Routine.emitLibrary linkImage

theorem perform_lowerTail_ok (h : perform lowerTail p s = (.ok (), s')) :
    s'.workspace.stream = ((s.blocks p).flatMap Row.actions).foldl Action.perform
      (s.pool.emit (Routine.emitLibrary s.workspace).2.stream) ∧ s'.pool = s.pool := by
  unfold lowerTail at h
  obtain ⟨_, s₁, hlibrary, h⟩ := ok_of_perform_bind h
  obtain rfl : { s with workspace := (Routine.emitLibrary s.workspace).2 } = s₁ :=
    congrArg Prod.snd hlibrary
  rw [perform_modify_bind] at h
  obtain ⟨_, s₂, hdata, h⟩ := ok_of_perform_bind h
  rw [perform_emitData] at hdata
  cases hdata
  rw [perform_get_bind] at h
  split at h
  · cases h
  · cases h
    exact ⟨rfl, rfl⟩

/-- The way from the first code to the end of a program: what is there before it, after it and when
all is written. -/
structure Stages (p : Program) (begun coded written : Emission) : Prop where
  start : ∃ head, Stream.Grows {} begun.workspace.stream head ∧ ∀ mn arg, .instr mn arg ∉ head
  numbered : begun.Numbered
  pool : begun.pool = {}
  codes : begun.Codes [] coded
  tail : written.workspace.stream = ((coded.blocks p).flatMap Row.actions).foldl Action.perform
    (coded.pool.emit (Routine.emitLibrary coded.workspace).2.stream)
  constants : written.pool = coded.pool
  reports : ∃ ds, written.reports = begun.reports.reportAll ds

instance : Moves Names declarations := by
  unfold declarations
  dsimp only
  infer_instance

theorem prologue_begins (h : perform prologue p s = (.ok (), s'))
    (hstream : s.workspace.stream = {}) (hdata : s.data = []) :
    (∃ head, Stream.Grows {} s'.workspace.stream head ∧ ∀ mn arg, .instr mn arg ∉ head) ∧
      s'.Numbered ∧
      s'.pool = s.pool := by
  obtain ⟨_, s₁, hdeclared, h⟩ := ok_of_perform_bind h
  have hnames : s.Names s₁ := leads hdeclared
  rw [perform_get_bind] at h
  obtain rfl := congrArg Prod.snd h
  let t := s₁.workspace.stream.data s₁.workspace.target.stub.1
  have hbytes : s₁.workspace.stream.Grows t [.data s₁.workspace.target.stub.1] :=
    @Stream.Grows.writing s₁.workspace.stream [.data _] rfl
  have hlabel : t.Grows (t.placeLabel startLabel).1 [.bound (t.addLabel startLabel).2] :=
    (Stream.Grows.addLabel t startLabel).trans
      (@Stream.Grows.writing (t.addLabel startLabel).1 [.bound _] rfl)
  have hstart := (hnames.unwritten.trans hbytes).trans hlabel
  rw [hstream] at hstart
  refine ⟨⟨_, hstart, by simp⟩, fun e he => ?_, hnames.pool⟩
  have hnumbered : s₁.Numbered := hnames.numbered fun e he => by rw [hdata] at he; cases he
  exact Nat.le_trans (hnumbered e he) (hbytes.trans hlabel).precedes.labels

/-- A program that is compiled to an image goes through these stages. -/
theorem perform_lowerProgram_ok {image : Image} (h : perform lowerProgram p s = (.ok image, s'))
    (hstream : s.workspace.stream = {}) (hpool : s.pool = {}) (hdata : s.data = []) :
    ∃ begun coded, perform prologue p s = (.ok (), begun) ∧
      perform (pass "lower" (lowerCode p.entry?)) p begun = (.ok (), coded) ∧
        Stages p begun coded s' ∧
      ∃ linked, s'.workspace.stream.link s'.workspace.target.loadAddress = .ok linked ∧
        image = { linked with entry := (linked.addressOf? startLabel).getD linked.entry } := by
  rw [perform_lowerProgram] at h
  obtain ⟨_, begun, hbegun, h⟩ := ok_of_perform_bind h
  obtain ⟨_, coded, hcoded, h⟩ := ok_of_perform_bind h
  obtain ⟨_, s₃, htail, h⟩ := ok_of_perform_bind h
  obtain ⟨hstart, hnumbered, hempty⟩ := prologue_begins hbegun hstream hdata
  have hcodes : begun.Codes [] coded := leads hcoded
  obtain ⟨t, s₄, t', hlower, rfl⟩ := perform_pass_ok htail
  obtain ⟨htail, hconstants⟩ := perform_lowerTail_ok hlower
  have hstays : { coded with tracer := t }.Stays s₄ := leads hlower
  have hreports : ∃ ds, s₄.reports = begun.reports.reportAll ds :=
    (Path.trans (⟨hcodes.workspace, hcodes.allocator, hcodes.reports⟩ : begun.Follows
      { coded with tracer := t }) hstays.toFollows).reports
  have hstages : Stages p begun coded s₄ :=
    ⟨hstart, hnumbered, hempty.trans hpool, hcodes, htail, hconstants, hreports⟩
  refine ⟨begun, coded, hbegun, hcoded, ?_⟩
  unfold epilogue at h
  rw [perform_openSpan_bind] at h
  obtain ⟨_, s₅, hlinked, h⟩ := ok_of_perform_bind h
  cases h
  rw [perform_tryCatch, perform_linkImage] at hlinked
  cases hlink : s₄.workspace.stream.link s₄.workspace.target.loadAddress with
  | error cause =>
    simp only [hlink] at hlinked
    cases hlinked
  | ok linked =>
    simp only [hlink] at hlinked
    cases hlinked
    exact ⟨{ hstages with }, linked, hlink, rfl⟩

/-! ## The image of a program -/

/-- A part of lowering that is performed on the way through the code. -/
structure Amid (p : Program) (begun coded : Emission) (act : Lower α) (s s' : Emission) : Prop where
  before : begun.Codes [] s
  performed : ∃ a, perform act p s = (.ok a, s')
  /-- labels that are still to be bound were made on the way -/
  behind : ∃ K, (∀ l ∈ K, begun.workspace.stream.Between coded.workspace.stream l) ∧
    s'.Codes K coded

/-- The bytes of the two instructions that load the address of a label. -/
theorem Line.Encodes.loads {env : Addresses} {a b : Nat} {l : LabelId} (hl : l.isSome = true)
    {xs ys : List UInt8} (hx : (Line.instr .lda (.lowByte (.ofLabel l))).Encodes env a xs)
    (hy : (Line.instr .ldx (.highByte (.ofLabel l))).Encodes env b ys) :
    env l < 0x10000 ∧
      xs ++ ys = [0xA9, UInt8.ofNat (env l % 256), 0xA2, UInt8.ofNat (env l / 256)] := by
  have henv : env.of (.ofLabel l) = env l := by
    rw [env.of_label (r := .ofLabel l) hl]
    rfl
  cases hx with | @instr _ _ code known fixed fits =>
  cases hy with | @instr _ _ code' known' fixed' fits' =>
  have hlda : Opcode.encode? .lda .immediate = some 0xA9 := by decide
  have hldx : Opcode.encode? .ldx .immediate = some 0xA2 := by decide
  obtain rfl : code = 0xA9 := Option.some.inj (known.symm.trans hlda)
  obtain rfl : code' = 0xA2 := Option.some.inj (known'.symm.trans hldx)
  refine ⟨henv ▸ fits _ rfl, ?_⟩
  rw [← henv]
  rfl

/-- What was written on the way from one state to another stands in the image from an address on. -/
def Emission.Written (written : Emission) (image : Image) (s s' : Emission) (a : Nat) : Prop :=
  ∃ ls L pre mid post names, s.workspace.stream.Grows s'.workspace.stream ls ∧
    written.workspace.stream.Shows L ∧
    L.Linked image (written.workspace.stream.addresses image.origin) (pre ++ mid ++ post) ∧
    mid.map Placement.line = ls ∧ s.workspace.stream.Shows ⟨names, pre.map Placement.line⟩ ∧
    a = image.origin.toNat + Placement.size pre

/-- Code branches to labels at hand and to its own ones. -/
theorem Emission.Codes.branches {K : List LabelId} (h : s.Codes K s') :
    ∃ ls, s.workspace.stream.Grows s'.workspace.stream ls ∧
      ∀ mn l, .instr mn (.relative l) ∈ ls →
        l ∈ K ∨ s.workspace.stream.Between s'.workspace.stream l := by
  obtain ⟨ls, hls, htext⟩ := h.lines
  exact ⟨ls, hls, fun mn l hl => htext _ hl⟩

namespace Stages

variable {begun coded written : Emission}

/-- What is written behind the code. -/
def rows (p : Program) (coded : Emission) : List Row := coded.pool.rows ++ coded.blocks p

theorem multiple_rows {r : Row} (hr : r ∈ rows p coded) : r.multiple < 65536 := by
  rcases List.mem_append.1 hr with hr | hr
  · obtain ⟨e, -, rfl⟩ := List.mem_map.1 hr
    exact Nat.zero_lt_succ _
  · obtain ⟨⟨d, i⟩, -, hr⟩ := List.mem_filterMap.1 hr
    obtain ⟨l, -, rfl⟩ := Option.map_eq_some_iff.1 hr
    exact d.align.toNat_lt

theorem written_eq (h : Stages p begun coded written) : written.workspace.stream =
    ((rows p coded).flatMap Row.actions).foldl Action.perform
      (Routine.emitLibrary coded.workspace).2.stream := by
  rw [h.tail, Pool.emit_eq, ← List.foldl_append, ← List.flatMap_append, rows]

/-- The labels of data blocks were made before the code was written. -/
theorem number_block (h : Stages p begun coded written) {r : Row} (hr : r ∈ coded.blocks p) :
    r.label.number.toNat ≤ begun.workspace.stream.labels.size := by
  obtain ⟨⟨d, i⟩, -, hr⟩ := List.mem_filterMap.1 hr
  obtain ⟨l, hl, rfl⟩ := Option.map_eq_some_iff.1 hr
  obtain ⟨pre, post, hdata, -⟩ := List.lookup_eq_some_iff.1 hl
  refine h.numbered (UInt32.ofNat (i + 1), l) ?_
  rw [← h.codes.data, hdata]
  simp

theorem filled (h : Stages p begun coded written) : ∀ e ∈ coded.pool.entries.toList, e.2 ≠ [] := by
  obtain ⟨es, hes, hfilled⟩ := h.codes.pool
  rw [h.pool] at hes
  exact hes ▸ hfilled

/-- A program is written as its start, its code, the routines, the constants and the data blocks. -/
theorem shows (h : Stages p begun coded written) (ok : written.workspace.stream.error = none)
    {head code : List Line} (hhead : Stream.Grows {} begun.workspace.stream head)
    (hcode : begun.workspace.stream.Grows coded.workspace.stream code) :
    ∃ names library,
      coded.workspace.stream.Grows (Routine.emitLibrary coded.workspace).2.stream library ∧
      (∀ mn l, .instr mn (.relative l) ∈ library → l.isSome = true →
        begun.workspace.stream.Between written.workspace.stream l) ∧
      (library = [] ∨ Line.Ends library) ∧
      written.workspace.stream.Shows
        ⟨names, head ++ code ++ library ++ (rows p coded).flatMap Row.lines⟩ ∧
      ∀ r ∈ rows p coded, r.Valid := by
  have hwritten := h.written_eq
  obtain ⟨library, hlibrary, hown, hends⟩ := Routine.emitLibrary_continues coded.workspace
  have hsmall : ∀ r ∈ rows p coded, r.multiple < 65536 := fun r => multiple_rows
  have hlast : (Routine.emitLibrary coded.workspace).2.stream.Precedes written.workspace.stream :=
    ⟨_, hwritten⟩
  rw [hwritten] at ok
  obtain ⟨L, hL, hlines⟩ := ((hhead.trans hcode).trans hlibrary).shows (foldl_perform_error ok)
  have hshows := hL.perform ok
  rw [← hwritten, Row.foldl_add hsmall, hlines] at hshows
  exact ⟨L.names, library, hlibrary, fun mn l hl hsome =>
    (hown mn l hl hsome).mono hcode.precedes hlast, hends, hshows, Row.all_valid_of_error hsmall ok⟩

/-- Behind the code there are bytes, unless it ends with bytes itself. -/
theorem solid_behind (h : Stages p begun coded written)
    (hend : coded.workspace.stream.Followed ∨ coded.pool.entries.toList ≠ [])
    {front library us vs : List Line}
    (hfront : ∃ L, coded.workspace.stream.Shows L ∧ L.lines = front)
    (hends : library = [] ∨ Line.Ends library)
    {l : LabelId} (hsplit : front ++ (library ++ coded.pool.rows.flatMap Row.lines) =
      us ++ .bound l :: vs) :
    vs.any Line.isSolid = true := by
  by_cases hempty : coded.pool.entries.toList = []
  · have hnone : coded.pool.rows.flatMap Row.lines = [] := by
      rw [Pool.rows, hempty]
      rfl
    rw [hnone, List.append_nil] at hsplit
    rcases hends with rfl | hends
    · rw [List.append_nil] at hsplit
      obtain ⟨L, hL, rfl⟩ := hfront
      exact hL.solid_of_followed (hend.resolve_right (absurd hempty)) hsplit
    · exact (hends.append front).followed hsplit
  · exact (((Pool.ends_lines h.filled hempty).append library).append front).followed hsplit

/-- The image is the listing of the start, the code, the routines, the constants and the data
blocks, however the lines of the code are told apart. -/
theorem linked (h : Stages p begun coded written)
    (few : written.workspace.stream.labels.size < 4294967296)
    (hend : coded.workspace.stream.Followed ∨ coded.pool.entries.toList ≠ [])
    {origin : UInt16} {image : Image}
    (hlink : written.workspace.stream.link origin = .ok image) {head code : List Line}
    (hhead : Stream.Grows {} begun.workspace.stream head) (hplain : ∀ mn arg, .instr mn arg ∉ head)
    (hcode : begun.workspace.stream.Grows coded.workspace.stream code)
    (hbranches : ∀ mn l, .instr mn (.relative l) ∈ code →
      begun.workspace.stream.Between coded.workspace.stream l) :
    ∃ names library ps,
      let L : Listing := ⟨names, head ++ code ++ library ++ (rows p coded).flatMap Row.lines⟩
      written.workspace.stream.Shows L ∧ (∀ r ∈ rows p coded, r.Valid) ∧
        L.Linked image (written.workspace.stream.addresses origin) ps ∧ image.origin = origin := by
  obtain ⟨ok, hresolved, -⟩ := Stream.link_eq hlink
  obtain ⟨names, library, hlibrary, hown, hends, hshows, hvalid⟩ := h.shows ok hhead hcode
  have hprecedes : coded.workspace.stream.Precedes written.workspace.stream :=
    hlibrary.precedes.trans ⟨_, h.written_eq⟩
  have hfront : ∃ L, coded.workspace.stream.Shows L ∧ L.lines = head ++ code :=
    (hhead.trans hcode).shows (hprecedes.error ok)
  have hsplit : head ++ code ++ library ++ (rows p coded).flatMap Row.lines =
      (head ++ code ++ (library ++ coded.pool.rows.flatMap Row.lines)) ++
          (coded.blocks p).flatMap Row.lines := by
    simp [rows]
  -- a branch leads to a label that was made with the code, a block has one from before
  have htargets (mn : Mnemonic) (l : LabelId)
      (hmem : .instr mn (.relative l) ∈ head ++ code ++
        (library ++ coded.pool.rows.flatMap Row.lines))
      (hl : l.isSome = true) : begun.workspace.stream.labels.size < l.number.toNat := by
    simp only [List.mem_append] at hmem
    rcases hmem with (hmem | hmem) | hmem | hmem
    · exact absurd hmem (hplain mn _)
    · exact (hbranches mn l hmem).mono (.refl _) hprecedes few
    · exact hown mn l hmem hl few
    · obtain ⟨e, -, hline | hline⟩ := Pool.mem_lines hmem <;> cases hline
  have hshape : Line.CodeThenData (head ++ code ++ (library ++ coded.pool.rows.flatMap Row.lines))
      ((coded.blocks p).flatMap Row.lines) := by
    refine ⟨fun line hline => ?_, fun us l vs => h.solid_behind hend hfront hends,
      fun mn l hmem hl => ?_, fun mn arg hmem => ?_, fun r hmem => ?_, fun n hmem => ?_⟩
    · rw [← List.append_assoc] at hline
      rcases List.mem_append.1 hline with hline | hline
      · exact ((hhead.trans hcode).trans hlibrary).not_align line hline
      · obtain ⟨e, -, rfl | rfl⟩ := Pool.mem_lines hline <;> rfl
    · have hbound := hshows.needs_bound hresolved (hsplit ▸ List.mem_append_left _ hmem) (l := l)
        (by simp [Line.needs?, hl])
      obtain ⟨line, hline, hlabel⟩ := List.mem_filterMap.1 hbound
      obtain rfl : line = .bound l := by
        cases line <;> simp_all [Line.label?]
      rw [hsplit] at hline
      refine (List.mem_append.1 hline).resolve_right fun hdata => ?_
      have hblock : l ∈ (coded.blocks p).map Row.label := by
        rw [← Row.labels_lines]
        exact List.mem_filterMap.2 ⟨_, hdata, rfl⟩
      obtain ⟨r, hr, rfl⟩ := List.mem_map.1 hblock
      exact absurd (h.number_block hr) (Nat.not_le.2 (htargets mn _ hmem hl))
    · obtain ⟨r, -, hline⟩ := List.mem_flatMap.1 hmem
      obtain ⟨hline, -⟩ | hline | hline := Row.mem_lines hline <;> cases hline
    · obtain ⟨r, -, hline⟩ := List.mem_flatMap.1 hmem
      obtain ⟨hline, -⟩ | hline | hline := Row.mem_lines hline <;> cases hline
    · obtain ⟨r, hr, hline⟩ := List.mem_flatMap.1 hmem
      obtain ⟨hline, hmore⟩ | hline | hline := Row.mem_lines hline <;> cases hline
      exact hvalid r (List.mem_append_right _ hr) hmore
  obtain ⟨ps, hlinked, horigin⟩ := hshows.link_tail hsplit hshape hlink
  exact ⟨names, library, ps, hshows, hvalid, hlinked, horigin⟩

/-- What is written on the way through the code stands in the image behind what was written
before. -/
theorem placed (h : Stages p begun coded written)
    (few : written.workspace.stream.labels.size < 4294967296)
    (hend : coded.workspace.stream.Followed ∨ coded.pool.entries.toList ≠ [])
    {origin : UInt16} {image : Image}
    (hlink : written.workspace.stream.link origin = .ok image) {act : Lower α}
    (ham : Amid p begun coded act s s') {ls : List Line}
    (hls : s.workspace.stream.Grows s'.workspace.stream ls)
    (hforward : ∀ mn l, .instr mn (.relative l) ∉ ls) :
    ∃ L pre mid post names, written.workspace.stream.Shows L ∧
      L.Linked image (written.workspace.stream.addresses origin) (pre ++ mid ++ post) ∧
      mid.map Placement.line = ls ∧ s.workspace.stream.Shows ⟨names, pre.map Placement.line⟩ := by
  obtain ⟨head, hhead, hplain⟩ := h.start
  obtain ⟨ls₁, hls₁, hbranches₁⟩ := ham.before.branches
  obtain ⟨K, hK, hbehind⟩ := ham.behind
  obtain ⟨ls₂, hls₂, hbranches₂⟩ := hbehind.branches
  obtain ⟨names, library, ps, hL, -, hlinked, -⟩ := h.linked few hend hlink hhead hplain
    ((hls₁.trans hls).trans hls₂) fun mn l hl => by
      simp only [List.mem_append] at hl
      rcases hl with (hl | hl) | hl
      · exact ((hbranches₁ mn l hl).resolve_left List.not_mem_nil).mono (.refl _)
          (hls.trans hls₂).precedes
      · exact absurd hl (hforward mn l)
      · exact (hbranches₂ mn l hl).elim (hK l) fun hl => hl.mono (hls₁.trans hls).precedes (.refl _)
  have hps : ps.map Placement.line = (head ++ ls₁) ++ ls ++
      (ls₂ ++ library ++ (rows p coded).flatMap Row.lines) := by
    rw [hlinked.lines]
    simp
  obtain ⟨front, post, rfl, hfront, -⟩ := List.map_eq_append_iff.1 hps
  obtain ⟨pre, mid, rfl, hpre, hmid⟩ := List.map_eq_append_iff.1 hfront
  have hprecedes : s.workspace.stream.Precedes written.workspace.stream :=
    (((hls.trans hls₂).precedes.trans (Routine.emitLibrary_keeps coded.workspace).stream)).trans
      ⟨_, h.written_eq⟩
  obtain ⟨L, hL', hlines⟩ := (hhead.trans hls₁).shows (hprecedes.error (Stream.link_eq hlink).1)
  refine ⟨_, pre, mid, post, L.names, hL, hlinked, hmid, ?_⟩
  rw [hpre, ← hlines]
  exact hL'

/-- The constants and the data blocks stand one behind the other at the end of the image. -/
theorem stand (h : Stages p begun coded written)
    (few : written.workspace.stream.labels.size < 4294967296)
    (hend : coded.workspace.stream.Followed ∨ coded.pool.entries.toList ≠ [])
    {origin : UInt16} {image : Image} (hlink : written.workspace.stream.link origin = .ok image) :
    (∃ front bytes, image.bytes.toList = front ++ bytes ∧
      Row.Stand (written.workspace.stream.addresses origin) (origin.toNat + front.length)
        (rows p coded) bytes) ∧
    ∃ L ps, written.workspace.stream.Shows L ∧
      L.Linked image (written.workspace.stream.addresses origin) ps ∧
      ∀ r ∈ rows p coded, r.label.isSome = true ∧ r.label ∈ L.labels := by
  obtain ⟨head, hhead, hplain⟩ := h.start
  obtain ⟨code, hcode, hbranches⟩ := h.codes.branches
  obtain ⟨names, library, ps, hL, hvalid, hlinked, rfl⟩ :=
    h.linked few hend hlink hhead hplain hcode
    fun mn l hl => (hbranches mn l hl).resolve_left List.not_mem_nil
  obtain ⟨pre, post, rfl, -, hstand⟩ := hlinked.rows rfl hvalid
  refine ⟨⟨pre.flatMap Placement.bytes, post.flatMap Placement.bytes, ?_, hstand⟩, _, _, hL,
    hlinked, fun r hr => ?_⟩
  · rw [hlinked.bytes, List.flatMap_append]
  · have hline : .bound r.label ∈ head ++ code ++ library ++ (rows p coded).flatMap Row.lines :=
      List.mem_append_right _ (List.mem_flatMap.2 ⟨r, hr, by simp [Row.lines]⟩)
    obtain ⟨us, vs, hsplit⟩ := List.append_of_mem hline
    exact ⟨(hL.bound us r.label vs hsplit).1, List.mem_filterMap.2 ⟨_, hline, rfl⟩⟩

/-- Two instructions that are written to load the address of a label load the one it has in the
image. -/
theorem loads (h : Stages p begun coded written)
    (few : written.workspace.stream.labels.size < 4294967296)
    (hend : coded.workspace.stream.Followed ∨ coded.pool.entries.toList ≠ [])
    {origin : UInt16} {image : Image}
    (hlink : written.workspace.stream.link origin = .ok image) {act : Lower α}
    (ham : Amid p begun coded act s s')
    {l : LabelId} (hl : l.isSome = true) (hls : s.workspace.stream.Grows s'.workspace.stream
      [.instr .lda (.lowByte (.ofLabel l)), .instr .ldx (.highByte (.ofLabel l))]) (entry :
      UInt16) :
    ∃ a, Emission.Written written { image with entry } s s' a ∧ ∀ c : Machine.Cpu,
      c.Carries { image with entry } →
      c.pc.toNat = a → c.Loads (written.workspace.stream.addresses origin l) := by
  obtain ⟨L, pre, mid, post, names, hL, hlinked, hmid, hpre⟩ :=
    h.placed few hend hlink ham hls (by simp)
  obtain ⟨rfl, hstop⟩ := Stream.link_extent hlink
  refine ⟨_, ⟨_, L, pre, mid, post, names, hls, hL, { hlinked with }, hmid, hpre, rfl⟩,
    fun c hc hpc => ?_⟩
  obtain ⟨lda, rest, rfl, hlda, hrest⟩ := List.map_eq_cons_iff.1 hmid
  obtain ⟨ldx, rest, rfl, hldx, hnone⟩ := List.map_eq_cons_iff.1 hrest
  obtain rfl : rest = [] := by simpa using hnone
  have hassembled := hlinked.assembled
  rw [show pre ++ [lda, ldx] ++ post = pre ++ lda :: ldx :: post by simp] at hassembled
  have hfirst := hassembled.split.1
  rw [show pre ++ lda :: ldx :: post = (pre ++ [lda]) ++ ldx :: post by simp] at hassembled
  have hsecond := hassembled.split.1
  rw [hlda] at hfirst
  rw [hldx] at hsecond
  obtain ⟨hn, hload⟩ := Line.Encodes.loads hl hfirst hsecond
  have hbytes : image.bytes.toList =
      pre.flatMap Placement.bytes ++ (lda.bytes ++ ldx.bytes) ++ post.flatMap Placement.bytes := by
    rw [hlinked.bytes]
    simp
  rw [hload] at hbytes
  exact hc.loads hn hbytes hstop hpc

end Stages

end Lowering

namespace Compilation

open Lowering Assembly

variable (p : Program) (o : Options) (tracer : Trace.Tracer) (parent : Nat)

/-- The state that compiling starts with. -/
def initial : Emission :=
  let (tracer, span) := tracer.openSpan .program ("mos:" ++ Text.shown p.name) parent
  initialEmission o.target (.ofLimit o.mostDiagnostics) tracer span

/-- A part of lowering is performed on the way through the code of a program. -/
def Performs {α : Type} (act : Lower α) (s s' : Emission) : Prop :=
  ∃ begun coded, perform prologue p (initial p o tracer parent) = (.ok (), begun) ∧
    perform (pass "lower" (lowerCode p.entry?)) p begun = (.ok (), coded) ∧
    Amid p begun coded act s s'

variable {p o tracer parent}

/-- The stages that a program with an image goes through, and what is linked in the end. -/
theorem stages {image : Image} (himage : (compile (some p) o tracer parent).image = some image) :
    ∃ begun coded, perform prologue p (initial p o tracer parent) = (.ok (), begun) ∧
      perform (pass "lower" (lowerCode p.entry?)) p begun = (.ok (), coded) ∧
      Stages p begun coded (lowered p o tracer parent).2 ∧
      ∃ linked, (lowered p o tracer parent).2.workspace.stream.link image.origin = .ok linked ∧
        image.origin = o.target.loadAddress ∧
        image = { linked with entry := (linked.addressOf? startLabel).getD linked.entry } := by
  obtain ⟨-, hok⟩ := image_eq_some himage
  have hlowered : perform lowerProgram p (initial p o tracer parent) =
      (.ok image, (lowered p o tracer parent).2) :=
    Prod.ext hok rfl
  obtain ⟨begun, coded, hbegun, hcoded, hstages, linked, hlink, rfl⟩ :=
    perform_lowerProgram_ok hlowered rfl rfl rfl
  obtain ⟨opened, span, hfollows⟩ := lowered_follows p o tracer parent
  have horigin : linked.origin = o.target.loadAddress :=
    (Stream.link_extent hlink).1.trans (congrArg Target.loadAddress hfollows.workspace.target)
  exact ⟨begun, coded, hbegun, hcoded, hstages, linked,
    (Stream.link_extent hlink).1 ▸ hlink, horigin, rfl⟩

end Compilation

end Breadbin
