import Breadbin.Command.Run
import Breadbin.Proofs.Compilation.Blocks
import Breadbin.Proofs.Compilation.Regions
import Breadbin.Proofs.Disk.Runs
import Breadbin.Proofs.Routine.Strings
import Breadbin.Proofs.Text.Petscii

/-!
# The entry of a program file

The line in front of a program calls the address right behind it.  Its length depends on how many
digits that address has, and it is found again in the file of the program; a program without the
line never begins like one.
-/

set_option synthInstance.maxSize 100000
set_option synthInstance.maxHeartbeats 100000

namespace Breadbin

/-! ## The line that calls the program -/

namespace Text

theorem length_bytesOf_toString (n : Nat) :
    (bytesOf (toString n)).length = (Nat.toDigits 10 n).length := by
  have hone : ∀ c ∈ Nat.toDigits 10 n, (String.utf8EncodeChar c).length = 1 := by
    intro c hc
    have hdigit := Nat.isDigit_of_mem_toDigits (by decide) (by decide) hc
    rw [String.length_utf8EncodeChar, Char.utf8Size_eq_one_iff]
    simp only [Char.isDigit, Bool.and_eq_true, decide_eq_true_eq] at hdigit
    exact UInt32.le_trans hdigit.2 (by decide)
  rw [Nat.toString_eq_ofList_toDigits, bytesOf_ofList, List.length_flatMap,
    List.map_congr_left hone]
  simp

theorem length_decimal_le_iff {n k : Nat} (hk : 0 < k) :
    (bytesOf (toString n)).length ≤ k ↔ n < 10 ^ k := by
  rw [length_bytesOf_toString, Nat.length_toDigits_le_iff (by decide) hk]

theorem length_decimal_pos (n : Nat) : 0 < (bytesOf (toString n)).length := by
  rw [length_bytesOf_toString]
  exact Nat.length_toDigits_pos

theorem length_decimal_mono {m n : Nat} (h : m ≤ n) :
    (bytesOf (toString m)).length ≤ (bytesOf (toString n)).length :=
  (length_decimal_le_iff (length_decimal_pos n)).2
    (Nat.lt_of_le_of_lt h ((length_decimal_le_iff (length_decimal_pos n)).1 (Nat.le_refl _)))

theorem length_decimal_word (a : UInt16) : (bytesOf (toString a.toNat)).length ≤ 5 :=
  (length_decimal_le_iff (by decide)).2 (Nat.lt_trans a.toNat_lt (by decide))

end Text

namespace Target

open Text

theorem length_startLineBytes (load entry : UInt16) :
    (startLineBytes load entry).length = 9 + (bytesOf (toString entry.toNat)).length := by
  simp [startLineBytes]
  omega

/-- Where the line ends that calls an address. -/
theorem toNat_behind {load : UInt16} (hload : load.toNat ≤ 0xFFF1) (entry : UInt16) :
    (load + UInt16.ofNat (startLineBytes load entry).length).toNat =
      load.toNat + (startLineBytes load entry).length := by
  have hword := length_decimal_word entry
  rw [UInt16.toNat_add, UInt16.toNat_ofNat', length_startLineBytes]
  omega

/-- The search ends with the address right behind the line that calls it: each try that fails makes
the line longer. -/
theorem findEntry_fits {load : UInt16} (hload : load.toNat ≤ 0xFFF1) {tries : Nat} {entry : UInt16}
    (hle : entry.toNat ≤ load.toNat + (startLineBytes load entry).length)
    (htries : 7 ≤ tries + (bytesOf (toString entry.toNat)).length) :
    ∃ found, findEntry load tries entry = (startLineBytes load found, found) ∧
      found.toNat = load.toNat + (startLineBytes load found).length := by
  induction tries generalizing entry with
  | zero =>
    have := length_decimal_word entry
    omega
  | succ tries ih =>
    have hnext := toNat_behind hload entry
    generalize hbehind : load + UInt16.ofNat (startLineBytes load entry).length = next at hnext
    unfold findEntry
    simp only [hbehind]
    split
    next heq => exact ⟨entry, rfl, heq ▸ hnext⟩
    next hne =>
      have hmono := length_decimal_mono (hnext ▸ hle)
      have hlonger : (startLineBytes load entry).length ≤ (startLineBytes load next).length := by
        rw [length_startLineBytes, length_startLineBytes]
        omega
      rcases Nat.lt_or_ge (bytesOf (toString entry.toNat)).length
        (bytesOf (toString next.toNat)).length
        with hlt | hge
      · exact ih (by omega) (by omega)
      · -- the next line is as long, so the search stops there
        have hlength : (startLineBytes load next).length = (startLineBytes load entry).length := by
          rw [length_startLineBytes, length_startLineBytes]
          omega
        obtain ⟨tries, rfl⟩ : ∃ n, tries = n + 1 := ⟨tries - 1, by
          have := length_decimal_word entry
          omega⟩
        refine ⟨next, ?_, hlength ▸ hnext⟩
        unfold findEntry
        simp only [hlength, hbehind, if_true]

/-- Wherever a program is loaded, the line calls the address behind it. -/
theorem stub_fits {load : UInt16} (hload : load.toNat ≤ 0xFFF1) :
    ∃ entry, entry.toNat = load.toNat + (startLineBytes load entry).length ∧
      ∀ t : Target, t.startLine = true → t.loadAddress = load →
        t.stub = (startLineBytes load entry, entry) := by
  obtain ⟨entry, hfound, hentry⟩ := @findEntry_fits load hload 8 load (Nat.le_add_right _ _)
    (by have := length_decimal_pos load.toNat; omega)
  refine ⟨entry, hentry, fun t hline hat => ?_⟩
  rw [stub, if_pos hline, hat, hfound]

end Target

/-- A file that begins with the line starts behind it, and any other where it is loaded. -/
theorem Command.Executable.entry_ofPrg {name : Bytes} {p : Prg} {line : Bytes} {entry : UInt16}
    (hline : { Target.c64 with loadAddress := p.load }.stub = (line, entry)) :
    (ofPrg name p).entry = if line.isPrefixOf p.data then entry else p.load := by
  unfold ofPrg
  rw [hline]
  dsimp only
  split <;> rfl

namespace Assembly

/-! ## The first label -/

/-- When all named labels that are bound stand behind one of them, it is the first of its name. -/
theorem Listing.Linked.addressOf? {L : Listing} {image : Image} {env : Addresses}
    {ps : List Placement}
    (h : L.Linked image env ps) {l : LabelId} (hsome : l.isSome = true)
    (hl : l ∈ L.labels) {name : Bytes}
    (hname : L.names[l.number.toNat - 1]? = some name) (hne : name ≠ [])
    (hfirst : ∀ l' ∈ L.labels, env l ≤ env l') :
    ∃ a, image.addressOf? name = some a ∧ a.toNat = env l := by
  obtain ⟨symbol, hsymbol, hsymbolName, haddress⟩ := h.symbol hsome hl hname hne
  obtain ⟨found, hfound⟩ := Option.isSome_iff_exists.1 (List.find?_isSome
    (p := fun s : NamedAddress => s.label == name).2 ⟨symbol, hsymbol, by simp [hsymbolName]⟩)
  refine ⟨found.address, by rw [Image.addressOf?, hfound, Option.map_some], Nat.le_antisymm ?_ ?_⟩
  · -- the symbols are sorted
    obtain ⟨hfoundName, pre, post, hsplit, hpre⟩ := List.find?_eq_some_iff_append.1 hfound
    have hsorted := h.sorted
    rw [hsplit] at hsymbol hsorted
    rcases List.mem_append.1 hsymbol with hsymbol | hsymbol
    · exact absurd (hpre _ hsymbol) (by simp [hsymbolName])
    · rcases List.mem_cons.1 hsymbol with rfl | hsymbol
      · exact haddress.le
      · have hle := List.rel_of_pairwise_cons (List.pairwise_append.1 hsorted).2.1 hsymbol
        exact haddress ▸ UInt16.le_iff_toNat_le.1 hle
  · have hmem : (found.label, found.address.toNat) ∈
        (image.symbols.map fun s => (s.label, s.address.toNat)).filter
            (·.2 = found.address.toNat) :=
      List.mem_filter.2 ⟨List.mem_map.2 ⟨found, List.mem_of_find?_eq_some hfound, rfl⟩, by simp⟩
    rw [h.symbols] at hmem
    obtain ⟨⟨n, i⟩, -, hnamed⟩ := List.mem_filterMap.1 (List.mem_filter.1 hmem).1
    dsimp only at hnamed
    split at hnamed
    · cases hnamed
    · obtain ⟨l', hl', heq⟩ := Option.map_eq_some_iff.1 hnamed
      have haddress : env l' = found.address.toNat := congrArg Prod.snd heq
      exact haddress ▸ hfirst l' (List.mem_of_find?_eq_some hl')

/-- A label that is bound right behind the first bytes has the address behind them, and none has a
lower one. -/
theorem Listing.Linked.first {L : Listing} {image : Image} {env : Addresses} {ps : List Placement}
    (h : L.Linked image env ps) {bytes : List UInt8} {l : LabelId} {rest : List Line}
    (hlines : L.lines = .data bytes :: .bound l :: rest) :
    ∃ back, image.bytes.toList = bytes ++ back.flatMap Placement.bytes ∧
      back.map Placement.line = rest ∧
      env l = image.origin.toNat + bytes.length + Placement.gap back ∧
      (∀ l' ∈ L.labels, image.origin.toNat + bytes.length ≤ env l') ∧
      Placement.Assembled env (image.origin.toNat + bytes.length) back := by
  have hps := h.lines
  rw [hlines] at hps
  obtain ⟨data, ps, rfl, hdata, hps⟩ := List.map_eq_cons_iff.1 hps
  obtain ⟨start, back, rfl, hstart, hback⟩ := List.map_eq_cons_iff.1 hps
  have hraw : data.bytes = bytes := by
    rw [h.fixed data List.mem_cons_self (by rw [hdata]; rfl) (by rw [hdata]; rfl), hdata]
    rfl
  have hempty : start.bytes = [] := by
    rw [h.fixed start (by simp) (by rw [hstart]; rfl) (by rw [hstart]; rfl), hstart]
    rfl
  refine ⟨back, by rw [h.bytes]; simp [hraw, hempty], hback, ?_, fun l' hl' => ?_, ?_⟩
  · have hplace := (@Placement.Assembled.split _ _ [data] back start h.assembled).2 l hstart
    simpa [hraw] using hplace
  · obtain ⟨line, hline, hlabel⟩ := List.mem_filterMap.1 hl'
    rw [← h.lines] at hline
    obtain ⟨q, hq, rfl⟩ := List.mem_map.1 hline
    have hbound : q.line = .bound l' := by
      cases hqline : q.line <;> simp_all [Line.label?]
    obtain ⟨pre, post, hsplit⟩ := List.append_of_mem hq
    have hassembled := h.assembled
    rw [hsplit] at hassembled
    have hplace := (hassembled.split).2 l' hbound
    cases pre with
    | nil =>
      obtain rfl := (List.cons.inj hsplit).1
      rw [hdata] at hbound
      cases hbound
    | cons p pre =>
      obtain rfl := (List.cons.inj hsplit).1
      rw [hplace, Placement.size_cons, hraw]
      omega
  · obtain ⟨-, -, -, -, hassembled⟩ := h.assembled
    rw [hraw, hempty] at hassembled
    exact hassembled

/-- The bytes of an instruction that is no branch. -/
theorem Line.Encodes.instr_eq {env : Addresses} {a : Nat} {mn : Mnemonic} {arg : Arg}
    {bytes : List UInt8} (h : (Line.instr mn arg).Encodes env a bytes) {code : UInt8}
    (hcode : Opcode.encode? mn arg.mode = some code) (harg : ∀ l, arg ≠ .relative l) :
    bytes = code :: arg.bytes env := by
  cases h with
  | instr known fixed fits => rw [Option.some.inj (hcode.symm.trans known)]
  | short => exact absurd rfl (harg _)
  | long => exact absurd rfl (harg _)

end Assembly

namespace Lowering

open Assembly Emission

variable {p : Program} {s s' : Emission}

/-! ## What comes before the code -/

/-- Nothing is reported, and no more bytes are counted for global variables. -/
structure Emission.Reserves (s s' : Emission) : Prop where
  reports : s'.reports = s.reports
  globalSize : s'.globalSize = s.globalSize

instance : Path Emission.Reserves where
  refl _ := ⟨rfl, rfl⟩
  trans h h' := ⟨h'.reports.trans h.reports, h'.globalSize.trans h.globalSize⟩

instance (id : SymbolId) : Moves Reserves (symbol id) := by
  unfold symbol
  refine .bind inferInstance fun p => ?_
  split <;> infer_instance

instance (id : SymbolId) : Moves Reserves (allocate id) where
  moves p s := by
    rw [perform_allocate]
    split <;> exact ⟨rfl, rfl⟩

instance (name : Bytes) : Moves Reserves (write (.namedLabel name)) where
  moves _ _ := ⟨rfl, rfl⟩

instance (g : Declaration) : Moves Reserves (allocateGlobal g) := by
  have : Moves Reserves
      (modify fun e => { e with constants := (g.symbol, g.value) :: e.constants } : Lower PUnit) :=
    .modify fun _ => ⟨rfl, rfl⟩
  unfold allocateGlobal
  infer_instance

instance (f : Function) : Moves Reserves (allocateFrame f) := by
  have (l : LabelId) :
      Moves Reserves (modify fun s =>
        { s with functions := (f.id, l) :: s.functions } : Lower PUnit) := .modify fun _ =>
          ⟨rfl, rfl⟩
  unfold allocateFrame
  infer_instance

/-- The bytes of the global variables are counted, and nothing is reported. -/
theorem perform_allocateStorage_ok (h : perform allocateStorage p s = (.ok (), s')) :
    s'.reports = s.reports ∧ ∃ s₁,
      perform (p.globals.items.forM allocateGlobal) p s = (.ok (), s₁) ∧
      s'.globalSize = s₁.allocator.used := by
  unfold allocateStorage at h
  rw [perform_read_bind] at h
  obtain ⟨_, s₁, hglobals, h⟩ := ok_of_perform_bind h
  rw [perform_modify_bind] at h
  have hfirst : Reserves s s₁ := leads hglobals
  have hlast : Reserves { s₁ with globalSize := s₁.allocator.used } s' := leads h
  exact ⟨hlast.reports.trans hfirst.reports, s₁, hglobals, hlast.globalSize⟩

theorem used_ofTarget (t : Target) : (Allocator.ofTarget t).used = 0 := by
  simp [Allocator.ofTarget, Allocator.used, Allocator.wrap]

/-- After something was allocated there are bytes in use. -/
theorem used_pos {a : Allocator} (h : a.Sound) (hslots : a.slots.toList ≠ []) : 0 < a.used := by
  obtain ⟨slot, hslot⟩ := List.exists_mem_of_ne_nil _ hslots
  obtain ⟨hlow, hsize, hstop⟩ := h.within slot hslot
  have hlow := UInt16.le_iff_toNat_le.1 hlow
  have hhigh := h.high
  have hlimit := a.limit.toNat_lt
  unfold Slot.stop at hstop
  rw [Allocator.used, Allocator.wrap_eq (by omega) (by omega)]
  omega

theorem allocateGlobal_slots {g : Declaration} (h : perform (allocateGlobal g) p s = (.ok (), s')) :
    s'.allocator.slots.toList ≠ [] := by
  unfold allocateGlobal at h
  obtain ⟨_, s₁, hallocate, h⟩ := ok_of_perform_bind h
  have : Moves Names
      (modify fun e => { e with constants := (g.symbol, g.value) :: e.constants } : Lower PUnit) :=
    .modify fun _ => .of_eq rfl rfl rfl rfl rfl
  have hrest : s₁.Names s' := leads h
  have hslots : s₁.allocator.slots.toList ≠ [] := by
    rw [perform_allocate] at hallocate
    split at hallocate
    next a address ha =>
      cases hallocate
      unfold Allocator.allocateSymbol at ha
      split at ha
      · cases ha
      · obtain ⟨-, -, -, -, -, -, rfl⟩ := Allocator.allocate_eq ha
        simp
    next => cases hallocate
  exact fun hnone => hslots (List.prefix_nil.1 (hnone ▸ hrest.allocator.slots))

/-- There are bytes of global variables if there are any such variables. -/
theorem used_globals (h : perform (p.globals.items.forM allocateGlobal) p s = (.ok (), s'))
    (hsound : s.allocator.Sound) (hfresh : s.allocator.used = 0) :
    s'.allocator.used.toNat = 0 ↔ p.globals.items = [] := by
  cases hglobals : p.globals.items with
  | nil =>
    rw [hglobals] at h
    cases h
    simp [hfresh]
  | cons g gs =>
    rw [hglobals] at h
    refine iff_of_false ?_ (List.cons_ne_nil _ _)
    obtain ⟨_, s₁, hg, hgs⟩ := ok_of_perform_bind (f := fun _ => gs.forM allocateGlobal) h
    have hfirst : s.Names s₁ := leads hg
    have hrest : s₁.Names s' := leads hgs
    have hslots : s'.allocator.slots.toList ≠ [] := fun hnone =>
      allocateGlobal_slots hg (List.prefix_nil.1 (hnone ▸ hrest.allocator.slots))
    have hpos : 0 < s'.allocator.used :=
      used_pos (hrest.allocator.sound (hfirst.allocator.sound hsound)) hslots
    omega

/-- The complaint about a program that has no function to start with. -/
def missingEntry : Diagnostic := .error .missingEntry .none "program has no entry function"

theorem declareData_globalSize (seen : List Bytes) (blocks : List (DataBlock × Nat))
    (p : Program) (s : Emission) :
    (perform (declareData seen blocks) p s).2.globalSize = s.globalSize := by
  induction blocks generalizing seen s with
  | nil => rfl
  | cons b blocks ih =>
    obtain ⟨d, i⟩ := b
    unfold declareData
    split
    · unfold reportError report
      rw [perform_modify_bind]
      exact ih _ _
    · split
      · unfold reportError report
        rw [perform_modify_bind]
        exact ih _ _
      · exact ih (d.name :: seen) (s.declare (d, i))

/-- Before code is written storage is allocated; a missing entry is the first thing that is
reported. -/
theorem declarations_ok (h : perform declarations p s = (.ok (), s')) :
    ∃ t s₁, perform allocateStorage p { s with tracer := t } = (.ok (), s₁) ∧
      s'.globalSize = s₁.globalSize ∧
      (p.entry? = none → ∃ ds, s'.reports = (s₁.reports.report missingEntry).reportAll ds) := by
  unfold declarations at h
  rw [perform_read_bind] at h
  obtain ⟨_, s₂, hpass, h⟩ := ok_of_perform_bind h
  obtain ⟨t, s₁, t', hallocate, rfl⟩ := perform_pass_ok hpass
  have hrest (s₃ : Emission)
      (h : perform (do warnRecursion; declareData [] p.data.items.zipIdx) p s₃ = (.ok (), s')) :
      s'.globalSize = s₃.globalSize ∧ ∃ ds, s'.reports = s₃.reports.reportAll ds := by
    obtain ⟨_, s₄, hwarn, h⟩ := ok_of_perform_bind h
    have hstays : s₃.Codes [] s₄ := leads hwarn
    have hnames := (declareData_moves [] p.data.items.zipIdx).moves p s₄
    have hsize := declareData_globalSize [] p.data.items.zipIdx p s₄
    rw [h] at hnames hsize
    exact ⟨hsize.trans hstays.globalSize, (Path.trans hstays.toFollows hnames.toFollows).reports⟩
  refine ⟨t, s₁, hallocate, ?_⟩
  split at h
  next hentry =>
    obtain ⟨_, s₃, hreport, h⟩ := ok_of_perform_bind h
    cases hreport
    obtain ⟨hsize, ds, hds⟩ := hrest _ h
    exact ⟨hsize, fun _ => ⟨ds, hds⟩⟩
  next hentry =>
    exact ⟨(hrest _ h).1, fun hnone => absurd (by rw [hnone]; rfl) hentry⟩

/-- The stream begins with the bytes in front of the program and the label of its start. -/
theorem prologue_starts (h : perform prologue p s = (.ok (), s'))
    (hstream : s.workspace.stream = {}) (few : s'.workspace.stream.labels.size < 4294967296) :
    ∃ l : LabelId, l.isSome = true ∧
      s'.workspace.stream.names[l.number.toNat - 1]? = some startLabel ∧
      Stream.Grows {} s'.workspace.stream [.data s.workspace.target.stub.1, .bound l] := by
  obtain ⟨_, s₁, hdeclared, h⟩ := ok_of_perform_bind h
  have hnames : s.Names s₁ := leads hdeclared
  rw [perform_get_bind] at h
  obtain rfl := congrArg Prod.snd h
  have htarget : s₁.workspace.target = s.workspace.target := hnames.workspace.target
  let t := s₁.workspace.stream.data s₁.workspace.target.stub.1
  have hbytes : s₁.workspace.stream.Grows t [.data s₁.workspace.target.stub.1] :=
    @Stream.Grows.writing s₁.workspace.stream [.data _] rfl
  have hlabel : t.Grows (t.placeLabel startLabel).1 [.bound (t.addLabel startLabel).2] :=
    (Stream.Grows.addLabel t startLabel).trans
      (@Stream.Grows.writing (t.addLabel startLabel).1 [.bound _] rfl)
  have hstart := (hnames.unwritten.trans hbytes).trans hlabel
  rw [hstream, htarget] at hstart
  have hsize : (t.placeLabel startLabel).1.labels.size = t.labels.size + 1 :=
    (Stream.size_labels_bind _ _).trans (Stream.size_labels_addLabel _ _)
  have few : t.labels.size + 1 < 4294967296 := hsize ▸ few
  have hnumber : (t.addLabel startLabel).2.number.toNat = t.labels.size + 1 :=
    Stream.number_addLabel few startLabel
  refine ⟨(t.addLabel startLabel).2, Stream.isSome_addLabel few startLabel, ?_, hstart⟩
  have hmade : (t.placeLabel startLabel).1.names = t.names ++ [startLabel] :=
    (Stream.names_bind _ _).trans (Stream.names_addLabel _ _)
  show (t.placeLabel startLabel).1.names[_]? = _
  rw [hmade, hnumber]
  simp [Stream.names]

/-! ## The first instructions -/

/-- Lowering writes some lines first. -/
def Opens (act : Lower Unit) (ls : List Line) : Prop :=
  ∀ p s s', perform act p s = (.ok (), s') →
    ∃ s₁ : Emission, s.workspace.stream.Grows s₁.workspace.stream ls ∧ s₁.Codes [] s'

namespace Opens

variable {α : Type} {x : Lower α} {f : α → Lower Unit} {act : Lower Unit}
  {line : Line} {ls : List Line}

theorem nothing [hact : Moves (Codes []) act] : Opens act [] := by
  intro p s s' h
  have hmoves := hact.moves p s
  rw [h] at hmoves
  exact ⟨s, .refl _, hmoves⟩

theorem bind {g : Unit → Lower Unit} (h : Opens act ls) [hg : ∀ a, Moves (Codes []) (g a)] :
    Opens (act >>= g) ls := by
  intro p s s' hdone
  obtain ⟨_, s₁, hact, hdone⟩ := ok_of_perform_bind hdone
  obtain ⟨s₂, hls, hcodes⟩ := h p s s₁ hact
  have hmoves := (hg ()).moves p s₁
  rw [hdone] at hmoves
  exact ⟨s₂, hls, Path.trans hcodes hmoves⟩

/-- One line is written and then others. -/
theorem cons (hx : ∀ p s, ∃ a s₁, perform x p s = (.ok a, s₁) ∧
    s.workspace.stream.Grows s₁.workspace.stream [line])
    (hf : ∀ a, Opens (f a) ls) : Opens (x >>= f) (line :: ls) := by
  intro p s s' hdone
  obtain ⟨a, s₁, hperform, hdone⟩ := ok_of_perform_bind hdone
  obtain ⟨a', s₁', hperform', hline⟩ := hx p s
  obtain ⟨rfl, rfl⟩ : a = a' ∧ s₁ = s₁' := by simpa using hperform.symm.trans hperform'
  obtain ⟨s₂, hls, hcodes⟩ := hf a p s₁ s' hdone
  exact ⟨s₂, hline.trans hls, hcodes⟩

theorem imm {mn : Mnemonic} {v : UInt8} {f : Unit → Lower Unit} (hf : ∀ a, Opens (f a) ls) :
    Opens (Lowering.imm mn v >>= f) (.instr mn (.immediate v) :: ls) :=
  cons (fun _ s =>
    ⟨_, _, rfl, @Stream.Grows.writing s.workspace.stream [.instr mn (.immediate v)] rfl⟩) hf

theorem rts {f : Unit → Lower Unit} [hf : ∀ a, Moves (Codes []) (f a)] :
    Opens (op .rts >>= f) [.instr .rts .implied] :=
  cons (fun _ s => ⟨_, _, rfl, @Stream.Grows.writing s.workspace.stream [.instr .rts .implied] rfl⟩)
    fun _ => .nothing

theorem call {l : LabelId} {f : Unit → Lower Unit} (hf : ∀ a, Opens (f a) ls) :
    Opens (write (.callLabel l) >>= f) (.instr .jsr (.absolute (.ofLabel l)) :: ls) :=
  cons (fun _ s =>
    ⟨_, _, rfl, @Stream.Grows.writing s.workspace.stream
      [.instr .jsr (.absolute (.ofLabel l))] rfl⟩) hf

end Opens

/-- The instructions that code starts with: the clearing of variables, or a call that another call
or a return follows. -/
inductive StartsUp : List Line → Prop where
  | clearing (c : UInt8) : StartsUp [.instr .lda (.immediate 0), .instr .ldx (.immediate c)]
  | calling (l l' : LabelId) :
      StartsUp [.instr .jsr (.absolute (.ofLabel l)), .instr .jsr (.absolute (.ofLabel l'))]
  | returning (l : LabelId) : StartsUp [.instr .jsr (.absolute (.ofLabel l)), .instr .rts .implied]

theorem clearRegion_opens (base : UInt16) {size : Nat} (hsize : size ≠ 0) :
    Opens (clearRegion base size)
      [.instr .lda (.immediate 0),
        .instr .ldx (.immediate (UInt8.ofNat (min (size - 256 * 0) 256)))] := by
  obtain ⟨n, hn⟩ : ∃ n, (size + 255) / 256 = n + 1 := ⟨(size + 255) / 256 - 1, by omega⟩
  unfold clearRegion
  rw [if_pos hsize, hn, List.range_succ_eq_map]
  exact .imm fun _ => .bind (.imm fun _ => .nothing)

theorem lowerCode_opens {f : Function} (h : perform (lowerCode (some f)) p s = (.ok (), s'))
    (hglobals : s.globalSize.toNat = 0 → p.globals.items = []) :
    ∃ (ls : List Line) (s₁ : Emission), StartsUp ls ∧
      s.workspace.stream.Grows s₁.workspace.stream ls ∧
      s₁.Codes [] s' := by
  let rest : Lower Unit := do
    if p.callsBuiltin Builtin.isRandom then callRoutine .randomInit
    write (.callLabel (((← get).functions.lookup f.id).getD .none))
    op .rts
    p.functions.items.forM lowerFunction
  obtain ⟨_, s₁, hfirst, hdone⟩ :=
    ok_of_perform_bind (show perform (initialiseGlobals >>= fun _ => rest) p s = _ from h)
  unfold initialiseGlobals at hfirst
  rw [perform_get_bind] at hfirst
  by_cases hsize : s.globalSize.toNat = 0
  · have hnone : s₁ = s := by
      obtain ⟨_, s₂, hclear, hfirst⟩ := ok_of_perform_bind hfirst
      rw [hsize, clearRegion, if_neg (by simp)] at hclear
      cases hclear
      rw [perform_read_bind, hglobals hsize] at hfirst
      cases hfirst
      rfl
    subst hnone
    dsimp only [rest] at hdone
    split at hdone
    · obtain ⟨_, s₂, hroutine, hdone⟩ := ok_of_perform_bind hdone
      rw [perform_get_bind] at hdone
      obtain ⟨s₃, hls, hcodes⟩ := Opens.call (fun _ => .nothing) p s₂ s' hdone
      obtain rfl := congrArg Prod.snd hroutine
      have hcall := (s₁.workspace.require_grows .randomInit).stream.trans
        (@Stream.Grows.writing
          _ [.instr .jsr (.absolute (.ofLabel (s₁.workspace.require .randomInit).2))] rfl)
      exact ⟨_, s₃, .calling _ _, hcall.trans hls, hcodes⟩
    · rw [perform_get_bind] at hdone
      obtain ⟨s₂, hls, hcodes⟩ := Opens.call (fun _ => .rts) p s₁ s' hdone
      exact ⟨_, s₂, .returning _, hls, hcodes⟩
  · obtain ⟨s₂, hls, hcodes⟩ := (clearRegion_opens _ hsize).bind p s s₁ hfirst
    have hmoves : Moves (Codes []) rest := by
      dsimp only [rest]
      split <;> infer_instance
    have hrest := hmoves.moves p s₁
    rw [hdone] at hrest
    exact ⟨_, s₂, .clearing _, hls, Path.trans hcodes hrest⟩

theorem StartsUp.solid {ls : List Line} (h : StartsUp ls) :
    ∃ line tail, ls = line :: tail ∧ line.isSolid = true := by
  cases h with
  | clearing c => exact ⟨_, _, rfl, by decide⟩
  | calling l l' | returning l =>
    exact ⟨_, _, rfl, Line.isSolid_instr (show Opcode.takes .jsr .absolute = true by decide)⟩

theorem StartsUp.forward {ls : List Line} (h : StartsUp ls) (mn : Mnemonic) (l : LabelId) :
    .instr mn (.relative l) ∉ ls := by
  cases h <;> simp

/-- Code that starts up does not look like the line that calls the program. -/
theorem StartsUp.bytes_ne {ls rest : List Line} (h : StartsUp ls) {env : Addresses} {a : Nat}
    {ps : List Placement}
    (hlines : ps.map Placement.line = ls ++ rest) (hassembled : Placement.Assembled env a ps)
    (b b' : UInt8)
    (tail : List UInt8) : ps.flatMap Placement.bytes ≠ b :: b' :: 10 :: 0 :: tail := by
  have hjsr : Opcode.encode? .jsr .absolute = some 0x20 := by decide
  have hldx : Opcode.encode? .ldx .immediate = some 0xA2 := by decide
  cases h with
  | clearing c =>
    obtain ⟨x, ps, rfl, hx, hps⟩ := List.map_eq_cons_iff.1 hlines
    obtain ⟨y, ps, rfl, hy, -⟩ := List.map_eq_cons_iff.1 hps
    obtain ⟨hfirst, -, hsecond, -, -⟩ := hassembled
    rw [hx] at hfirst
    rw [hy] at hsecond
    rw [List.flatMap_cons, List.flatMap_cons,
      hfirst.instr_eq (show _ = some 0xA9 by decide) (fun _ h => by cases h),
      hsecond.instr_eq hldx (fun _ h => by cases h)]
    simp [Arg.bytes]
  | calling l l' =>
    obtain ⟨x, ps, rfl, hx, hps⟩ := List.map_eq_cons_iff.1 hlines
    obtain ⟨y, ps, rfl, hy, -⟩ := List.map_eq_cons_iff.1 hps
    obtain ⟨hfirst, -, hsecond, -, -⟩ := hassembled
    rw [hx] at hfirst
    rw [hy] at hsecond
    rw [List.flatMap_cons, List.flatMap_cons, hfirst.instr_eq hjsr (fun _ h => by cases h),
      hsecond.instr_eq hjsr (fun _ h => by cases h)]
    simp [Arg.bytes, wordBytes]
  | returning l =>
    obtain ⟨x, ps, rfl, hx, hps⟩ := List.map_eq_cons_iff.1 hlines
    obtain ⟨y, ps, rfl, hy, -⟩ := List.map_eq_cons_iff.1 hps
    obtain ⟨hfirst, -, hsecond, -, -⟩ := hassembled
    rw [hx] at hfirst
    rw [hy] at hsecond
    rw [List.flatMap_cons, List.flatMap_cons, hfirst.instr_eq hjsr (fun _ h => by cases h),
      hsecond.instr_eq (show _ = some 0x60 by decide) (fun _ h => by cases h)]
    simp [Arg.bytes, wordBytes]

end Lowering

/-! ## A program without a function to start with -/

theorem Reports.hasErrors_reportAll {r : Reports} (h : r.bag.hasErrors = true)
    (ds : List Diagnostic) :
    (r.reportAll ds).bag.hasErrors = true := by
  induction ds generalizing r with
  | nil => exact h
  | cons d ds ih =>
    refine ih ?_
    have hadd : (r.bag.add d).hasErrors = true := by
      obtain ⟨e, he, herror⟩ := (Bag.hasErrors_iff r.bag).1 h
      refine (Bag.hasErrors_iff _).2 ⟨e, ?_, herror⟩
      unfold Bag.add
      split
      · exact he
      · simp [he]
    unfold Reports.report
    split
    · exact hadd
    · dsimp only
      split
      · exact h
      · exact hadd

/-- The first report is always kept. -/
theorem Reports.hasErrors_missingEntry (limit : Int) :
    ((Reports.filtering (.ofLimit limit)).report Lowering.missingEntry).bag.hasErrors = true := by
  have hopen : (Bag.ofLimit limit).isFull = false := by
    unfold Bag.ofLimit Bag.isFull
    by_cases hlimit : limit ≤ 0
    · simp [hlimit]
    · simp [hlimit]
  have hreport : ((Reports.filtering (.ofLimit limit)).report Lowering.missingEntry).bag =
      (Bag.ofLimit limit).add Lowering.missingEntry := rfl
  rw [hreport, Bag.add, hopen]
  exact (Bag.hasErrors_iff _).2 ⟨Lowering.missingEntry, by simp, by decide⟩

namespace Compilation

open Lowering Assembly

variable {p : Program} {o : Options} {tracer : Trace.Tracer} {parent : Nat} {image : Image}

theorem hasErrors_eq_false (himage : (compile (some p) o tracer parent).image = some image) :
    (lowered p o tracer parent).2.reports.bag.hasErrors = false := by
  rw [(compile_eq p tracer parent (image_eq_some himage).1).2.2] at himage
  split at himage
  · cases himage
  next h => simpa using h

/-- A program that nothing is wrong with has a function to start with, and bytes for its global
variables. -/
theorem prologue_reserves (htarget : o.target.error? = none) {begun : Emission}
    (h : perform prologue p (initial p o tracer parent) = (.ok (), begun)) :
    (p.entry? = none → begun.reports.bag.hasErrors = true) ∧
      (begun.globalSize.toNat = 0 → p.globals.items = []) := by
  obtain ⟨_, s₁, hdeclared, h⟩ := ok_of_perform_bind h
  rw [perform_get_bind] at h
  obtain rfl := congrArg Prod.snd h
  obtain ⟨t, s₂, hallocate, hsize, hreports⟩ := declarations_ok hdeclared
  obtain ⟨hkept, s₃, hglobals, hused⟩ := perform_allocateStorage_ok hallocate
  refine ⟨fun hnone => ?_, fun hzero => ?_⟩
  · obtain ⟨ds, hds⟩ := hreports hnone
    show s₁.reports.bag.hasErrors = true
    rw [hds, hkept]
    exact Reports.hasErrors_reportAll (Reports.hasErrors_missingEntry _) ds
  · have hzero : s₁.globalSize.toNat = 0 := hzero
    rw [hsize, hused] at hzero
    exact (used_globals hglobals
      (Allocator.ofTarget_sound (UInt16.le_of_lt (Target.base_lt_limit htarget)))
      (used_ofTarget o.target)).1 hzero

/-- An image starts behind what stands in front of the program, with instructions that are none of
the line that calls it. -/
theorem image_starts (himage : (compile (some p) o tracer parent).image = some image)
    (few : (lowered p o tracer parent).2.workspace.stream.labels.size < 4294967296)
    (hlast : ∀ f, p.functions.items.getLast? = some f → EndsAsTagged f) :
    ∃ code, image.bytes.toList = o.target.stub.1 ++ code ∧
      (∀ b b' tail, code ≠ b :: b' :: 10 :: 0 :: tail) ∧
      image.entry.toNat = image.origin.toNat + o.target.stub.1.length := by
  have hclean := hasErrors_eq_false himage
  obtain ⟨begun, coded, hbegun, hcoded, hstages, linked, hlink, -, rfl⟩ := stages himage
  obtain ⟨hentry, hglobals⟩ := prologue_reserves (image_eq_some himage).1 hbegun
  obtain ⟨ds, hds⟩ := hstages.reports
  obtain ⟨f, hf⟩ : ∃ f, p.entry? = some f := by
    refine Option.ne_none_iff_exists'.1 fun hnone => ?_
    rw [hds, Reports.hasErrors_reportAll (hentry hnone)] at hclean
    cases hclean
  have hcodes : begun.workspace.stream.Precedes coded.workspace.stream :=
    hstages.codes.workspace.stream
  have hbehind : coded.workspace.stream.Precedes (lowered p o tracer parent).2.workspace.stream :=
    (Routine.emitLibrary_keeps coded.workspace).stream.trans ⟨_, hstages.written_eq⟩
  have hwritten := hcodes.trans hbehind
  obtain ⟨l, hsome, hname, hhead⟩ :=
    prologue_starts hbegun rfl (Nat.lt_of_le_of_lt hwritten.labels few)
  -- the code starts with instructions that are none of the line
  obtain ⟨t, s₁, t', hlower, rfl⟩ := perform_pass_ok hcoded
  rw [hf] at hlower
  obtain ⟨ls, s₂, hls, hstart, hrest⟩ := lowerCode_opens hlower hglobals
  obtain ⟨more, hmore, hbranches⟩ := hrest.branches
  obtain ⟨names, library, ps, hL, -, hlinked, horigin⟩ := hstages.linked few
    (.inl (coded_followed hlast hcoded hhead.precedes (hbehind.error (Stream.link_eq hlink).1)))
      hlink hhead (by simp)
    (hstart.trans hmore) fun mn l hl => by
      rcases List.mem_append.1 hl with hl | hl
      · exact absurd hl (hls.forward mn l)
      · exact ((hbranches mn l hl).resolve_left List.not_mem_nil).mono hstart.precedes (.refl _)
  obtain ⟨back, hbytes, hlines, haddress, hleast, hassembled⟩ := hlinked.first rfl
  have hlines := hlines.trans
    ((List.append_assoc (ls ++ more) library _).trans (List.append_assoc ls more _))
  have hgap : Placement.gap back = 0 := by
    obtain ⟨line, tail, rfl, hsolid⟩ := hls.solid
    obtain ⟨x, back, rfl, hx, -⟩ := List.map_eq_cons_iff.1 hlines
    simp [Placement.gap, hx, hsolid]
  rw [hgap, Nat.add_zero] at haddress
  -- the first label of its name is the one behind the line
  obtain ⟨others, hothers⟩ := hwritten.names
  have hname : (lowered p o tracer parent).2.workspace.stream.names[l.number.toNat - 1]? =
      some startLabel := by
    rw [← hothers, List.getElem?_append_left (List.getElem?_eq_some_iff.1 hname).1]
    exact hname
  obtain ⟨a, hlookup, ha⟩ :=
    hlinked.addressOf? hsome (List.mem_filterMap.2 ⟨.bound l, by simp, rfl⟩)
    ((congrArg (·[_]?) hL.names).symm.trans hname) (Text.bytesOf_ne_nil (by decide)) fun l' hl' =>
      haddress ▸ hleast l' hl'
  refine ⟨back.flatMap Placement.bytes, hbytes, hls.bytes_ne hlines hassembled, ?_⟩
  show ((linked.addressOf? startLabel).getD linked.entry).toNat = _
  rw [hlookup, Option.getD_some, ha, haddress]
  rfl

theorem image_extent (himage : (compile (some p) o tracer parent).image = some image) :
    image.origin = o.target.loadAddress ∧ image.stop ≤ 0x10000 := by
  obtain ⟨-, -, -, -, -, linked, hlink, horigin, rfl⟩ := stages himage
  exact ⟨horigin, (Stream.link_extent hlink).2⟩

/-- What a program file keeps of an image: where it is loaded, its bytes, and where it starts. -/
structure KeepsEntry (t : Target) (image : Image) : Prop where
  origin : image.origin = t.loadAddress
  /-- the file is read as the image -/
  written : (Prg.ofImage image).toBytes = .ok (Prg.ofImage image).contents
  parsed : Prg.parse (Prg.ofImage image).contents = .ok ⟨image.origin, image.bytes.toList⟩
  /-- the program starts where the file says -/
  entry : ∀ name, (Command.Executable.ofPrg name (Prg.ofImage image)).entry = image.entry
  bare : t.startLine = false → image.entry = t.loadAddress
  /-- the line in front of the program calls its first instruction, and its link leads to the end of
  the lines -/
  called : t.startLine = true → ∃ low high : UInt8,
    t.stub.1 = [low, high, 10, 0, 0x9E, 0x20] ++ Text.bytesOf (toString image.entry.toNat) ++
      [0, 0, 0] ∧
    t.stub.1 <+: image.bytes.toList ∧ image.entry.toNat = t.loadAddress.toNat + t.stub.1.length ∧
    low.toNat + 256 * high.toNat = t.loadAddress.toNat + (t.stub.1.length - 2)

/-- **A program file keeps where its program starts.**  Every image that is loaded where the line
that calls it fits is read from its file again, and starts where the file says: behind that line, if
it has one.  The line calls that address, and no program without the line begins like one.  Labels
are numbered in 32 bits, and of the last function the last statement is a return if it is tagged as
one. -/
theorem entry_kept (himage : (compile (some p) o tracer parent).image = some image)
    (few : (lowered p o tracer parent).2.workspace.stream.labels.size < 4294967296)
    (hlast : ∀ f, p.functions.items.getLast? = some f → EndsAsTagged f)
    (hload : o.target.loadAddress.toNat ≤ 0xFFF1) : KeepsEntry o.target image := by
  obtain ⟨code, hbytes, hcode, hentry⟩ := image_starts himage few hlast
  obtain ⟨horigin, hstop⟩ := image_extent himage
  have hfits : (Prg.ofImage image).Fits := by
    rwa [Prg.Fits, Prg.stop, Prg.ofImage, Array.length_toList]
  obtain ⟨a, ha, hstub⟩ := Target.stub_fits (horigin ▸ hload : image.origin.toNat ≤ 0xFFF1)
  have hbare (hcalled : o.target.startLine = false) : o.target.stub.1 = [] := by
    simp [Target.stub, hcalled]
  refine ⟨horigin, congrArg (Except.map _) (if_pos hfits),
    Disk.Prg.parse_contents hfits, fun name => ?_, fun hcalled => ?_, fun hcalled => ?_⟩
  · rw [Command.Executable.entry_ofPrg (hstub _ rfl rfl)]
    cases hcalled : o.target.startLine with
    | true =>
      rw [hstub _ hcalled horigin.symm] at hbytes hentry
      exact (if_pos (List.isPrefixOf_iff_prefix.2 ⟨code, hbytes.symm⟩)).trans
        (UInt16.toNat_inj.1 (ha.trans hentry.symm))
    | false =>
      rw [hbare hcalled] at hbytes hentry
      refine (if_neg fun hprefix => ?_).trans (UInt16.toNat_inj.1 hentry.symm)
      -- code that nothing stands in front of does not begin like the line
      obtain ⟨tail, htail⟩ := List.isPrefixOf_iff_prefix.1 hprefix
      exact hcode _ _ _ (hbytes.symm.trans htail.symm)
  · rw [hbare hcalled] at hentry
    exact UInt16.toNat_inj.1 (horigin ▸ hentry)
  · rw [hstub _ hcalled horigin.symm] at hbytes hentry ⊢
    have hdigits := Text.length_decimal_word a
    have hlength := Target.length_startLineBytes image.origin a
    obtain rfl : image.entry = a := UInt16.toNat_inj.1 (hentry.trans ha.symm)
    refine ⟨_, _, rfl, ⟨code, hbytes.symm⟩, horigin ▸ hentry, ?_⟩
    rw [Routine.toNat_addressBytes, UInt16.toNat_add, UInt16.toNat_add,
      UInt16.toNat_ofNat', hlength, horigin, show (7 : UInt16).toNat = 7 from rfl]
    omega

theorem tables_kept : ∃ image, (compile (some tables) {} .off 0).image = some image ∧
    ({} : Options).target.loadAddress.toNat ≤ 0xFFF1 ∧ KeepsEntry ({} : Options).target image := by
  obtain ⟨hcompiled, hfew⟩ := tables_compiled
  obtain ⟨image, himage⟩ := Option.isSome_iff_exists.1 hcompiled
  refine ⟨image, himage, by decide, entry_kept himage hfew (fun f hf s hs htag => ?_) (by decide)⟩
  obtain rfl : asking = f := Option.some.inj hf
  obtain rfl : Stmt.evaluate {} (.dataAddress { type := .scalar .u16 } 2) = s := Option.some.inj hs
  exact absurd htag (by decide)

end Compilation

end Breadbin
