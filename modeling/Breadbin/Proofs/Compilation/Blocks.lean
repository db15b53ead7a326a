import Breadbin.Proofs.Compilation.Parts
import Breadbin.Proofs.Text.Petscii

/-!
# Data blocks and literals

Every data block gets a label before any code is written, and its bytes are written last, behind the
constants. In the image of a program it lies where its label is.
-/

namespace Breadbin

namespace Assembly

variable {s s' : Stream}

/-! ## The names of labels -/

/-- Labels keep their names. -/
theorem Stream.Precedes.names (h : s.Precedes s') : s.names <+: s'.names := by
  obtain ⟨actions, rfl⟩ := h
  induction actions generalizing s with
  | nil => exact List.prefix_rfl
  | cons a actions ih =>
    refine List.IsPrefix.trans ?_ (ih (s := a.perform s))
    cases a with
    | addLabel name => exact ⟨[name], (names_addLabel s name).symm⟩
    | placeLabel name => exact ⟨[name], ((names_bind _ _).trans (names_addLabel s name)).symm⟩
    | bind l => exact ⟨[], by rw [List.append_nil]; exact (names_bind s l).symm⟩
    | op mn =>
      have hlabels : (s.op mn).labels = s.labels := by cases mn <;> simp [op]
      exact ⟨[], by simp [Action.perform, Stream.names, hlabels]⟩
    | word r =>
      have hlabels : (s.word r).labels = s.labels := by
        rw [word]
        repeat' split
        all_goals simp
      exact ⟨[], by simp [Action.perform, Stream.names, hlabels]⟩
    | _ => exact ⟨[], by simp [Action.perform, Stream.names, branch, jump, call]⟩

/-- A bound label with a name is among the symbols, with its address. -/
theorem Listing.Linked.symbol {L : Listing} {image : Image} {env : Addresses} {ps : List Placement}
    (h : L.Linked image env ps) {l : LabelId} (hsome : l.isSome = true)
    (hl : l ∈ L.labels) {name : Bytes}
    (hname : L.names[l.number.toNat - 1]? = some name) (hne : name ≠ []) :
    ∃ symbol ∈ image.symbols, symbol.label = name ∧ symbol.address.toNat = env l := by
  have hpos := l.pos_of_isSome hsome
  have hfind : L.labels.find? (fun l' => l'.number.toNat = l.number.toNat - 1 + 1) = some l := by
    obtain ⟨l', hl'⟩ := Option.isSome_iff_exists.1 (List.find?_isSome
      (p := fun l' : LabelId => decide (l'.number.toNat = l.number.toNat - 1 + 1)).2 ⟨l, hl, by
        simp only [decide_eq_true_eq]
        omega⟩)
    have hnumber := List.find?_some hl'
    simp only [decide_eq_true_eq] at hnumber
    rw [hl']
    exact congrArg some (LabelId.eq_of_toNat (by omega))
  have hnamed : (name, env l) ∈ L.named env := by
    refine List.mem_filterMap.2
      ⟨(name, l.number.toNat - 1), List.mem_zipIdx_iff_getElem?.2 hname, ?_⟩
    simp [hne, hfind]
  have hfiltered : (name, env l) ∈ (L.named env).filter (·.2 = env l) :=
    List.mem_filter.2 ⟨hnamed, by simp⟩
  rw [← h.symbols] at hfiltered
  obtain ⟨symbol, hsymbol, heq⟩ := List.mem_map.1 (List.mem_filter.1 hfiltered).1
  exact ⟨symbol, hsymbol, congrArg Prod.fst heq, congrArg Prod.snd heq⟩

end Assembly

namespace Lowering

open Assembly Emission

variable {p : Program} {s s' : Emission}

/-! ## Labels for data blocks -/

/-- The number that a data block has by its place. -/
def numberOf (block : DataBlock × Nat) : DataId := UInt32.ofNat (block.2 + 1)

/-- A data block that is put on nothing or on a power of two. -/
def IsAligned (d : DataBlock) : Prop := d.align = 0 ∨ ∃ k, d.align.toNat = 2 ^ k

theorem IsAligned.isPowerOfTwo {d : DataBlock} (h : IsAligned d) : isPowerOfTwo d.align = true := by
  have hall : ∀ k < 16, Lowering.isPowerOfTwo (UInt16.ofNat (2 ^ k)) = true := by decide
  rcases h with hzero | ⟨k, hk⟩
  · rw [hzero]
    rfl
  · have hlt : 2 ^ k < 2 ^ 16 := hk ▸ d.align.toNat_lt
    rw [← UInt16.ofNat_toNat (x := d.align), hk]
    exact hall k ((Nat.pow_lt_pow_iff_right (by decide)).1 hlt)

/-- A data block gets the next label. -/
def Emission.declare (s : Emission) (block : DataBlock × Nat) : Emission :=
  { s with
    workspace := s.workspace.labelled (blockLabel block.1)
    data := (numberOf block, s.workspace.nextLabel) :: s.data }

/-- Blocks with different names, put on powers of two, all get their labels. -/
theorem perform_declareData {blocks : List (DataBlock × Nat)} {seen : List Bytes}
    (fresh : ∀ b ∈ blocks, b.1.name ∉ seen) (different : (blocks.map fun b => b.1.name).Nodup)
    (aligned : ∀ b ∈ blocks, IsAligned b.1) :
    perform (declareData seen blocks) p s = (.ok (), blocks.foldl Emission.declare s) := by
  induction blocks generalizing seen s with
  | nil => rfl
  | cons b blocks ih =>
    obtain ⟨d, i⟩ := b
    obtain ⟨hd, hrest⟩ := List.nodup_cons.1 different
    unfold declareData
    split
    next hseen => exact absurd (by simpa using hseen) (fresh _ List.mem_cons_self)
    · split
      next hbad =>
        have hpower : isPowerOfTwo d.align = true := (aligned _ List.mem_cons_self).isPowerOfTwo
        rw [hpower, Bool.not_true, Bool.and_false] at hbad
        cases hbad
      · refine ih (fun b hb hmem => ?_) hrest fun b hb => aligned b (List.mem_cons_of_mem _ hb)
        rcases List.mem_cons.1 hmem with heq | hmem
        · exact hd (List.mem_map.2 ⟨b, hb, heq⟩)
        · exact fresh b (List.mem_cons_of_mem _ hb) hmem

theorem declare_precedes (blocks : List (DataBlock × Nat)) (s : Emission) :
    s.workspace.stream.Precedes (blocks.foldl Emission.declare s).workspace.stream := by
  induction blocks generalizing s with
  | nil => exact .refl _
  | cons b blocks ih => exact .trans ⟨[.addLabel (blockLabel b.1)], rfl⟩ (ih (s.declare b))

theorem size_labels_declare (blocks : List (DataBlock × Nat)) (s : Emission) :
    (blocks.foldl Emission.declare s).workspace.stream.labels.size =
      s.workspace.stream.labels.size + blocks.length := by
  induction blocks generalizing s with
  | nil => rfl
  | cons b blocks ih =>
    have hone : (s.declare b).workspace.stream.labels.size = s.workspace.stream.labels.size + 1 :=
      Stream.size_labels_addLabel _ _
    rw [List.foldl_cons, ih, hone, List.length_cons]
    omega

theorem lookup_declare_of_not_mem {blocks : List (DataBlock × Nat)} {id : DataId}
    (h : id ∉ blocks.map numberOf) :
    (blocks.foldl Emission.declare s).data.lookup id = s.data.lookup id := by
  induction blocks generalizing s with
  | nil => rfl
  | cons b blocks ih =>
    rw [List.map_cons, List.mem_cons, not_or] at h
    rw [List.foldl_cons, ih h.2]
    show List.lookup id ((numberOf b, _) :: s.data) = _
    rw [List.lookup_cons, beq_false_of_ne h.1]

/-- Each block has its label then, which is named after it. -/
theorem lookup_declare {blocks : List (DataBlock × Nat)} (different : (blocks.map numberOf).Nodup)
    (few : s.workspace.stream.labels.size + blocks.length < 4294967296) :
    ∀ b ∈ blocks, ∃ l, (blocks.foldl Emission.declare s).data.lookup (numberOf b) = some l ∧
      (blocks.foldl Emission.declare s).workspace.stream.names[l.number.toNat - 1]? =
        some (blockLabel b.1) := by
  induction blocks generalizing s with
  | nil => simp
  | cons b blocks ih =>
    rw [List.length_cons] at few
    obtain ⟨hb, hblocks⟩ := List.nodup_cons.1 different
    refine List.forall_mem_cons.2 ⟨⟨s.workspace.nextLabel, ?_, ?_⟩, ih hblocks ?_⟩
    · rw [List.foldl_cons, lookup_declare_of_not_mem hb]
      exact List.lookup_cons_self
    · obtain ⟨more, hmore⟩ := (declare_precedes blocks (s.declare b)).names
      have hnext : s.workspace.nextLabel.number.toNat = s.workspace.stream.labels.size + 1 :=
        Stream.number_addLabel (s := s.workspace.stream) (by omega) []
      have hmade : (s.declare b).workspace.stream.names = s.workspace.stream.names ++
          [blockLabel b.1] :=
        Stream.names_addLabel _ _
      rw [List.foldl_cons, ← hmore, hmade, hnext]
      simp [Stream.names]
    · have hone : (s.declare b).workspace.stream.labels.size = s.workspace.stream.labels.size + 1 :=
        Stream.size_labels_addLabel _ _
      omega

/-- Blocks are numbered by their places. -/
theorem nodup_numberOf {ds : List DataBlock} (few : ds.length < 4294967296) :
    (ds.zipIdx.map numberOf).Nodup := by
  have hplaces : ds.zipIdx.map numberOf = (List.range' 0 ds.length).map fun i =>
      UInt32.ofNat (i + 1) := by
    rw [← List.zipIdx_map_snd, List.map_map]
    rfl
  rw [hplaces]
  refine (List.nodup_range').map_on fun i hi j hj heq => ?_
  have heq := congrArg UInt32.toNat heq
  rw [UInt32.toNat_ofNat', UInt32.toNat_ofNat'] at heq
  simp only [List.mem_range'_1] at hi hj
  omega

/-- Every block with its label, as it was when the first code was written. -/
theorem prologue_declares (h : perform prologue p s = (.ok (), s'))
    (different : (p.data.items.map DataBlock.name).Nodup)
    (aligned : ∀ d ∈ p.data.items, IsAligned d) :
    ∃ s₀ : Emission, s'.data = (p.data.items.zipIdx.foldl Emission.declare s₀).data ∧
      (p.data.items.zipIdx.foldl Emission.declare s₀).workspace.stream.Precedes
        s'.workspace.stream := by
  obtain ⟨_, s₁, hdeclared, h⟩ := ok_of_perform_bind h
  rw [perform_get_bind] at h
  obtain rfl := congrArg Prod.snd h
  have hall (s₀ : Emission) : perform (declareData [] p.data.items.zipIdx) p s₀ =
      (.ok (), p.data.items.zipIdx.foldl Emission.declare s₀) := by
    refine perform_declareData (by simp) ?_ fun b hb => aligned _ (List.fst_mem_of_mem_zipIdx hb)
    have hnames : p.data.items.zipIdx.map (fun b => b.1.name) =
        p.data.items.map DataBlock.name := by
      rw [← List.zipIdx_map_fst 0 p.data.items, List.map_map]
      simp [Function.comp_def]
    rwa [hnames]
  have hlast : ∃ s₀, s₁ = p.data.items.zipIdx.foldl Emission.declare s₀ := by
    unfold declarations at hdeclared
    rw [perform_read_bind] at hdeclared
    obtain ⟨_, s₂, -, hdeclared⟩ := ok_of_perform_bind hdeclared
    split at hdeclared
    · obtain ⟨_, s₃, -, hdeclared⟩ := ok_of_perform_bind hdeclared
      obtain ⟨_, s₄, -, hdeclared⟩ := ok_of_perform_bind hdeclared
      rw [hall] at hdeclared
      exact ⟨s₄, (congrArg Prod.snd hdeclared).symm⟩
    · obtain ⟨_, s₃, -, hdeclared⟩ := ok_of_perform_bind hdeclared
      rw [hall] at hdeclared
      exact ⟨s₃, (congrArg Prod.snd hdeclared).symm⟩
  obtain ⟨s₀, rfl⟩ := hlast
  exact ⟨s₀, rfl, ⟨[.data _, .placeLabel startLabel], rfl⟩⟩

/-! ## Code that ends with a return -/

/-- Lowering that writes a return last. -/
def Returns (act : Lower Unit) : Prop :=
  ∀ p s s', perform act p s = (.ok (), s') →
    ∃ t : Stream, s.workspace.stream.Precedes t ∧ s'.workspace.stream = t.op .rts

namespace Returns

variable {α : Type} {act : Lower Unit}

theorem rts : Returns (op .rts) := by
  intro p s s' h
  obtain rfl := congrArg Prod.snd h
  exact ⟨_, .refl _, rfl⟩

theorem thrown {e : LoweringError} : Returns (throw e) := by
  intro p s s' h
  cases h

theorem after {x : Lower α} {f : α → Lower Unit} [Moves (Codes []) x] (hf : ∀ a, Returns (f a)) :
    Returns (x >>= f) := by
  intro p s s' h
  obtain ⟨a, s₁, hx, h⟩ := ok_of_perform_bind h
  have hmoves : s.Codes [] s₁ := leads hx
  obtain ⟨t, ht, heq⟩ := hf a p s₁ s' h
  exact ⟨t, hmoves.workspace.stream.trans ht, heq⟩

theorem before {f : Unit → Lower Unit} (h : Returns act)
    (hf : ∀ p s s', perform (f ()) p s = (.ok (), s') → s'.workspace.stream = s.workspace.stream) :
    Returns (act >>= f) := by
  intro p s s' hdone
  obtain ⟨_, s₁, hact, hdone⟩ := ok_of_perform_bind hdone
  obtain ⟨t, ht, heq⟩ := h p s s₁ hact
  exact ⟨t, ht, (hf p s₁ s' hdone).trans heq⟩

theorem rethrown {g : LoweringError → Lower Unit} (h : Returns act)
    (hg : ∀ e p s s', perform (g e) p s ≠ (.ok (), s')) : Returns (tryCatch act g) := by
  intro p s s' hdone
  rw [perform_tryCatch] at hdone
  split at hdone
  next hact =>
    cases hdone
    exact h _ _ _ hact
  next => exact absurd hdone (hg _ _ _ _)

end Returns

/-- A function of which the last statement is a return, if it is tagged as one. -/
def EndsAsTagged (f : Function) : Prop :=
  ∀ s, f.body.statements.getLast? = some s → s.tag = Stmt.giveBackTag → s.isGiveBack = true

theorem lowerGiveBack_returns (v : Expr) (span : Span) : Returns (lowerGiveBack v span) := by
  unfold lowerGiveBack
  refine .after fun s => ?_
  split
  · exact .thrown
  · split
    · split
      · exact .after fun _ => .rts
      · exact .after fun _ => .after fun _ => .rts
    · exact .rts

theorem lowerStmts_returns {ss : List Stmt} {s : Stmt} (hs : ss.getLast? = some s)
    (hreturn : s.isGiveBack = true) :
    Returns (lowerStmts ss) := by
  induction ss with
  | nil => cases hs
  | cons t ss ih =>
    unfold lowerStmts
    cases ss with
    | nil =>
      obtain rfl : t = s := by simpa using hs
      cases t with
      | giveBack h v =>
        unfold lowerStmt lowerStmts
        exact .before (lowerGiveBack_returns v h.span) fun _ _ _ hdone => by cases hdone; rfl
      | _ => cases hreturn
    | cons u ss =>
      have := lowerStmt_moves t []
      exact .after fun _ => ih (by simpa using hs)

theorem functionBody_returns {f : Function} (hf : EndsAsTagged f) : Returns (functionBody f) := by
  have : Moves (Codes [])
      (modify fun s => { s with current := some f, loops := [] } : Lower PUnit) :=
    .modify fun _ => .of_eq rfl rfl rfl rfl rfl rfl rfl rfl
  have := lowerBlock_moves f.body
  unfold functionBody
  refine .after fun s => ?_
  split
  · exact .thrown
  · refine .after fun _ => .after fun _ => ?_
    cases hend : endsWithReturn f.body with
    | false => exact .after fun _ => .rts
    | true =>
      refine .before (.rethrown ?_ fun _ _ _ _ h => by cases h) fun _ _ _ hdone => by
        cases hdone; rfl
      obtain ⟨s, hs, htag⟩ := (Option.any_eq_true _ _).1 hend
      have hreturn : s.isGiveBack = true := hf s hs (by simpa using htag)
      unfold lowerBlock
      cases hb : f.body with
      | absent =>
        rw [hb] at hs
        cases hs
      | of ss n m =>
        rw [hb] at hs
        exact lowerStmts_returns hs hreturn

theorem lowerFunction_returns {f : Function} (hf : EndsAsTagged f) : Returns (lowerFunction f) := by
  unfold lowerFunction
  refine .after fun span => .before (.rethrown (functionBody_returns hf) fun _ _ _ _ h => ?_) ?_
  · cases h
  · intro p s s' hdone
    cases hdone
    rfl

theorem functions_return {fs : List Function} {f : Function} (hlast : fs.getLast? = some f)
    (hf : EndsAsTagged f) :
    Returns (fs.forM lowerFunction) := by
  induction fs with
  | nil => cases hlast
  | cons g fs ih =>
    show Returns (lowerFunction g >>= fun _ => fs.forM lowerFunction)
    cases fs with
    | nil =>
      obtain rfl : g = f := by simpa using hlast
      exact .before (lowerFunction_returns hf) fun _ _ _ hdone => by cases hdone; rfl
    | cons h fs => exact .after fun _ => ih (by simpa using hlast)

/-- The code of a program ends with the return of its last function, or of its start if there is
none. -/
theorem lowerCode_returns {entry : Option Function}
    (hlast : ∀ f, p.functions.items.getLast? = some f → EndsAsTagged f)
    (h : perform (lowerCode entry) p s = (.ok (), s')) :
    ∃ t : Stream, s.workspace.stream.Precedes t ∧ s'.workspace.stream = t.op .rts := by
  have hend : Returns (do op .rts; p.functions.items.forM lowerFunction) := by
    cases hfunctions : p.functions.items.getLast? with
    | none =>
      rw [List.getLast?_eq_none_iff.1 hfunctions]
      exact .before .rts fun _ _ _ hdone => by cases hdone; rfl
    | some f => exact .after fun _ => functions_return hfunctions (hlast f hfunctions)
  have hcall (f : Function) : Returns (do
      write (.callLabel (((← get).functions.lookup f.id).getD .none))
      op .rts
      p.functions.items.forM lowerFunction) :=
    .after fun _ => .after fun _ => hend
  unfold lowerCode at h
  obtain ⟨_, _, hread, h⟩ := ok_of_perform_bind h
  cases hread
  refine (?_ : Returns _) p s s' h
  refine .after fun _ => ?_
  dsimp only
  cases entry with
  | none =>
    split
    · exact .after fun _ => hend
    · exact hend
  | some f =>
    split
    · exact .after fun _ => hcall f
    · exact hcall f

/-- Something follows every label of the code. -/
theorem coded_followed {begun coded : Emission}
    (hlast : ∀ f, p.functions.items.getLast? = some f → EndsAsTagged f)
    (hcoded : perform (pass "lower" (lowerCode p.entry?)) p begun = (.ok (), coded))
    (hbegun : Stream.Precedes {} begun.workspace.stream)
    (ok : coded.workspace.stream.error = none) :
    coded.workspace.stream.Followed := by
  obtain ⟨t, s₁, t', hlower, rfl⟩ := perform_pass_ok hcoded
  obtain ⟨before, hbefore, hrts⟩ := lowerCode_returns hlast hlower
  obtain ⟨actions, rfl⟩ := hbegun.trans hbefore
  have hrts : s₁.workspace.stream = (actions.foldl Action.perform {}).emit .rts .implied := hrts
  have ok : s₁.workspace.stream.error = none := ok
  have hnone : (actions.foldl Action.perform {}).error = none :=
    Action.error_of_perform (a := .op .rts) ((congrArg Stream.error hrts).symm.trans ok)
  have hshows : (actions.foldl Action.perform {}).Shows _ := Stream.ofActions_shows hnone
  show s₁.workspace.stream.Followed
  rw [hrts]
  refine hshows.followed (Stream.labels_emit _ _ _) ?_
  have hcode : Opcode.encode? .rts (Operand.mode .implied) = some 0x60 := by decide
  simp only [Stream.emit, hnone, hcode]
  rw [show Operand.implied.label.isSome = false from rfl, Bool.false_and, if_neg Bool.false_ne_true]
  simp only [Stream.size_pushAll, Array.size_push]
  omega

/-! ## Code that loads the address of a block -/

theorem perform_lowerDataAddress {id : DataId} {l : LabelId} (hl : s.data.lookup id = some l)
    (h : perform (lowerDataAddress id) p s = (.ok (), s')) :
    s.workspace.stream.Grows s'.workspace.stream
      [.instr .lda (.lowByte (.ofLabel l)), .instr .ldx (.highByte (.ofLabel l))] := by
  unfold lowerDataAddress at h
  rw [perform_get_bind, hl] at h
  obtain rfl := congrArg Prod.snd h
  exact @Stream.Grows.writing s.workspace.stream
    [.instr .lda (.lowByte (.ofLabel l)), .instr .ldx (.highByte (.ofLabel l))] rfl

end Lowering

namespace Compilation

open Lowering Assembly

variable {p : Program} {o : Options} {tracer : Trace.Tracer} {parent : Nat} {image : Image}

/-- What is said of the data blocks of a program in its image, where each has a label. -/
structure BlocksLie (p : Program) (o : Options) (tracer : Trace.Tracer)
    (parent : Nat) (image : Image) (label : Nat → LabelId) : Prop where
  /-- the image ends with the constants and the blocks in the order of their declarations, each on
  its multiple, with nothing but zeros in between -/
  stand : ∃ front bytes, image.bytes.toList = front ++ bytes ∧
    Row.Stand ((lowered p o tracer parent).2.workspace.stream.addresses image.origin)
      (image.origin.toNat + front.length)
      ((lowered p o tracer parent).2.pool.rows ++
        p.data.items.zipIdx.map fun b => ⟨b.1.align.toNat, label b.2, b.1.bytes.items⟩) bytes
  /-- each block is among the symbols of the image -/
  listed : ∀ i d, p.data.items[i]? = some d → ∃ symbol ∈ image.symbols,
  symbol.label = blockLabel d ∧
    symbol.address.toNat = (lowered p o tracer parent).2.workspace.stream.addresses
      image.origin (label i)
  /-- code for the address of a block loads it -/
  loaded : ∀ i d, p.data.items[i]? = some d → ∀ s s',
    Performs p o tracer parent (lowerDataAddress (numberOf (d, i))) s s' →
      ∃ a, Emission.Written (lowered p o tracer parent).2 image s s' a ∧
      ∀ c : Machine.Cpu, c.Carries image → c.pc.toNat = a →
        c.Loads ((lowered p o tracer parent).2.workspace.stream.addresses image.origin (label i))

/-- **Data blocks lie where the program says.**  In every image, blocks with different names, put on
nothing or on powers of two, stand in order behind the constants, apart and with nothing but zeros
in between, each on its multiple; the image lists each with its address, and the code for the
address of a block loads it.  Labels are numbered in 32 bits, and of the last function the last
statement is a return if it is tagged as one. -/
theorem blocks_placed (himage : (compile (some p) o tracer parent).image = some image)
    (few : (lowered p o tracer parent).2.workspace.stream.labels.size < 4294967296)
    (different : (p.data.items.map DataBlock.name).Nodup)
    (aligned : ∀ d ∈ p.data.items, IsAligned d)
    (hlast : ∀ f, p.functions.items.getLast? = some f → EndsAsTagged f) :
    ∃ label, BlocksLie p o tracer parent image label := by
  obtain ⟨begun, coded, hbegun, hcoded, hstages, linked, hlink, -, rfl⟩ := stages himage
  obtain ⟨head, hhead, -⟩ := hstages.start
  have hbehind : coded.workspace.stream.Precedes (lowered p o tracer parent).2.workspace.stream :=
    (Routine.emitLibrary_keeps coded.workspace).stream.trans ⟨_, hstages.written_eq⟩
  have hcodes : begun.workspace.stream.Precedes coded.workspace.stream :=
    hstages.codes.workspace.stream
  have hend : coded.workspace.stream.Followed ∨ coded.pool.entries.toList ≠ [] :=
    .inl (coded_followed hlast hcoded hhead.precedes (hbehind.error (Stream.link_eq hlink).1))
  obtain ⟨hstand, L, ps, hL, hlinked, hbound⟩ := hstages.stand few hend hlink
  -- the labels of the blocks are those that were made before the code
  obtain ⟨s₀, hdata, hdeclared⟩ := prologue_declares hbegun different aligned
  have hmany : s₀.workspace.stream.labels.size + p.data.items.zipIdx.length < 4294967296 := by
    rw [← size_labels_declare]
    exact Nat.lt_of_le_of_lt ((hdeclared.trans hcodes).trans hbehind).labels few
  have hblocks := lookup_declare (nodup_numberOf (by rw [List.length_zipIdx] at hmany; omega)) hmany
  obtain ⟨more, hmore⟩ := ((hdeclared.trans hcodes).trans hbehind).names
  let label (i : Nat) : LabelId := (coded.data.lookup (UInt32.ofNat (i + 1))).getD .none
  have hlabel : ∀ i d, p.data.items[i]? = some d →
      coded.data.lookup (UInt32.ofNat (i + 1)) = some (label i) ∧
      L.names[(label i).number.toNat - 1]? = some (blockLabel d) := by
    intro i d hd
    obtain ⟨l, hl, hname⟩ := hblocks (d, i) (List.mem_zipIdx_iff_getElem?.2 hd)
    have hcoded : coded.data.lookup (UInt32.ofNat (i + 1)) = some l := by
      rw [hstages.codes.data, hdata]
      exact hl
    have hli : label i = l := by
      show (coded.data.lookup _).getD .none = l
      rw [hcoded, Option.getD_some]
    refine ⟨hli ▸ hcoded, ?_⟩
    rw [← hL.names, hli]
    show (lowered p o tracer parent).2.workspace.stream.names[_]? = _
    rw [← hmore, List.getElem?_append_left ((List.getElem?_eq_some_iff.1 hname).1)]
    exact hname
  have hrow : ∀ b ∈ p.data.items.zipIdx,
      coded.row? b = some ⟨b.1.align.toNat, label b.2, b.1.bytes.items⟩ := by
    rintro ⟨d, i⟩ hb
    rw [Emission.row?, (hlabel i d (List.mem_zipIdx_iff_getElem?.1 hb)).1]
    rfl
  have hrows : Stages.rows p coded = (lowered p o tracer parent).2.pool.rows ++
      p.data.items.zipIdx.map fun b => ⟨b.1.align.toNat, label b.2, b.1.bytes.items⟩ := by
    rw [Stages.rows, hstages.constants, Emission.blocks, List.filterMap_congr hrow]
    exact congrArg _ (congrFun List.filterMap_eq_map _)
  have hmem : ∀ i d, p.data.items[i]? = some d → (label i).isSome = true ∧ label i ∈ L.labels := by
    intro i d hd
    refine hbound ⟨d.align.toNat, label i, d.bytes.items⟩ (hrows ▸ List.mem_append_right _ ?_)
    exact List.mem_map.2 ⟨(d, i), List.mem_zipIdx_iff_getElem?.2 hd, rfl⟩
  refine ⟨label, hrows ▸ hstand, fun i d hd => ?_, ?_⟩
  · exact hlinked.symbol (hmem i d hd).1 (hmem i d hd).2 (hlabel i d hd).2
      (List.append_ne_nil_of_left_ne_nil (Text.bytesOf_ne_nil (by decide)) _)
  · rintro i d hd s s' ⟨begun', coded', hbegun', hcoded', ham⟩
    obtain rfl : begun = begun' := by
      rw [hbegun] at hbegun'
      exact congrArg Prod.snd hbegun'
    obtain rfl : coded = coded' := by
      rw [hcoded] at hcoded'
      exact congrArg Prod.snd hcoded'
    obtain ⟨_, hperformed⟩ := ham.performed
    have hfound : s.data.lookup (numberOf (d, i)) = some (label i) := by
      rw [ham.before.data, ← hstages.codes.data]
      exact (hlabel i d hd).1
    exact hstages.loads few hend hlink ham (hmem i d hd).1
      (perform_lowerDataAddress hfound hperformed) _

/-- A function that asks for the address of the second data block. -/
def asking : Function :=
  { id := 1
    name := Program.mainName
    result := .void
    body := .of [.evaluate {} (.dataAddress { type := .scalar .u16 } 2)] false .none }

/-- A program with an empty block, one that begins a page and one behind it. -/
def tables : Program :=
  { data := .of [{ name := [97], align := 4 },
      { name := [98], bytes := .of [1, 2, 3], align := 256 }, { name := [99], bytes := .of [4] }]
    functions := .of [asking]
    entry := 1 }

theorem tables_compiled : (compile (some tables) {} .off 0).image.isSome = true ∧
    (lowered tables {} .off 0).2.workspace.stream.labels.size < 4294967296 := by
  decide +kernel

theorem tables_placed : ∃ image, (compile (some tables) {} .off 0).image = some image ∧
    ∃ label, BlocksLie tables {} .off 0 image label := by
  obtain ⟨hcompiled, hfew⟩ := tables_compiled
  obtain ⟨image, himage⟩ := Option.isSome_iff_exists.1 hcompiled
  refine ⟨image, himage, blocks_placed himage hfew (by decide) ?_ ?_⟩
  · intro d hd
    have hall : ∀ d ∈ tables.data.items, d.align = 0 ∨ ∃ k < 16, d.align.toNat = 2 ^ k := by decide
    exact (hall d hd).imp_right fun ⟨k, _, hk⟩ => ⟨k, hk⟩
  · intro f hf s hs htag
    obtain rfl : asking = f := Option.some.inj hf
    obtain rfl : Stmt.evaluate {} (.dataAddress { type := .scalar .u16 } 2) = s :=
      Option.some.inj hs
    exact absurd htag (by decide)

end Compilation

end Breadbin

/-!
## String literals

A string literal is interned, and its code loads the address of its label.  In the image of a
program that is where the bytes of the string lie.
-/

namespace Breadbin.Compilation

open Lowering Assembly

/-- What is written for a string literal, and the constant that it refers to. -/
theorem perform_loadString {p : Program} {text : Bytes} {s s' : Emission} {a : Unit}
    (h : perform (loadString text) p s = (.ok a, s')) :
    ∃ l, (l, stringBytes text) ∈ s'.pool.entries.toList ∧
      s.workspace.stream.Grows s'.workspace.stream
        [.instr .lda (.lowByte (.ofLabel l)), .instr .ldx (.highByte (.ofLabel l))] := by
  obtain ⟨pool, stream, l, hintern⟩ : ∃ pool stream l,
      s.pool.intern s.workspace.stream (stringBytes text) = (pool, stream, l) := ⟨_, _, _, rfl⟩
  unfold loadString at h
  rw [perform_modifyGet_bind, hintern] at h
  obtain rfl := congrArg Prod.snd h
  have hwritten := @Stream.Grows.writing stream
    [.instr .lda (.lowByte (.ofLabel l)), .instr .ldx (.highByte (.ofLabel l))] rfl
  refine ⟨l, ?_, ?_⟩
  · rcases s.pool.intern_cases s.workspace.stream
      (stringBytes text) with ⟨l', hold, hmem⟩ | ⟨⟨name, hnew⟩, -⟩
    · rw [hold] at hintern
      cases hintern
      exact hmem
    · rw [hnew] at hintern
      cases hintern
      show _ ∈ (Array.push _ _).toList
      rw [Array.toList_push]
      exact List.mem_append_right _ List.mem_cons_self
  · rcases s.pool.intern_cases s.workspace.stream
      (stringBytes text) with ⟨l', hold, hmem⟩ | ⟨⟨name, hnew⟩, -⟩
    · rw [hold] at hintern
      cases hintern
      exact hwritten
    · rw [hnew] at hintern
      cases hintern
      exact (Stream.Grows.addLabel _ name).trans hwritten

/-- **String literals are interned exactly.**  Whatever is interned and written in any order, apart
from alignments: if the code with the pool behind it can be linked, equal bytes and no others have
the same label, as many constants are counted as there are different bytes, with the sum of their
lengths, and each label is the address of its bytes. In the image of a program the code of a string
literal loads the address of the string: what the screen shows for it, cut to 255 bytes, and a zero.
Labels are numbered in 32 bits. -/
theorem literals_interned :
    (∀ (steps : List Pool.Step) (origin : UInt16) (image : Image),
      (∀ a, .act a ∈ steps → a.isAlign = false) →
      ((Pool.History.run steps).pool.emit (Pool.History.run steps).stream).link origin = .ok image →
        (Pool.History.run steps).Lies origin image) ∧
    ∀ (p : Program) (o : Options) (tracer : Trace.Tracer) (parent : Nat) (image : Image),
      (compile (some p) o tracer parent).image = some image →
      (lowered p o tracer parent).2.workspace.stream.labels.size < 4294967296 →
      ∀ (text : Bytes) (s s' : Emission), Performs p o tracer parent (loadString text) s s' →
        ∃ a front back, Emission.Written (lowered p o tracer parent).2 image s s' a ∧
          image.bytes.toList = front ++ ((Text.Petscii.encode text).take 255 ++ [0]) ++ back ∧
          ∀ c : Machine.Cpu, c.Carries image → c.pc.toNat = a →
            c.Loads (image.origin.toNat + front.length) := by
  refine ⟨fun steps origin image unaligned hlink => Pool.History.run_lies unaligned hlink, ?_⟩
  rintro p o tracer parent image himage few text s s' ⟨begun, coded, hbegun, hcoded, ham⟩
  obtain ⟨begun', coded', hbegun', hcoded', hstages, linked, hlink, -, rfl⟩ := stages himage
  obtain rfl : begun = begun' := by
    rw [hbegun] at hbegun'
    exact congrArg Prod.snd hbegun'
  obtain rfl : coded = coded' := by
    rw [hcoded] at hcoded'
    exact congrArg Prod.snd hcoded'
  obtain ⟨_, hperformed⟩ := ham.performed
  obtain ⟨l, hentry, hls⟩ := perform_loadString hperformed
  obtain ⟨K, -, hbehind⟩ := ham.behind
  obtain ⟨es, hes, -⟩ := hbehind.pool
  have hmem : (l, stringBytes text) ∈ coded.pool.entries.toList :=
    hes ▸ List.mem_append_left _ hentry
  have hend : coded.workspace.stream.Followed ∨ coded.pool.entries.toList ≠ [] :=
    .inr (List.ne_nil_of_mem hmem)
  have hrow : (⟨0, l, stringBytes text⟩ : Row) ∈ Stages.rows p coded :=
    List.mem_append_left _ (List.mem_map.2 ⟨_, hmem, rfl⟩)
  obtain ⟨⟨front, bytes, hbytes, hstand⟩, L, ps, -, -, hbound⟩ := hstages.stand few hend hlink
  obtain ⟨a, hwritten, hloads⟩ := hstages.loads few hend hlink ham (hbound _ hrow).1 hls _
  obtain ⟨-, before, behind, hstring, hplace⟩ := hstand.lies _ hrow
  refine ⟨a, front ++ before, behind, hwritten, ?_, fun c hc hpc => ?_⟩
  · show linked.bytes.toList = _
    rw [hbytes, hstring]
    simp [stringBytes, Text.Petscii.maxLength]
  · have haddress := hloads c hc hpc
    rw [hplace] at haddress
    rwa [List.length_append, ← Nat.add_assoc]

/-! ### A greeting -/

variable {p : Program} {o : Options} {tracer : Trace.Tracer} {parent : Nat}
  {image : Image} {s : Emission}

/-- A string literal that is wanted as a string is loaded. -/
theorem perform_lowerExpr_string {h : ExprHead} {v : Literal} (hkind : v.kind = .string)
    (htype : h.type = .string) :
    perform (lowerExpr (.literal h v) .string) p s = perform (loadString v.text) p s := by
  have hsame : lowerExpr (.literal h v) .string = lowerValue (.literal h v) := by
    have hwanted : Ty.string = (part (.literal h v)).type := htype.symm
    unfold lowerExpr Part.inType
    rw [if_neg (by exact Bool.false_ne_true), if_pos (by rw [decide_eq_true hwanted, Bool.or_true])]
    rfl
  rw [hsame, lowerValue, perform_read_bind, valueWith, lowerLiteral, if_pos hkind]

/-- The string that a first global variable is set to is loaded on the way through the code. -/
theorem performs_loadString {g : Declaration} {gs : List Declaration} {sym : Symbol}
    {h : ExprHead} {v : Literal}
    (himage : (compile (some p) o tracer parent).image = some image)
    (hglobals : p.globals.items = g :: gs)
    (hvalue : g.value = .literal h v) (hkind : v.kind = .string) (htype : h.type = .string)
    (hsymbol : p.symbol? g.symbol = some sym) (hsym : sym.type = .string) :
    ∃ s s', Performs p o tracer parent (loadString v.text) s s' := by
  obtain ⟨begun, coded, hbegun, hcoded, -⟩ := stages himage
  obtain ⟨t, s₁, t', hcode, rfl⟩ := perform_pass_ok hcoded
  unfold lowerCode at hcode
  rw [perform_read_bind] at hcode
  obtain ⟨_, s₂, hinitialised, hrest⟩ := ok_of_perform_bind hcode
  unfold initialiseGlobals at hinitialised
  rw [perform_get_bind] at hinitialised
  obtain ⟨_, s₃, hcleared, hset⟩ := ok_of_perform_bind hinitialised
  rw [perform_read_bind, hglobals] at hset
  change perform (initialise g >>= fun _ => gs.forM initialise) p s₃ = _ at hset
  obtain ⟨_, s₄, hfirst, hmore⟩ := ok_of_perform_bind hset
  have hinitialise : perform (initialise g) p s₃ =
      perform (lowerExpr (.literal h v) .string >>= fun _ => symbolRef g.symbol >>= fun ref =>
          store ref true) p s₃ := by
    unfold initialise symbol
    rw [hvalue]
    simp only [Expr.isAbsent, Bool.not_false, if_true]
    rw [perform_bind, perform_read_bind, hsymbol]
    show perform (if sym.type.isArray then _ else _) p s₃ = _
    rw [hsym]
    rfl
  rw [hinitialise] at hfirst
  obtain ⟨_, s₅, hload, hstore⟩ := ok_of_perform_bind hfirst
  rw [perform_lowerExpr_string hkind htype] at hload
  have hbefore : Emission.Codes [] { begun with tracer := t } s₃ := leads hcleared
  have hstored : Emission.Codes [] s₅ s₄ := leads hstore
  have hothers : Emission.Codes [] s₄ s₂ := leads hmore
  have hend : Emission.Codes [] s₂ s₁ := by
    dsimp only at hrest
    cases hentry : p.entry? with
    | none =>
      rw [hentry] at hrest
      split at hrest <;> exact leads hrest
    | some f =>
      rw [hentry] at hrest
      split at hrest <;> exact leads hrest
  refine ⟨s₃, s₅, begun, _, hbegun, hcoded, { hbefore with }, ⟨_, hload⟩, [], by simp, ?_⟩
  exact { Lowering.Path.trans hstored (Lowering.Path.trans hothers hend) with }

/-- Two strings, the first one twice, with an instruction in between. -/
def repeated : List Pool.Step :=
  [.intern [72, 73, 0], .act (.op .nop), .intern [74, 0], .intern [72, 73, 0]]

/-- A program with a global variable that is set to a string. -/
def greeting : Program :=
  { symbols := .of [{ name := [115], type := .string }]
    globals := .of
      [{ symbol := 1
         value := .literal { type := .string } { kind := .string, text := [72, 73] } }]
    functions := .of [{ id := 1, name := Program.mainName, result := .void }]
    entry := 1 }

/-- The strings share a label where they are equal; the greeting stands in its program, and its code
loads the address. -/
theorem repeated_interned : (∃ image,
    ((Pool.History.run repeated).pool.emit (Pool.History.run repeated).stream).link 0x1000 =
      .ok image ∧
      (Pool.History.run repeated).Lies 0x1000 image) ∧
    ∃ image s s' a front back, (compile (some greeting) {} .off 0).image = some image ∧
      Performs greeting {} .off 0 (loadString [72, 73]) s s' ∧
        Emission.Written (lowered greeting {} .off 0).2 image s s' a ∧
      image.bytes.toList = front ++ [72, 73, 0] ++ back ∧
      ∀ c : Machine.Cpu, c.Carries image → c.pc.toNat = a →
        c.Loads (image.origin.toNat + front.length) := by
  refine ⟨?_, ?_⟩
  · have hlinks : (((Pool.History.run repeated).pool.emit (Pool.History.run repeated).stream).link
        0x1000).toOption.isSome =
        true := by decide +kernel
    obtain ⟨image, hlink⟩ := exists_ok_of_isSome hlinks
    exact ⟨image, hlink, literals_interned.1 repeated 0x1000 image
      (fun a ha => by simp_all [repeated, Action.isAlign]) hlink⟩
  · obtain ⟨himage, hfew⟩ : (compile (some greeting) {} .off 0).image.isSome = true ∧
        (lowered greeting {} .off 0).2.workspace.stream.labels.size < 4294967296 := by
      decide +kernel
    obtain ⟨image, himage⟩ := Option.isSome_iff_exists.1 himage
    obtain ⟨s, s', hperforms⟩ := performs_loadString himage rfl rfl rfl rfl rfl rfl
    obtain ⟨a, front, back, hwritten, hbytes, hloads⟩ :=
      literals_interned.2 greeting {} .off 0 image himage hfew _ s s' hperforms
    have hencoded : (Text.Petscii.encode [72, 73]).take 255 ++ [0] = [72, 73, 0] := by
      decide +kernel
    rw [hencoded] at hbytes
    exact ⟨image, s, s', a, front, back, himage, hperforms, hwritten, hbytes, hloads⟩

end Breadbin.Compilation
