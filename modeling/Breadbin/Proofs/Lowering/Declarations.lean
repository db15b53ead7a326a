import Breadbin.Proofs.Lowering.Functions
import Breadbin.Proofs.Assembly.Tail

/-!
# Declarations in order

Before code is lowered, the passes over the declarations give every symbol an address and every
function and data block a label.  `Laid` says how far they have come; when they are through, the
state is in order for the code.
-/

namespace Breadbin.Lowering

open Assembly Emission

variable {p : Program} {β : Type}

/-! ## Sequences -/

theorem perform_modify_bind (g : Emission → Emission) (f : PUnit → Lower β)
    (p : Program) (s : Emission) :
    perform (modify g >>= f) p s = perform (f .unit) p (g s) := rfl

namespace Lands

variable {α : Type} {x : Lower α} {f : α → Lower β} {s : Emission} {P : α → Emission → Prop}
  {Q : β → Emission → Prop}

theorem andThen [hf : ∀ a, Moves Emission.Follows (f a)] (hx : Lands (perform x p s) P)
    (h : ∀ a s', P a s' → Lands (perform (f a) p s') Q) : Lands (perform (x >>= f) p s) Q :=
  hx.bind (fun a s' _ => (hf a).moves p s') h

theorem pure {a : α} (h : P a s) : Lands (perform (Pure.pure a) p s) P := ⟨fun _ => h⟩

theorem modify {g : Emission → Emission} {P : PUnit → Emission → Prop} (h : P .unit (g s)) :
    Lands (perform (modify g) p s) P := ⟨fun _ => h⟩

/-- What a writer does to the workspace. -/
theorem write {w : Routine.Writer α}
    (h : (w s.workspace).2.stream.labels.size < 4294967296 →
      P (w s.workspace).1 { s with workspace := (w s.workspace).2 }) :
    Lands (perform (Lowering.write w) p s) P := ⟨h⟩

/-- Each item of a list leads one step on. -/
theorem forM {xs : List β} {g : β → Lower PUnit} {P : List β → Emission → Prop}
    (step : ∀ pre b post, xs = pre ++ b :: post → ∀ s, P pre s →
      Lands (perform (g b) p s) fun _ s' => P (pre ++ [b]) s') (hs : P [] s)
    (hmoves : ∀ b, Moves Emission.Follows (g b) := by infer_instance) :
    Lands (perform (xs.forM g) p s) fun _ s' => P xs s' := by
  suffices ∀ done rest, xs = done ++ rest → ∀ s, P done s →
      Lands (perform (rest.forM g) p s) fun _ s' => P xs s' from this [] xs rfl s hs
  intro done rest
  induction rest generalizing done with
  | nil =>
    intro hxs s hs
    rw [List.append_nil] at hxs
    exact ⟨fun _ => hxs ▸ hs⟩
  | cons b rest ih =>
    intro hxs s hs
    show Lands (perform (g b >>= fun _ => rest.forM g) p s) _
    refine (step done b rest hxs s hs).andThen fun _ s' hs' => ?_
    exact ih (done ++ [b]) (by rw [hxs, List.append_assoc, List.singleton_append]) s' hs'

end Lands

/-! ## How far the declarations have come -/

/-- These symbols have their addresses and these functions their labels, and the first `blocks` data
blocks have theirs, unless they were rejected.  No code is written. -/
structure Laid (p : Program) (ids : List SymbolId) (fs : List Function)
    (blocks : Nat) (s : Emission) :
    Prop where
  sound : s.allocator.Sound
  hidden : s.allocator.hidden = 0
  slots : s.allocator.slots.toList.map Slot.symbol = ids
  stream : s.workspace.stream.Regular (· = []) (s.functions.map Prod.snd ++ s.data.map Prod.snd)
  routines : s.workspace.labels = []
  unwritten : s.workspace.emitted = []
  pool : s.pool = {}
  loops : s.loops = []
  functions : (s.functions.map Prod.fst).Perm (fs.map (·.id))
  constants : ∀ e ∈ s.constants, ∃ h v, e.2 = .literal h v
  keys : (s.data.map Prod.fst).Nodup
  numbers : ∀ e ∈ s.data, 0 < e.1.toNat ∧ e.1.toNat ≤ blocks
  aligned : ∀ e ∈ s.data, ∀ d, p.data.items[e.1.toNat - 1]? = some d →
    d.align ≤ 1 ∨ d.align &&& (d.align - 1) = 0

namespace Laid

variable {ids : List SymbolId} {fs : List Function} {blocks : Nat} {s : Emission}

/-- Nothing is declared yet. -/
theorem initial {t : Target} (ht : t.variableBase ≤ t.variableLimit) (bag : Bag)
    (tracer : Trace.Tracer) (span : Trace.OpenSpan) :
    Laid p [] [] 0 (Compilation.initialEmission t bag tracer span) where
  sound := Allocator.ofTarget_sound ht
  hidden := rfl
  slots := rfl
  stream := .empty rfl
  routines := rfl
  unwritten := rfl
  pool := rfl
  loops := rfl
  functions := .nil
  constants := nofun
  keys := .nil
  numbers := nofun
  aligned := nofun

/-- A symbol that has no address yet gets one, or there is no room. -/
theorem allocate (h : Laid p ids fs blocks s) {id : SymbolId} {sym : Symbol}
    (hsymbol : p.symbol? id = some sym) (hsize : 0 < sym.type.size) (hnew : id ∉ ids) :
    Lands (perform (allocate id) p s) fun _ s' => Laid p (ids ++ [id]) fs blocks s' := by
  have hfree : s.allocator.lookup? id = none := by
    rw [Allocator.lookup?_eq_none_iff, h.slots]
    exact hnew
  rw [perform_allocate, hsymbol]
  refine ⟨fun _ => ?_⟩
  dsimp only [Option.map_some, Allocator.allocateSymbol]
  cases hallocate : s.allocator.allocate id sym.name sym.type.size with
  | error cause =>
    have hshort := Allocator.isShortage_of_allocate hfree (Int.ofNat_lt.2 hsize) hallocate
    cases cause <;> first | rfl | cases hshort
  | ok r =>
    obtain ⟨allocator, address⟩ := r
    have hsound := (Allocator.allocate_grows (Int.ofNat_lt.2 sym.type.size_lt) hallocate).sound
      h.sound
    obtain ⟨-, -, -, -, -, -, hallocator⟩ := Allocator.allocate_eq hallocate
    have hslots : allocator.slots.toList.map Slot.symbol = ids ++ [id] := by
      rw [hallocator, Array.toList_push, List.map_append, h.slots]
      rfl
    exact { h with
      sound := hsound
      hidden := by rw [hallocator]; exact h.hidden
      slots := hslots }

/-- Symbols of the program that have no address yet get theirs one after the other. -/
theorem allocateAll (h : Laid p ids fs blocks s) (hp : p.WellFormed) {xs : List SymbolId}
    (hxs : ∃ rest, p.declared = ids ++ xs ++ rest) :
    Lands (perform (xs.forM Lowering.allocate) p s) fun _ s' =>
      Laid p (ids ++ xs) fs blocks s' := by
  obtain ⟨rest, hdeclared⟩ := hxs
  refine Lands.forM (P := fun done s' => Laid p (ids ++ done) fs blocks s') ?_
    (by rwa [List.append_nil])
  intro pre id post hsplit s' hs'
  have hmem : id ∈ p.declared := by
    rw [hdeclared, hsplit]
    simp
  obtain ⟨sym, hsym⟩ := Option.isSome_iff_exists.1 ((hp.declared id).1 hmem)
  have hnew : id ∉ ids ++ pre := by
    have honce := hp.once
    rw [hdeclared, hsplit, ← List.append_assoc, List.append_assoc, List.nodup_append] at honce
    exact fun h => honce.2.2 id h id (by simp) rfl
  rw [← List.append_assoc]
  exact hs'.allocate hsym (hp.stored id sym hsym) hnew

/-- A global variable or a constant is laid down. -/
theorem allocateGlobal (h : Laid p ids fs blocks s) (hp : p.WellFormed) {g : Declaration}
    (hg : g ∈ p.globals.items) (hnew : g.symbol ∉ ids) :
    Lands (perform (allocateGlobal g) p s) fun _ s' => Laid p (ids ++ [g.symbol]) fs blocks s' := by
  have hmem : g.symbol ∈ p.declared := List.mem_append_left _ (List.mem_map_of_mem hg)
  obtain ⟨sym, hsym⟩ := Option.isSome_iff_exists.1 ((hp.declared g.symbol).1 hmem)
  have : Moves Emission.Follows
      (modify fun e => { e with constants := (g.symbol, g.value) :: e.constants } : Lower PUnit) :=
    .modify fun s => ⟨.refl _, .refl _, [], rfl⟩
  unfold Lowering.allocateGlobal
  refine (h.allocate hsym (hp.stored _ sym hsym) hnew).andThen fun _ s' hs' => ?_
  have hfound : perform (symbol g.symbol) p s' = (.ok sym, s') := by
    unfold symbol
    rw [perform_read_bind, hsym]
    rfl
  rw [perform_bind, hfound]
  show Lands (perform
    (if sym.symbolClass = .constant && g.value.isLiteral && !sym.type.isArray then _
    else _) p s') _
  split
  next hconstant =>
    simp only [Bool.and_eq_true] at hconstant
    refine .modify { hs' with constants := fun e he => ?_ }
    rcases List.mem_cons.1 he with rfl | he
    · exact hp.literals g hg hconstant.1.2
    · exact hs'.constants e he
  next => exact .pure hs'

/-- The frame of a function is laid down. -/
theorem allocateFrame (h : Laid p ids fs blocks s) (hp : p.WellFormed) {f : Function}
    (hxs : ∃ rest, p.declared = ids ++ (f.parameters.items ++ f.locals.items) ++ rest) :
    Lands (perform (allocateFrame f) p s) fun _ s' =>
      Laid p (ids ++ (f.parameters.items ++ f.locals.items)) (fs ++ [f]) blocks s' := by
  obtain ⟨rest, hdeclared⟩ := hxs
  have (l : LabelId) :
      Moves Emission.Follows (modify fun s => { s with functions := (f.id, l) :: s.functions } :
      Lower PUnit) :=
    .modify fun s => ⟨.refl _, .refl _, [], rfl⟩
  unfold Lowering.allocateFrame
  have hlabel : Lands (perform (write (.namedLabel f.name)) p s) fun l s' =>
      Laid p ids (fs ++ [f]) blocks { s' with functions := (f.id, l) :: s'.functions } := by
    refine .write fun few => ?_
    have few : s.workspace.stream.labels.size + 1 < 4294967296 := by
      simpa using (Stream.size_labels_addLabel s.workspace.stream (f.name)) ▸ few
    exact { h with
      stream := h.stream.addLabel few _
      functions := by
        rw [List.map_append]
        exact (h.functions.cons f.id).trans (List.perm_append_singleton _ _).symm }
  refine hlabel.andThen fun l s₁ hs₁ => ?_
  rw [perform_modify_bind]
  refine (hs₁.allocateAll hp ⟨f.locals.items ++ rest, by rw [hdeclared]; simp⟩).andThen
    fun _ s₂ hs₂ => ?_
  have hlocals : Lands (perform (f.locals.items.forM Lowering.allocate) p s₂) fun _ s' =>
      Laid p (ids ++ f.parameters.items ++ f.locals.items) (fs ++ [f]) blocks s' :=
    hs₂.allocateAll hp ⟨rest, by rw [hdeclared]; simp⟩
  rwa [List.append_assoc] at hlocals

end Laid

/-- All symbols get addresses, and all functions get labels. -/
theorem allocateStorage_lands (hp : p.WellFormed) {s : Emission} (h : Laid p [] [] 0 s) :
    Lands (perform allocateStorage p s) fun _ s' => Laid p p.declared p.functions.items 0 s' := by
  have : Moves Emission.Follows
      (modify fun s => { s with globalSize := s.allocator.used } : Lower PUnit) :=
    .modify fun s => ⟨.refl _, .refl _, [], rfl⟩
  have hglobals : Lands (perform (p.globals.items.forM allocateGlobal) p s) fun _ s' =>
      Laid p (p.globals.items.map (·.symbol)) [] 0 s' := by
    refine Lands.forM (P := fun done s' => Laid p (done.map Declaration.symbol) [] 0 s') ?_ h
    intro pre g post hsplit s' hs'
    have hnew : g.symbol ∉ pre.map (·.symbol) := by
      have honce := (List.nodup_append.1 hp.once).1
      rw [hsplit, List.map_append, List.nodup_append] at honce
      exact fun hmem => honce.2.2 _ hmem _ List.mem_cons_self rfl
    rw [List.map_append]
    exact hs'.allocateGlobal hp (by rw [hsplit]; simp) hnew
  have hfunctions : ∀ s', Laid p (p.globals.items.map (·.symbol)) [] 0 s' →
      Lands (perform (p.functions.items.forM allocateFrame) p s') fun _ s'' =>
        Laid p p.declared p.functions.items 0 s'' := by
    intro s' hs'
    refine Lands.forM
      (P := fun (done : List Function) s'' => Laid p (p.globals.items.map (·.symbol) ++
      done.flatMap fun f => f.parameters.items ++ f.locals.items) done 0 s'') ?_
        (by rwa [List.flatMap_nil, List.append_nil])
    intro pre f post hsplit s'' hs''
    have hdeclared : p.declared = p.globals.items.map (·.symbol) ++
        (pre.flatMap fun f => f.parameters.items ++ f.locals.items) ++
        (f.parameters.items ++ f.locals.items) ++
        post.flatMap fun f => f.parameters.items ++ f.locals.items := by
      rw [Program.declared, hsplit]
      simp
    rw [List.flatMap_append, List.flatMap_singleton, ← List.append_assoc]
    exact hs''.allocateFrame hp ⟨_, hdeclared⟩
  unfold allocateStorage
  rw [perform_read_bind]
  refine hglobals.andThen fun _ s₁ hs₁ => ?_
  rw [perform_modify_bind]
  exact hfunctions _ { hs₁ with }

/-! ## Data blocks -/

namespace Laid

variable {ids : List SymbolId} {fs : List Function} {blocks : Nat} {s : Emission}

/-- One more block is gone over, and gets no label. -/
theorem pass (h : Laid p ids fs blocks s) : Laid p ids fs (blocks + 1) s :=
  { h with numbers := fun e he => ⟨(h.numbers e he).1, Nat.le_succ_of_le (h.numbers e he).2⟩ }

/-- One more block gets a label. -/
theorem declare (h : Laid p ids fs blocks s) {d : DataBlock} (hd : p.data.items[blocks]? = some d)
    (hp : p.WellFormed) (haligned : d.align ≤ 1 ∨ d.align &&& (d.align - 1) = 0) (name : Bytes)
    (few : s.workspace.stream.labels.size + 1 < 4294967296) :
    Laid p ids fs (blocks + 1) { s with
      workspace := s.workspace.labelled name
      data := (UInt32.ofNat (blocks + 1), s.workspace.nextLabel) :: s.data } := by
  have hnumber : (UInt32.ofNat (blocks + 1)).toNat = blocks + 1 := by
    have := (List.getElem?_eq_some_iff.1 hd).1
    have := hp.data
    rw [UInt32.toNat_ofNat']
    omega
  exact { h with
    stream := (h.stream.addLabel few name).perm List.perm_middle.symm
    keys := by
      refine List.nodup_cons.2 ⟨fun hmem => ?_, h.keys⟩
      obtain ⟨e, he, heq⟩ := List.mem_map.1 hmem
      have := (h.numbers e he).2
      rw [heq, hnumber] at this
      omega
    numbers := fun e he => by
      rcases List.mem_cons.1 he with rfl | he
      · simp only [hnumber]
        omega
      · exact ⟨(h.numbers e he).1, Nat.le_succ_of_le (h.numbers e he).2⟩
    aligned := fun e he d' hd' => by
      rcases List.mem_cons.1 he with rfl | he
      · rw [hnumber, Nat.add_sub_cancel, hd] at hd'
        exact Option.some.inj hd' ▸ haligned
      · exact h.aligned e he d' hd' }

/-- Labels for data blocks are made one after the other. -/
theorem declareData (h : Laid p ids fs blocks s) (hp : p.WellFormed) (seen : List Bytes)
    {ds : List DataBlock} (hds : p.data.items.drop blocks = ds) :
    Lands (perform (declareData seen (ds.zipIdx blocks)) p s) fun _ s' =>
      Laid p ids fs (blocks + ds.length) s' := by
  induction ds generalizing blocks seen s with
  | nil => exact .pure h
  | cons d ds ih =>
    have hd : p.data.items[blocks]? = some d := by
      rw [← List.head?_drop, hds, List.head?_cons]
    have hrest : p.data.items.drop (blocks + 1) = ds := by
      rw [← List.drop_drop, hds, List.drop_one, List.tail_cons]
    rw [List.zipIdx_cons, List.length_cons, ← Nat.add_assoc, Nat.add_right_comm]
    have hreported (code : Code) (m : String) : Laid p ids fs (blocks + 1)
        { s with reports := s.reports.report (.error code d.span m) } := { h.pass with }
    unfold Lowering.declareData
    split
    · unfold reportError report
      rw [perform_modify_bind]
      exact ih (hreported _ _) seen hrest
    · split
      · unfold reportError report
        rw [perform_modify_bind]
        exact ih (hreported _ _) _ hrest
      next halign =>
        have hpower : d.align ≤ 1 ∨ d.align &&& (d.align - 1) = 0 := by
          simpa [isPowerOfTwo, or_iff_not_imp_left] using halign
        have hlabel : Lands (perform (write (.namedLabel (blockLabel d))) p s) fun l s' =>
            Laid p ids fs (blocks + 1)
                { s' with data := (UInt32.ofNat (blocks + 1), l) :: s'.data } := by
          refine .write fun few => ?_
          exact h.declare hd hp hpower _ (by
            simpa using (Stream.size_labels_addLabel s.workspace.stream _) ▸ few)
        have (l : LabelId) : Moves Emission.Follows (modify fun s =>
            { s with data := (UInt32.ofNat (blocks + 1), l) :: s.data } : Lower PUnit) :=
          .modify fun s => ⟨.refl _, .refl _, [], rfl⟩
        refine hlabel.andThen fun l s' hs' => ?_
        rw [perform_modify_bind]
        exact ih hs' _ hrest

end Laid

/-! ## Ready for code -/

/-- In a table with different keys every entry is found. -/
theorem lookup_of_mem {κ ν : Type} [BEq κ] [LawfulBEq κ] {es : List (κ × ν)}
    (hkeys : (es.map Prod.fst).Nodup) {k : κ} {v : ν} (h : (k, v) ∈ es) : es.lookup k = some v := by
  obtain ⟨pre, post, rfl⟩ := List.append_of_mem h
  refine List.lookup_eq_some_iff.2 ⟨pre, post, rfl, fun e he => ?_⟩
  rw [List.map_append, List.nodup_append] at hkeys
  have hne := hkeys.2.2 e.1 (List.mem_map_of_mem he) k List.mem_cons_self
  simpa using hne.symm

namespace Laid

variable {blocks : Nat} {s : Emission}

theorem functions_nodup (h : Laid p p.declared p.functions.items blocks s) (hp : p.WellFormed) :
    (s.functions.map Prod.fst).Nodup :=
  h.functions.nodup_iff.2 hp.functions

/-- What the declarations lay down for the code. -/
def setting (h : Laid p p.declared p.functions.items blocks s) (hp : p.WellFormed) : Setting p where
  functions := s.functions
  data := s.data
  constants := s.constants
  wellFormed := hp
  labelled f hf := by
    have hid : f.id ∈ s.functions.map Prod.fst := h.functions.mem_iff.2 (List.mem_map_of_mem hf)
    obtain ⟨⟨_, l⟩, he, rfl⟩ := List.mem_map.1 hid
    exact ⟨l, lookup_of_mem (h.functions_nodup hp) he⟩
  literals id e he := by
    obtain ⟨pre, post, hconstants, -⟩ := List.lookup_eq_some_iff.1 he
    exact h.constants (id, e) (by rw [hconstants]; simp)

/-- The labels of the functions are those in the table. -/
theorem labels_perm (h : Laid p p.declared p.functions.items blocks s) (hp : p.WellFormed) :
    (p.functions.items.map (h.setting hp).label).Perm (s.functions.map Prod.snd) := by
  let found (id : FunctionId) : LabelId := (s.functions.lookup id).getD .none
  have hfound : (s.functions.map Prod.fst).map found = s.functions.map Prod.snd := by
    rw [List.map_map]
    refine List.map_congr_left fun e he => ?_
    show (s.functions.lookup e.1).getD .none = e.2
    rw [lookup_of_mem (h.functions_nodup hp) he, Option.getD_some]
  have hperm := h.functions.symm.map found
  rw [hfound, List.map_map] at hperm
  exact hperm

/-- The state before anything is lowered, behind the first bytes of the program, is in order. -/
theorem orderly (h : Laid p p.declared p.functions.items blocks s) (hp : p.WellFormed)
    (stub : List UInt8) (name : Bytes) (few : s.workspace.stream.labels.size + 1 < 4294967296) :
    Orderly (h.setting hp)
      { s with workspace :=
        { s.workspace with stream := ((s.workspace.stream.data stub).placeLabel name).1 } }
      (s.functions.map Prod.snd) := by
  have hcode : s.workspace.stream.Tidy (h.setting hp).far
      (s.functions.map Prod.snd ++ s.data.map Prod.snd) :=
    h.stream.mono fun ls hls line hline => by
      rw [hls] at hline
      cases hline
  have hstub := hcode.data stub
  have hstart : ((s.workspace.stream.data stub).placeLabel name).1.Tidy (h.setting hp).far
      (s.functions.map Prod.snd ++ s.data.map Prod.snd) :=
    Stream.Tidy.bind (hstub.addLabel (by simpa using few) name)
  have hknows : ∀ l ∈ s.functions.map Prod.snd ++ s.data.map Prod.snd,
      ((s.workspace.stream.data stub).placeLabel name).1.Knows l :=
    fun l hl => ((hstart.opened l).2 hl).knows
  exact
    { workspace :=
        { stream := by
            have hpending : s.workspace.pending = [] := by
              rw [Routine.Workspace.pending, h.routines]
              rfl
            show Stream.Tidy _ _ ((_ ++ (s.pool.labels ++ _)) ++ s.workspace.pending)
            rw [hpending, h.pool, List.append_nil]
            exact hstart
          routines := fun id l hl => by
            rw [h.routines] at hl
            cases hl
          keys := by
            show (s.workspace.labels.map Prod.fst).Nodup
            rw [h.routines]
            exact .nil
          asked := fun id hid => by
            rw [h.unwritten] at hid
            cases hid
          far := fun l hl => hknows l (List.mem_append_right _ hl) }
      unwritten := h.unwritten
      filled := fun e he => by
        rw [h.pool] at he
        cases he
      storage := .of_declared hp h.sound h.hidden h.slots
      functions := rfl
      callable := fun l hl => ⟨hknows l (List.mem_append_left _ hl), fun hfar =>
        (List.nodup_append.1 hstart.nodup).2.2 l hl l hfar rfl⟩
      data := rfl
      constants := rfl
      current := nofun
      loops := fun l hl => by
        rw [h.loops] at hl
        cases hl }

end Laid

end Breadbin.Lowering

/-!
## The end of a program in order

Behind the code stand the routines it asks for, the constants and the data blocks.  When all of that
is written every label is bound, all padding stands behind the code, and linking fails only for want
of room.
-/

namespace Breadbin.Lowering

open Assembly Emission

variable {p : Program} {c : Setting p} {far : LabelId → Prop}

/-! ## Constants -/

/-- Each constant binds its label and has bytes. -/
theorem poolEmit_tidy {s : Stream} {pool : Pool} {U : List LabelId}
    (h : s.Tidy far (pool.labels ++ U))
    (hfilled : ∀ e ∈ pool.entries.toList, e.2 ≠ []) (hend : s.Followed) :
    (pool.emit s).Tidy far U ∧ (pool.emit s).Followed := by
  unfold Pool.labels at h
  rw [Pool.emit, ← Array.foldl_toList]
  generalize pool.entries.toList = es at h hfilled
  induction es generalizing s with
  | nil => exact ⟨h, hend⟩
  | cons e es ih =>
    have hbound : (s.bind e.1).Tidy far (es.map Prod.fst ++ U) := Stream.Tidy.bind h
    exact ih (Stream.Regular.followed_data hbound (hfilled e List.mem_cons_self)) (hbound.data e.2)
      fun e' he' => hfilled e' (List.mem_cons_of_mem e he')

/-! ## Data blocks -/

/-- Lines that put data blocks with far labels on powers of two. -/
def IsData (far : LabelId → Prop) : Line → Prop
  | .instr _ _ | .word _ => False
  | .align n => ∃ k, n = 2 ^ k
  | .bound l => far l
  | .data _ => True

theorem isData_snoc {data : List Line} (h : ∀ line ∈ data, IsData far line) (line : Line)
    (hline : IsData far line) : ∀ line' ∈ data ++ [line], IsData far line' := by
  intro line' hmem
  rcases List.mem_append.1 hmem with hmem | hmem
  · exact h line' hmem
  · exact List.mem_singleton.1 hmem ▸ hline

/-- A stream of code with data behind it. -/
abbrev HasData (far : LabelId → Prop) (code : List Line) : Stream → List LabelId → Prop :=
  Stream.Regular fun ls => ∃ data, ls = code ++ data ∧ ∀ line ∈ data, IsData far line

/-- A data block is aligned, bound and written. -/
theorem HasData.block {code : List Line} {s : Stream} {U : List LabelId} {l : LabelId}
    (h : HasData far code s (l :: U)) (hfar : far l) {n : UInt16} (hn : n ≤ 1 ∨ n &&& (n - 1) = 0)
    (bytes : List UInt8) : HasData far code (((s.align n).bind l).data bytes) U := by
  have haligned : HasData far code (s.align n) (l :: U) := by
    refine h.align hn fun hmore ls => ?_
    rintro ⟨data, rfl, hdata⟩
    have hpower := power_of_and_eq_zero hmore (hn.resolve_left hmore)
    exact ⟨data ++ [.align n.toNat], List.append_assoc _ _ _, isData_snoc hdata (.align _) hpower⟩
  have hbound : HasData far code ((s.align n).bind l) U := by
    refine haligned.bind fun ls => ?_
    rintro ⟨data, rfl, hdata⟩
    exact ⟨data ++ [.bound l], List.append_assoc _ _ _, isData_snoc hdata (.bound l) hfar⟩
  refine hbound.data bytes fun ls => ?_
  rintro ⟨data, rfl, hdata⟩
  exact ⟨data ++ [.data bytes], List.append_assoc _ _ _, isData_snoc hdata (.data bytes) trivial⟩

/-- The labels of the data blocks from a position on. -/
def labelsFrom (data : List (DataId × LabelId)) (n : Nat) : List LabelId :=
  (data.filter fun e => n < e.1.toNat).map Prod.snd

section

variable {data : List (DataId × LabelId)} {n : Nat} {id : DataId}

theorem labelsFrom_of_lookup_none (h : data.lookup id = none) (hid : id.toNat = n + 1) :
    labelsFrom data n = labelsFrom data (n + 1) := by
  unfold labelsFrom
  congr 1
  refine List.filter_congr fun e he => ?_
  have hne : e.1.toNat ≠ n + 1 := by
    intro heq
    have hkey : id = e.1 := UInt32.toNat_inj.1 (hid.trans heq.symm)
    have hmiss := List.lookup_eq_none_iff.1 h e he
    simp [hkey] at hmiss
  simp only [decide_eq_decide]
  omega

theorem labelsFrom_of_lookup_some {l : LabelId} (hkeys : (data.map Prod.fst).Nodup)
    (h : data.lookup id = some l) (hid : id.toNat = n + 1) :
    (labelsFrom data n).Perm (l :: labelsFrom data (n + 1)) := by
  obtain ⟨pre, post, rfl, -⟩ := List.lookup_eq_some_iff.1 h
  have hother : ∀ es : List (DataId × LabelId), (∀ e ∈ es, e.1 ≠ id) →
      labelsFrom es n = labelsFrom es (n + 1) := by
    intro es hes
    have hmiss : es.lookup id = none := by
      rw [List.lookup_eq_none_iff]
      exact fun e he => by simpa using (hes e he).symm
    exact labelsFrom_of_lookup_none hmiss hid
  rw [List.map_append, List.map_cons, List.perm_middle.nodup_iff,
    List.nodup_cons, ← List.map_append] at hkeys
  have hne : ∀ e ∈ pre ++ post, e.1 ≠ id := fun e he heq =>
    hkeys.1 (List.mem_map.2 ⟨e, he, heq⟩)
  have hpre := hother pre fun e he => hne e (List.mem_append_left _ he)
  have hpost := hother post fun e he => hne e (List.mem_append_right _ he)
  unfold labelsFrom at hpre hpost ⊢
  rw [List.filter_append, List.filter_append, List.map_append, List.map_append, hpre,
    List.filter_cons_of_pos, List.filter_cons_of_neg, List.map_cons, hpost]
  · exact List.perm_middle
  · simp [hid]
  · simp [hid]

end

/-- What is known of the labels of data blocks. -/
structure Setting.Numbered (c : Setting p) : Prop where
  keys : (c.data.map Prod.fst).Nodup
  numbers : ∀ e ∈ c.data, 0 < e.1.toNat ∧ e.1.toNat ≤ p.data.items.length
  aligned : ∀ e ∈ c.data, ∀ d, p.data.items[e.1.toNat - 1]? = some d →
    d.align ≤ 1 ∨ d.align &&& (d.align - 1) = 0

/-- All data blocks that have labels are written. -/
theorem emitData_lands (hc : c.Numbered) {code : List Line} {s : Emission} (hdata : s.data = c.data)
    (h : HasData c.far code s.workspace.stream (c.data.map Prod.snd)) :
    Lands (perform emitData p s) fun _ s' => HasData c.far code s'.workspace.stream [] := by
  have hall : labelsFrom c.data 0 = c.data.map Prod.snd := by
    unfold labelsFrom
    rw [List.filter_eq_self.2 fun e he => decide_eq_true (hc.numbers e he).1]
  have hnone : labelsFrom c.data p.data.items.length = [] := by
    unfold labelsFrom
    rw [List.filter_eq_nil_iff.2 fun e he => by simpa using (hc.numbers e he).2, List.map_nil]
  have hblocks : Lands (perform emitData p s) fun _ s' => s'.data = c.data ∧
      HasData c.far code s'.workspace.stream (labelsFrom c.data p.data.items.zipIdx.length) := by
    unfold emitData
    rw [perform_read_bind]
    refine Lands.forM (P := fun done s' => s'.data = c.data ∧
      HasData c.far code s'.workspace.stream (labelsFrom c.data done.length)) ?_ ⟨hdata,
      hall ▸ h⟩ ?_
    · rintro pre ⟨d, i⟩ post hsplit s' ⟨hdata', hs'⟩
      have hget : p.data.items.zipIdx[pre.length]? = some (d, i) := by
        rw [hsplit, List.getElem?_append_right (Nat.le_refl _), Nat.sub_self]
        rfl
      rw [List.getElem?_zipIdx, Option.map_eq_some_iff] at hget
      obtain ⟨d', hd, heq⟩ := hget
      obtain ⟨rfl, rfl⟩ := Prod.mk.inj heq
      have hnumber : (UInt32.ofNat (0 + pre.length + 1)).toNat = pre.length + 1 := by
        have := (List.getElem?_eq_some_iff.1 hd).1
        have := c.wellFormed.data
        rw [UInt32.toNat_ofNat']
        omega
      rw [perform_get_bind, hdata', List.length_append, List.length_singleton]
      cases hlookup : c.data.lookup (UInt32.ofNat (0 + pre.length + 1)) with
      | none =>
        rw [labelsFrom_of_lookup_none hlookup hnumber] at hs'
        exact .pure ⟨hdata', hs'⟩
      | some l =>
        have hmem : (UInt32.ofNat (0 + pre.length + 1), l) ∈ c.data := by
          obtain ⟨front, back, hsplit, -⟩ := List.lookup_eq_some_iff.1 hlookup
          rw [hsplit]
          simp
        have haligned := hc.aligned _ hmem d' (by rw [hnumber]; exact hd)
        have hopen := hs'.perm (labelsFrom_of_lookup_some hc.keys hlookup hnumber)
        exact .write fun _ =>
          ⟨hdata', HasData.block hopen (List.mem_map_of_mem hmem) haligned d'.bytes.items⟩
    · intro b
      refine .bind inferInstance fun s => ?_
      split <;> infer_instance
  rw [List.length_zipIdx, hnone] at hblocks
  exact hblocks.mono fun _ h => h.2

/-! ## Linking -/

/-- A stream without errors, of code and of data behind it, that binds all its labels. -/
def Linkable (s : Stream) : Prop :=
  s.error = none ∧ s.unresolved? = none ∧
    ∃ L code data, s.Shows L ∧ L.lines = code ++ data ∧ Line.CodeThenData code data

theorem linkable_of_hasData {s₀ s : Stream} {L₀ : Listing} (h₀ : s₀.Shows L₀)
    (hend : s₀.Followed) (hcode : ∀ line ∈ L₀.lines, Stream.IsCode far line)
    (h : HasData far L₀.lines s []) : Linkable s := by
  obtain ⟨L, hL, data, hlines, hdata⟩ := h.shows
  have hresolved := h.unresolved?
  refine ⟨h.error, hresolved, L, L₀.lines, data, hL, hlines, ?_⟩
  refine ⟨fun line hline => (hcode line hline).1, fun us l vs hsplit =>
    h₀.solid_of_followed hend hsplit, ?_,
    fun mn arg hmem => hdata _ hmem, fun r hmem => hdata _ hmem, fun n hmem => hdata _ hmem⟩
  intro mn l hmem hl
  have hbound : l ∈ L.labels :=
    hL.needs_bound hresolved (hlines ▸ List.mem_append_left _ hmem) (by simp [Line.needs?, hl])
  obtain ⟨line, hline, hlabel⟩ := List.mem_filterMap.1 hbound
  obtain rfl : line = .bound l := by
    cases line <;> simp_all [Line.label?]
  rw [hlines] at hline
  rcases List.mem_append.1 hline with hline | hline
  · exact hline
  · exact absurd (hdata _ hline) ((hcode _ hmem).2 mn l rfl)

-- The library is one large writer, of which only what is proved about it is used.
attribute [local irreducible] Routine.emitLibrary

/-- The routines that the code asks for are all written. -/
theorem emitLibrary_lands {s : Emission} (h : Orderly c s []) (hend : s.workspace.stream.Followed) :
    Lands (perform (write Routine.emitLibrary) p s) fun _ s' =>
      s'.workspace.stream.Tidy c.far (s'.pool.labels ++ c.data.map Prod.snd) ∧
        s'.workspace.stream.Followed ∧ s'.data = c.data ∧
          ∀ e ∈ s'.pool.entries.toList, e.2 ≠ [] := by
  have htidy : s.workspace.Tidy c.far (s.pool.labels ++ c.data.map Prod.snd) := h.workspace
  have hwritten := Routine.emitLibrary_tidy htidy hend
  have hpending := Routine.emitLibrary_pending (w := s.workspace) (by rw [h.unwritten]; exact .nil)
  apply Lands.write
  intro few
  obtain ⟨hlibrary, hfollowed⟩ := hwritten few
  have hstream := hlibrary.stream
  rw [hpending, List.append_nil] at hstream
  exact ⟨hstream, hfollowed, h.data, h.filled⟩

/-- What is written behind code that binds all labels but those of constants and data blocks can be
linked. -/
theorem lowerTail_lands (hc : c.Numbered) {s : Emission} (h : Orderly c s [])
    (hend : s.workspace.stream.Followed) :
    Lands (perform lowerTail p s) fun _ s' => Linkable s'.workspace.stream := by
  have : Moves Stays (modify fun s => { s with
      workspace := { s.workspace with stream := s.pool.emit s.workspace.stream } } : Lower PUnit) :=
    .modify fun s => ⟨⟨⟨rfl, poolEmit_precedes _ _⟩, .refl _, [], rfl⟩, rfl, rfl, rfl, rfl⟩
  obtain ⟨check, htail, hcheck, hsound⟩ : ∃ check : Lower Unit, lowerTail = (do
      write Routine.emitLibrary
      modify fun s => { s with
        workspace := { s.workspace with stream := s.pool.emit s.workspace.stream } }
      emitData
      check) ∧ Moves Stays check ∧
        ∀ s : Emission, s.workspace.stream.error = none → perform check p s = (.ok (), s) := by
    refine ⟨_, rfl, .bind inferInstance fun s => ?_, fun s hs => ?_⟩
    · split <;> infer_instance
    · rw [perform_get_bind, hs]
      rfl
  rw [htail]
  refine (emitLibrary_lands h hend).andThen fun _ s₁ hs₁ => ?_
  obtain ⟨hstream, hfollowed, hdata, hfilled⟩ := hs₁
  obtain ⟨hpool, hpoolEnd⟩ := poolEmit_tidy hstream hfilled hfollowed
  obtain ⟨L, hL, hcode⟩ := hpool.shows
  have hready : HasData c.far L.lines (s₁.pool.emit s₁.workspace.stream) (c.data.map Prod.snd) :=
    { hpool with shows := ⟨L, hL, [], by simp, by simp⟩ }
  have hblocks := emitData_lands hc (s := { s₁ with
    workspace := { s₁.workspace with stream := s₁.pool.emit s₁.workspace.stream } }) hdata hready
  rw [perform_modify_bind]
  refine hblocks.andThen fun _ s₂ hs₂ => ?_
  rw [hsound s₂ hs₂.error]
  exact Lands.pure (p := p) (linkable_of_hasData hL hpoolEnd hcode hs₂)

/-- Linking what can be linked fails only for want of room. -/
theorem linkImage_lands {s : Emission} (h : Linkable s.workspace.stream) :
    Lands (perform linkImage p s) fun _ s' => Linkable s'.workspace.stream := by
  have hlinkable := h
  obtain ⟨herror, hresolved, L, code, data, hL, hlines, hshape⟩ := h
  have hfits := hL.link_fits herror hresolved hlines hshape s.workspace.target.loadAddress
  unfold linkImage
  rw [perform_get_bind]
  cases hlink : s.workspace.stream.link s.workspace.target.loadAddress with
  | ok image => exact .pure hlinkable
  | error cause =>
    rw [hlink] at hfits
    refine ⟨fun _ => ?_⟩
    show LoweringError.isShortage (.assembly cause) = true
    cases cause <;> first | rfl | cases hfits

end Breadbin.Lowering
