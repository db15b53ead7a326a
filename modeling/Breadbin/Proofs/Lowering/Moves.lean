import Breadbin.Compile
import Breadbin.Proofs.Placement.Storage
import Breadbin.Proofs.Routine.Bodies

/-!
# What lowering does to its state

Whatever part of a program is lowered, and whether that fails or not, the target stays, labels and
addresses are only added and diagnostics are only reported.  Below the passes over the whole program
the tables of functions, data and constants stay as well, and what is written is code that branches
to labels at hand or to its own ones.  `Moves` is closed under everything that lowering is written
with, so that an instance follows the text of a definition.
-/

set_option synthInstance.maxSize 100000
set_option synthInstance.maxHeartbeats 100000

namespace Breadbin.Lowering

open Assembly

namespace Emission

/-- The state a later one comes from. -/
structure Follows (s s' : Emission) : Prop where
  workspace : s.workspace.Keeps s'.workspace
  allocator : s.allocator.Grows s'.allocator
  reports : ∃ ds, s'.reports = s.reports.reportAll ds

/-- The same, with the tables of the program as they were. -/
structure Stays (s s' : Emission) : Prop extends s.Follows s' where
  functions : s'.functions = s.functions
  data : s'.data = s.data
  constants : s'.constants = s.constants
  globalSize : s'.globalSize = s.globalSize

end Emission

/-- A condition that is seen to hold. -/
class Holds (b : Bool) : Prop where
  holds : b = true

instance : Holds true := ⟨rfl⟩

/-- The state after code was written that branches to the labels at hand and to its own ones only.
Labels are numbered in 32 bits. -/
structure Emission.Codes (known : List LabelId) (s s' : Emission) : Prop extends s.Stays s' where
  lines : ∃ ls, s.workspace.stream.Grows s'.workspace.stream ls ∧ ∀ line ∈ ls,
  line.IsText fun l => l ∈ known ∨
    (s'.workspace.stream.labels.size < 4294967296 → s.workspace.stream.labels.size < l.number.toNat)
  /-- constants are only added, and have bytes -/
  pool : ∃ es, s'.pool.entries.toList = s.pool.entries.toList ++ es ∧ ∀ e ∈ es, e.2 ≠ []

/-- The labels of data blocks have been made. -/
def Emission.Numbered (s : Emission) : Prop :=
  ∀ e ∈ s.data, e.2.number.toNat ≤ s.workspace.stream.labels.size

/-- The state after labels were made and nothing was written. -/
structure Emission.Names (s s' : Emission) : Prop extends s.Follows s' where
  unwritten : s.workspace.stream.Grows s'.workspace.stream []
  pool : s'.pool = s.pool
  numbered : s.Numbered → s'.Numbered

/-- A relation between earlier and later states. -/
class Path (R : Emission → Emission → Prop) : Prop where
  refl : ∀ s, R s s
  trans : ∀ {s t u}, R s t → R t u → R s u

instance : Path Emission.Follows where
  refl s := ⟨.refl _, .refl _, [], rfl⟩
  trans h h' := by
    obtain ⟨ds, hds⟩ := h.reports
    obtain ⟨ds', hds'⟩ := h'.reports
    exact ⟨h.workspace.trans h'.workspace, h.allocator.trans h'.allocator, ds ++ ds', by
      rw [hds', hds]; simp [Reports.reportAll]⟩

instance : Path Emission.Stays where
  refl s := ⟨Path.refl s, rfl, rfl, rfl, rfl⟩
  trans h h' :=
    ⟨Path.trans h.toFollows h'.toFollows, h'.functions.trans h.functions, h'.data.trans h.data,
      h'.constants.trans h.constants, h'.globalSize.trans h.globalSize⟩

instance : Path Emission.Names where
  refl s := ⟨Path.refl s, .refl _, rfl, id⟩
  trans h h' := ⟨Path.trans h.toFollows h'.toFollows, h.unwritten.trans h'.unwritten,
    h'.pool.trans h.pool, h'.numbered ∘ h.numbered⟩

instance (known : List LabelId) : Path (Emission.Codes known) where
  refl s := ⟨Path.refl s, ⟨[], .refl _, by simp⟩, [], by simp⟩
  trans {s t u} h h' := by
    obtain ⟨ls, hls, hnear⟩ := h.lines
    obtain ⟨ls', hls', hnear'⟩ := h'.lines
    have hst := h.workspace.labels
    have htu := h'.workspace.labels
    obtain ⟨es, hes, hfilled⟩ := h.pool
    obtain ⟨es', hes', hfilled'⟩ := h'.pool
    refine ⟨Path.trans h.toStays h'.toStays, ⟨ls ++ ls', hls.trans hls', fun line hline => ?_⟩,
      es ++ es', by rw [hes', hes, List.append_assoc], List.forall_mem_append.2 ⟨hfilled, hfilled'⟩⟩
    rcases List.mem_append.1 hline with hline | hline
    · exact (hnear line hline).mono fun l hl => hl.imp_right fun h few => h (by omega)
    · exact (hnear' line hline).mono fun l hl => hl.imp_right fun h few => by have := h few; omega

variable {α β : Type}

/-- The outcome of lowering, and the state that it leaves. -/
def perform (act : Lower α) (p : Program) (s : Emission) : Except LoweringError α × Emission :=
  (act.run p).run.run s

/-- Lowering leads along a relation, whether it fails or not. -/
class Moves (R : Emission → Emission → Prop) (act : Lower α) : Prop where
  moves : ∀ p s, R s (perform act p s).2

theorem perform_bind (x : Lower α) (f : α → Lower β) (p : Program) (s : Emission) :
    perform (x >>= f) p s =
      match perform x p s with
      | (.ok a, s') => perform (f a) p s'
      | (.error e, s') => (.error e, s') := by
  rcases hx : perform x p s with ⟨r, s'⟩
  simp only [perform] at hx ⊢
  rw [ReaderT.run_bind, ExceptT.run_bind, StateT.run_bind, hx]
  cases r <;> rfl

theorem perform_read_bind (f : Program → Lower α) (p : Program) (s : Emission) :
    perform (read >>= f) p s = perform (f p) p s := rfl

theorem perform_get_bind (f : Emission → Lower α) (p : Program) (s : Emission) :
    perform (get >>= f) p s = perform (f s) p s := rfl

theorem perform_modifyGet_bind (g : Emission → α × Emission) (f : α → Lower β)
    (p : Program) (s : Emission) :
    perform (modifyGet g >>= f) p s = perform (f (g s).1) p (g s).2 := rfl

/-- Every result has a property in the state that it leaves. -/
def Yields (act : Lower α) (P : α → Emission → Prop) : Prop :=
  ∀ p s a s', perform act p s = (.ok a, s') → P a s'

theorem Yields.bind {x : Lower α} {f : α → Lower β} {P : β → Emission → Prop}
    (h : ∀ a, Yields (f a) P) : Yields (x >>= f) P := by
  intro p s b s' hperform
  rw [perform_bind] at hperform
  split at hperform
  next a s₁ _ => exact h a p s₁ b s' hperform
  next => cases hperform

/-- What comes first has a property that what follows may use. -/
theorem Yields.bind_result {x : Lower α} {f : α → Lower β} {P : α → Prop} {Q : β → Emission → Prop}
    (hx : Yields x fun a _ => P a) (h : ∀ a, P a → Yields (f a) Q) : Yields (x >>= f) Q := by
  intro p s b s' hperform
  rw [perform_bind] at hperform
  split at hperform
  next a s₁ hfirst => exact h a (hx p s a s₁ hfirst) p s₁ b s' hperform
  next => cases hperform

theorem Yields.pure {a : α} {P : α → Emission → Prop} (h : ∀ s, P a s) :
    Yields (Pure.pure a) P := by
  intro p s b s' hperform
  cases hperform
  exact h _

theorem Yields.throw {e : LoweringError} {P : α → Emission → Prop} :
    Yields (MonadExcept.throw e : Lower α) P :=
  fun _ _ _ _ h => nomatch h

/-! ## Sequences and choices -/

section

variable {R : Emission → Emission → Prop} [Path R] {x y : Lower α} {f : α → Lower β}

/-- What follows is needed for possible results only. -/
theorem Moves.bind_result (hx : Moves R x)
    (hf : ∀ a p s s', perform x p s = (.ok a, s') → Moves R (f a)) : Moves R (x >>= f) where
  moves p s := by
    have hfirst := hx.moves p s
    rw [perform_bind]
    split
    next a s' h =>
      rw [h] at hfirst
      exact Path.trans hfirst ((hf a p s s' h).moves p s')
    next e s' h => rwa [h] at hfirst

theorem Moves.bind (hx : Moves R x) (hf : ∀ a, Moves R (f a)) : Moves R (x >>= f) :=
  hx.bind_result fun a _ _ _ _ => hf a

instance [hx : Moves R x] [hf : ∀ a, Moves R (f a)] : Moves R (x >>= f) := .bind hx hf

instance (a : α) : Moves R (pure a : Lower α) := ⟨fun _ s => Path.refl s⟩

instance (e : LoweringError) : Moves R (throw e : Lower α) := ⟨fun _ s => Path.refl s⟩

/-- What stands behind a failure is not reached. -/
instance (priority := high) (e : LoweringError) : Moves R (throw e >>= f) :=
  ⟨fun _ s => Path.refl s⟩

instance : Moves R (get : Lower Emission) := ⟨fun _ s => Path.refl s⟩

instance : Moves R (read : Lower Program) := ⟨fun _ s => Path.refl s⟩

instance {c : Prop} [Decidable c] [hx : Moves R x] [hy : Moves R y] :
    Moves R (if c then x else y) := by
  split
  · exact hx
  · exact hy

theorem perform_tryCatch (x : Lower α) (h : LoweringError → Lower α) (p : Program) (s : Emission) :
    perform (tryCatch x h) p s =
      match perform x p s with
      | (.ok a, s') => (.ok a, s')
      | (.error e, s') => perform (h e) p s' := by
  rcases hx : perform x p s with ⟨r, s'⟩
  simp only [perform] at hx ⊢
  change (ExceptT.tryCatch (x.run p) fun e => (h e).run p).run.run s = _
  rw [ExceptT.tryCatch, ExceptT.run_mk, StateT.run_bind]
  change StateT.run (x.run p).run s >>= _ = _
  rw [hx]
  cases r <;> rfl

instance {h : LoweringError → Lower α} [hx : Moves R x] [hh : ∀ e, Moves R (h e)] :
    Moves R (tryCatch x h) where
  moves p s := by
    have hfirst := hx.moves p s
    rw [perform_tryCatch]
    split
    next a s' h => rwa [h] at hfirst
    next e s' h =>
      rw [h] at hfirst
      exact Path.trans hfirst ((hh e).moves p s')

theorem Moves.forM_mem {xs : List β} {g : β → Lower PUnit} (hg : ∀ b ∈ xs, Moves R (g b)) :
    Moves R (xs.forM g) := by
  induction xs with
  | nil => exact inferInstanceAs (Moves R (pure _))
  | cons b xs ih =>
    exact .bind (f := fun _ => xs.forM g) (hg b (by simp)) fun _ => ih fun c hc =>
      hg c (by simp [hc])

instance {xs : List β} {g : β → Lower PUnit} [hg : ∀ b, Moves R (g b)] : Moves R (xs.forM g) :=
  .forM_mem fun b _ => hg b

instance {xs : List β} {g : β → Lower α} [hg : ∀ b, Moves R (g b)] : Moves R (xs.mapM g) := by
  induction xs with
  | nil => exact inferInstanceAs (Moves R (pure _))
  | cons b xs ih =>
    rw [List.mapM_cons]
    infer_instance

end

/-! ## Primitive changes -/

open Emission

section

variable {R : Emission → Emission → Prop}

theorem Moves.modify {g : Emission → Emission} (h : ∀ s, R s (g s)) :
    Moves R (modify g : Lower PUnit) :=
  ⟨fun _ s => h s⟩

theorem Moves.modifyGet {g : Emission → α × Emission} (h : ∀ s, R s (g s).2) :
    Moves R (modifyGet g : Lower α) :=
  ⟨fun _ s => h s⟩

end

/-- Changes that none of the relations looks at. -/
theorem Emission.Codes.of_eq {known : List LabelId} {s s' : Emission}
    (workspace : s'.workspace = s.workspace)
    (pool : s'.pool = s.pool) (allocator : s'.allocator = s.allocator)
    (reports : s'.reports = s.reports)
    (functions : s'.functions = s.functions) (data : s'.data = s.data)
    (constants : s'.constants = s.constants) (globalSize : s'.globalSize = s.globalSize) :
    Codes known s s' where
  workspace := workspace ▸ .refl _
  allocator := allocator ▸ .refl _
  reports := ⟨[], reports⟩
  functions := functions
  data := data
  constants := constants
  globalSize := globalSize
  lines := ⟨[], workspace ▸ .refl _, by simp⟩
  pool := ⟨[], by simp [pool]⟩

theorem Emission.Stays.of_eq {s s' : Emission} (workspace : s'.workspace = s.workspace)
    (pool : s'.pool = s.pool)
    (allocator : s'.allocator = s.allocator) (reports : s'.reports = s.reports)
    (functions : s'.functions = s.functions) (data : s'.data = s.data)
    (constants : s'.constants = s.constants) (globalSize : s'.globalSize = s.globalSize) :
    Stays s s' :=
  (Codes.of_eq workspace pool allocator reports functions data constants
    globalSize : Codes [] s s').toStays

/-- Nothing is written. -/
theorem Emission.Stays.codes {known : List LabelId} {s s' : Emission} (h : s.Stays s')
    (workspace : s'.workspace = s.workspace) (pool : s'.pool = s.pool) : Codes known s s' :=
  ⟨h, ⟨[], workspace ▸ .refl _, by simp⟩, [], by simp [pool]⟩

instance (priority := low) (x : Lower α) [hx : Moves (Codes []) x] : Moves Stays x :=
  ⟨fun p s => (hx.moves p s).toStays⟩

instance (priority := low) (x : Lower α) [hx : Moves Stays x] : Moves Follows x :=
  ⟨fun p s => (hx.moves p s).toFollows⟩

instance (priority := low) (x : Lower α) [hx : Moves Names x] : Moves Follows x :=
  ⟨fun p s => (hx.moves p s).toFollows⟩

/-- A label that is at hand. -/
class AtHand (l : LabelId) (known : List LabelId) : Prop where
  mem : l ∈ known

instance (l : LabelId) (known : List LabelId) : AtHand l (l :: known) := ⟨List.mem_cons_self⟩

instance (l m : LabelId) (known : List LabelId) [h : AtHand l known] : AtHand l (m :: known) :=
  ⟨List.mem_cons_of_mem m h.mem⟩

/-- Writing that keeps the target and the labels. -/
class Keeping (w : Routine.Writer α) : Prop where
  keeps : ∀ ws : Routine.Workspace, ws.Keeps (w ws).2

instance (w : Routine.Writer α) [hw : Keeping w] : Moves Stays (write w) :=
  ⟨fun _ s => ⟨⟨hw.keeps s.workspace, .refl _, [], rfl⟩, rfl, rfl, rfl, rfl⟩⟩

/-- Writing code that branches to labels at hand only. -/
class Coding (known : List LabelId) (w : Routine.Writer α) : Prop where
  lines : ∀ ws : Routine.Workspace, ∃ ls, ws.Grows (w ws).2 ls ∧ ∀ line ∈ ls,
  line.IsText (· ∈ known)

theorem Emission.Codes.write {known : List LabelId} {s : Emission}
    {ws : Routine.Workspace} {ls : List Line}
    (hws : s.workspace.Grows ws ls) (hls : ∀ line ∈ ls, line.IsText (· ∈ known)) :
    Codes known s { s with workspace := ws } where
  workspace := ⟨hws.target, hws.stream.precedes⟩
  allocator := .refl _
  reports := ⟨[], rfl⟩
  functions := rfl
  data := rfl
  constants := rfl
  globalSize := rfl
  lines := ⟨ls, hws.stream, fun line hline => (hls line hline).mono fun _ => .inl⟩
  pool := ⟨[], by simp⟩

instance (known : List LabelId) (w : Routine.Writer α) [hw : Coding known w] :
    Moves (Codes known) (write w) where
  moves _ s := by
    obtain ⟨ls, hgrows, hls⟩ := hw.lines s.workspace
    exact .write hgrows hls

instance (known : List LabelId) (d : Diagnostic) : Moves (Codes known) (report d) :=
  .modify fun _ => Stays.codes ⟨⟨.refl _, .refl _, [d], rfl⟩, rfl, rfl, rfl, rfl⟩ rfl rfl

/-- Making a label writes nothing. -/
theorem newLabel_codes (known : List LabelId) (name : Bytes) (s : Emission) :
    Codes known s { s with labels := s.labels + 1, workspace := s.workspace.labelled name } :=
  have hmade := ((Routine.Workspace.Writes.refl s.workspace).labelled name).toGrows
  { Codes.write hmade (by simp) with }

/-- Code that makes a label has it at hand. -/
instance (priority := high) (known : List LabelId) (name : String) (f : LabelId → Lower β)
    [hf : ∀ l, Moves (Codes (l :: known)) (f l)] : Moves (Codes known) (newLabel name >>= f) where
  moves p s := by
    let name' := Text.bytesOf s!"{name}_{s.labels + 1}"
    let s₁ : Emission := { s with labels := s.labels + 1, workspace := s.workspace.labelled name' }
    let l := s.workspace.nextLabel
    have hmade : s.workspace.Grows s₁.workspace [] :=
      ((Routine.Workspace.Writes.refl _).labelled name').toGrows
    have hfirst : Codes known s s₁ := newLabel_codes known name' s
    have hsize : s₁.workspace.stream.labels.size = s.workspace.stream.labels.size + 1 :=
      Stream.size_labels_addLabel _ _
    have hrest := (hf l).moves p s₁
    obtain ⟨ls, hls, hnear⟩ := hrest.lines
    have hlabels := hrest.workspace.labels
    refine ⟨Path.trans hfirst.toStays hrest.toStays,
      ⟨_, hmade.stream.trans hls, fun line hline => ?_⟩, hrest.pool⟩
    refine (hnear line hline).mono fun l' hl' => ?_
    rcases hl' with hl' | hl'
    · rcases List.mem_cons.1 hl' with rfl | hl'
      · refine .inr fun few => ?_
        have hnumber : l.number.toNat = s.workspace.stream.labels.size + 1 :=
          Stream.number_addLabel (Nat.lt_of_le_of_lt (hsize ▸ hlabels) few) []
        exact hnumber ▸ Nat.lt_succ_self _
      · exact .inl hl'
    · exact .inr fun few => Nat.lt_trans (hsize ▸ Nat.lt_succ_self _) (hl' few)

namespace Coding

variable (known : List LabelId) (mn : Mnemonic) (l : LabelId)

/-- A single line is written. -/
theorem of_writing {w : Routine.Writer Unit} (line : Line) (hw : ∀ ws, (w ws).2 = ws.writing [line])
    (hline : line.IsText (· ∈ known)) : Coding known w where
  lines ws := by
    have hplain : [line].any Line.isAlign = false := by
      cases line <;> first | rfl | cases hline
    rw [hw]
    exact ⟨[line], ((Routine.Workspace.Writes.refl ws).writing hplain).toGrows, by
      simpa using hline⟩

instance (r : AddressRef) : Coding known (.emit mn (.absolute r)) :=
  .of_writing known (.instr mn (.absolute r)) (fun _ => rfl) trivial

instance (r : AddressRef) : Coding known (.emit mn (.absoluteX r)) :=
  .of_writing known (.instr mn (.absoluteX r)) (fun _ => rfl) trivial

instance (r : AddressRef) : Coding known (.emit mn (.absoluteY r)) :=
  .of_writing known (.instr mn (.absoluteY r)) (fun _ => rfl) trivial

instance (r : AddressRef) : Coding known (.emit mn (.lowByte r)) :=
  .of_writing known (.instr mn (.lowByte r)) (fun _ => rfl) trivial

instance (r : AddressRef) : Coding known (.emit mn (.highByte r)) :=
  .of_writing known (.instr mn (.highByte r)) (fun _ => rfl) trivial

instance (z : UInt8) : Coding known (.emit mn (.indirectY z)) :=
  .of_writing known (.instr mn (.indirectY z)) (fun _ => rfl) trivial

instance (z : UInt8) : Coding known (.emit mn (.zeroPage z)) :=
  .of_writing known (.instr mn (.zeroPage z)) (fun _ => rfl) trivial

instance (a : Place) (i : UInt8) : Coding known (.emit mn (a.byte i)) := by
  cases a with
  | address r => exact inferInstanceAs (Coding known (.emit mn (.absolute (r.plus i.toUInt16))))
  | slot n => exact inferInstanceAs (Coding known (.emit mn (.zeroPage (n + i))))

instance (n : UInt8) : Coding known (.imm mn n) :=
  .of_writing known (.instr mn (.immediate n)) (fun _ => rfl) trivial

instance (z : UInt8) : Coding known (.zp mn z) :=
  .of_writing known (.instr mn (.zeroPage z)) (fun _ => rfl) trivial

instance [h : AtHand l known] : Coding known (.branch mn l) :=
  .of_writing known (.instr mn (.relative l)) (fun _ => rfl) h.mem

instance : Coding known (.jump l) :=
  .of_writing known (.instr .jmp (.absolute (.ofLabel l))) (fun _ => rfl) trivial

instance : Coding known (.callLabel l) :=
  .of_writing known (.instr .jsr (.absolute (.ofLabel l))) (fun _ => rfl) trivial

instance : Coding known (.bind l) := .of_writing known (.bound l) (fun _ => rfl) trivial

instance [h : Holds mn.goesOn] : Coding known (.op mn) :=
  .of_writing known (.instr mn (Action.ownArg mn))
    (fun ws => congrArg Prod.snd (Routine.Writer.op_apply ws mn))
    (by cases mn <;> first | trivial | exact h.holds)

instance (name : Bytes) : Coding known (.namedLabel name) :=
  ⟨fun ws => ⟨[], ((Routine.Workspace.Writes.refl ws).labelled name).toGrows, by simp⟩⟩

instance (id : RoutineId) : Coding known (.call id) where
  lines ws := by
    have hcall : Coding known (Routine.Writer.callLabel (ws.require id).2) := inferInstance
    obtain ⟨ls, hgrows, hls⟩ := hcall.lines (ws.require id).1
    exact ⟨ls, (ws.require_grows id).trans hgrows, hls⟩

end Coding

instance (bytes : List UInt8) : Keeping (.data bytes) := ⟨fun ws => (ws.data_extends bytes).toKeeps⟩

/-! ## Code -/

section

variable {K : List LabelId}

instance (code : Code) (span : Span) (m : String) : Moves (Codes K) (reportError code span m) := by
  unfold reportError
  infer_instance

instance (c : Checked α) : Moves (Codes K) (checked c) := by
  unfold checked
  infer_instance

instance (mn : Mnemonic) (o : Operand) [Coding K (.emit mn o)] : Moves (Codes K) (emit mn o) := by
  unfold emit
  infer_instance

instance (mn : Mnemonic) [Holds mn.goesOn] : Moves (Codes K) (op mn) := by
  unfold op
  infer_instance

instance (mn : Mnemonic) (n : UInt8) : Moves (Codes K) (imm mn n) := by
  unfold imm
  infer_instance

instance (mn : Mnemonic) (z : UInt8) : Moves (Codes K) (zp mn z) := by
  unfold zp
  infer_instance

instance (mn : Mnemonic) (r : AddressRef) : Moves (Codes K) (mem mn r) := by
  unfold mem
  infer_instance

instance (mn : Mnemonic) (l : LabelId) [AtHand l K] : Moves (Codes K) (branchTo mn l) := by
  unfold branchTo
  infer_instance

instance (l : LabelId) : Moves (Codes K) (jumpTo l) := by
  unfold jumpTo
  infer_instance

instance (l : LabelId) : Moves (Codes K) (place l) := by
  unfold place
  infer_instance

instance (id : RoutineId) : Moves (Codes K) (callRoutine id) := by
  unfold callRoutine
  infer_instance

instance (r : AddressRef) (wide : Bool) : Moves (Codes K) (load r wide) := by
  unfold load
  infer_instance

instance (r : AddressRef) (wide : Bool) : Moves (Codes K) (store r wide) := by
  unfold store
  infer_instance

instance (z : UInt8) (wide : Bool) : Moves (Codes K) (loadSlot z wide) := by
  unfold loadSlot
  infer_instance

instance (z : UInt8) (wide : Bool) : Moves (Codes K) (storeSlot z wide) := by
  unfold storeSlot
  infer_instance

instance (v : UInt16) (wide : Bool) : Moves (Codes K) (loadConstant v wide) := by
  unfold loadConstant
  infer_instance

instance (r : AddressRef) : Moves (Codes K) (loadAddress r) := by
  unfold loadAddress
  infer_instance

instance (wide : Bool) : Moves (Codes K) (push wide) := by
  unfold push
  infer_instance

instance (wide : Bool) : Moves (Codes K) (pop wide) := by
  unfold pop
  infer_instance

instance : Moves (Codes K) testA := by
  unfold testA
  infer_instance

instance (t : Ty) : Moves (Codes K) (zero t) := by
  unfold zero
  infer_instance

instance (mn : Mnemonic) : Moves (Codes K) (materialize mn) := by
  unfold materialize
  infer_instance

instance (k : Kind) : Moves (Codes K) (extend k) := by
  unfold extend
  infer_instance

instance (id : SymbolId) : Moves (Codes K) (symbolRef id) := by
  unfold symbolRef
  refine .bind inferInstance fun s => ?_
  split <;> infer_instance

/-- The address of a symbol is fixed. -/
theorem symbolRef_result (id : SymbolId) : Yields (symbolRef id) fun r _ => ∃ a, r = .fixed a := by
  unfold symbolRef
  refine .bind fun s => ?_
  split
  next a _ => exact .pure fun _ => ⟨a, rfl⟩
  next => exact .bind fun _ => .throw

instance (id : SymbolId) : Moves (Codes K) (symbol id) := by
  unfold symbol
  refine .bind inferInstance fun p => ?_
  split <;> infer_instance

instance (x : Expr) : Moves (Codes K) (constantOf x) := by
  unfold constantOf
  infer_instance

instance (x : Expr) : Moves (Codes K) (knownValue x) := by
  unfold knownValue
  infer_instance

instance (x : Expr) : Moves (Codes K) (constantAddress x) := by
  unfold constantAddress
  refine .bind inferInstance fun c => ?_
  split <;> infer_instance

instance (x : Expr) (c : Conversion) : Moves (Codes K) (fold x c) := by
  unfold fold
  refine .bind inferInstance fun e => ?_
  split <;> infer_instance

theorem intern_moves {bytes : Bytes} (nonempty : bytes ≠ []) : Moves (Codes K) (modifyGet fun s =>
    let (pool, stream, l) := s.pool.intern s.workspace.stream bytes
    (l, { s with pool, workspace := { s.workspace with stream } }) : Lower LabelId) := by
  refine .modifyGet fun s => ?_
  obtain ⟨hgrows, hpool⟩ :
      s.workspace.stream.Grows (s.pool.intern s.workspace.stream bytes).2.1 [] ∧
      ∃ es, (s.pool.intern s.workspace.stream bytes).1.entries.toList =
        s.pool.entries.toList ++ es ∧
        ∀ e ∈ es, e.2 ≠ [] := by
    unfold Pool.intern
    split
    · exact ⟨.refl _, [], by simp⟩
    · exact ⟨.addLabel _ _, _, Array.toList_push, by simpa using nonempty⟩
  exact ⟨⟨⟨⟨rfl, hgrows.precedes⟩, .refl _, [], rfl⟩, rfl, rfl, rfl, rfl⟩,
    ⟨[], hgrows, by simp⟩, hpool⟩

instance (bytes : Bytes) : Moves (Codes K) (loadString bytes) :=
  .bind (intern_moves (by simp [stringBytes])) fun _ => inferInstance

instance (h : ExprHead) (v : Literal) : Moves (Codes K) (lowerLiteral h v) := by
  unfold lowerLiteral
  infer_instance

instance times_moves (n : Nat) (act : Lower Unit) [∀ K, Moves (Codes K) act] :
    Moves (Codes K) (times n act) := by
  induction n with
  | zero => exact inferInstanceAs (Moves (Codes K) (pure ()))
  | succ n ih => exact .bind inferInstance fun _ => ih

instance (k : Kind) : Moves (Codes K) (toBool k) := by
  unfold toBool
  infer_instance

instance (k : Kind) : Moves (Codes K) (toText k) := by
  unfold toText
  split <;> infer_instance

instance (k : Kind) : Moves (Codes K) (fixedToInt k) := by
  unfold fixedToInt
  infer_instance

instance (k : Kind) : Moves (Codes K) (intToFixed k) := by
  unfold intToFixed
  infer_instance

instance (c : Conversion) (inCast : Bool) (span : Span) :
    Moves (Codes K) (convert c inCast span) := by
  unfold convert
  dsimp only
  split
  · infer_instance
  · split <;> infer_instance

/-! ## Operands -/

section

variable (x : Part) [∀ K, Moves (Codes K) x.value]

instance (c : Conversion) (inCast : Bool) : Moves (Codes K) (x.converted c inCast) := by
  unfold Part.converted
  refine .bind inferInstance fun bits => ?_
  split <;> infer_instance

instance (want : Ty) : Moves (Codes K) (x.inType want) := by
  unfold Part.inType
  dsimp only
  split
  · infer_instance
  · split
    · infer_instance
    · exact .bind inferInstance fun _ => .bind inferInstance fun _ => inferInstance

instance : Moves (Codes K) x.toString := by
  unfold Part.toString
  split
  · infer_instance
  · split <;> infer_instance

instance (h : ExprHead) : Moves (Codes K) (lowerCast h x) := by
  unfold lowerCast
  exact .bind inferInstance fun _ => .bind inferInstance fun _ => inferInstance

end

instance (wide : Bool) : Moves (Codes K) (complement wide) := by
  unfold complement
  infer_instance

instance (t : Ty) : Moves (Codes K) (negate t) := by
  unfold negate
  infer_instance

instance (h : ExprHead) (op : UnaryOp) (x : Part) [∀ K, Moves (Codes K) x.value] :
    Moves (Codes K) (lowerUnary h op x) := by
  unfold lowerUnary
  refine .bind inferInstance fun _ => .bind inferInstance fun _ => ?_
  split
  · split <;> infer_instance
  · infer_instance

instance (k : Kind) (a b : Place) : Moves (Codes K) (compareLess k a b) := by
  unfold compareLess
  infer_instance

instance (a b : Place) (wide : Bool) : Moves (Codes K) (compareEqual a b wide) := by
  unfold compareEqual
  infer_instance

instance (mn : Mnemonic) (wide : Bool) : Moves (Codes K) (bytewise mn wide) := by
  unfold bytewise
  infer_instance

instance (x : Expr) (c : Conversion) : Moves (Codes K) (isLeaf x c) := by
  unfold isLeaf
  repeat' first | infer_instance | split

section

variable (l r : Part) [∀ K, Moves (Codes K) l.value] [∀ K, Moves (Codes K) r.value]

instance (res : Resolution) (a b : UInt8) : Moves (Codes K) (stage l r res a b) := by
  unfold stage
  infer_instance

instance (op : BinaryOp) (res : Resolution) : Moves (Codes K) (lowerInteger op l r res) := by
  unfold lowerInteger
  refine .bind inferInstance fun _ => ?_
  split <;> infer_instance

instance (op : BinaryOp) (res : Resolution) : Moves (Codes K) (lowerArithmetic op l r res) := by
  unfold lowerArithmetic
  dsimp only
  repeat' first | infer_instance | split

instance (op : BinaryOp) : Moves (Codes K) (compareFloat op) := by
  unfold compareFloat
  repeat' first | infer_instance | split

instance (op : BinaryOp) (k : Kind) : Moves (Codes K) (compareInteger op k) := by
  unfold compareInteger
  dsimp only
  split <;> infer_instance

instance (op : BinaryOp) (res : Resolution) : Moves (Codes K) (lowerComparison op l r res) := by
  unfold lowerComparison
  dsimp only
  infer_instance

instance (left : Bool) (k : Kind) : Moves (Codes K) (shiftStep left k) := by
  unfold shiftStep
  infer_instance

instance (left : Bool) (k : Kind) : Moves (Codes K) (shiftByY left k) := by
  unfold shiftByY
  infer_instance

instance (op : BinaryOp) (res : Resolution) : Moves (Codes K) (lowerShift op l r res) := by
  unfold lowerShift
  dsimp only
  repeat' first | infer_instance | split | refine .bind inferInstance fun _ => ?_

instance (op : BinaryOp) : Moves (Codes K) (lowerLogical op l r) := by
  unfold lowerLogical
  infer_instance

instance (h : ExprHead) (op : BinaryOp) : Moves (Codes K) (lowerBinary h op l r) := by
  unfold lowerBinary
  dsimp only
  infer_instance

end

/-! ## Elements and calls -/

instance (a : SymbolId) (i : Part) (span : Span) : Moves (Codes K) (resolveElement a i span) := by
  unfold resolveElement
  dsimp only
  repeat' first | infer_instance | split | refine .bind inferInstance fun _ => ?_

/-- An element is reached from a fixed address with the code of its index. -/
theorem resolveElement_result (a : SymbolId) (i : Part) (span : Span) :
    Yields (resolveElement a i span) fun e _ =>
      ∀ e' ∈ e, e'.index = i ∧ ∃ address, e'.base = .fixed address := by
  unfold resolveElement
  refine .bind fun s => ?_
  split
  · exact .bind fun _ => .pure (by simp)
  · split
    · exact .bind fun _ => .pure (by simp)
    · refine .bind_result (symbolRef_result a) fun base hbase => .bind fun known => ?_
      cases known with
      | none => exact .pure (by simpa using hbase)
      | some e =>
        dsimp only
        split
        · exact .bind fun _ => .pure (by simp)
        · exact .pure (by simpa using hbase)

section

variable (e : Element) [∀ K, Moves (Codes K) e.index.value]

instance : Moves (Codes K) (pointTo e) := by
  unfold pointTo
  dsimp only
  infer_instance

instance : Moves (Codes K) (loadElement e) := by
  unfold loadElement
  dsimp only
  split <;> infer_instance

instance : Moves (Codes K) (storeElement e) := by
  unfold storeElement
  dsimp only
  split <;> infer_instance

end

instance (h : ExprHead) (a : SymbolId) (i : Part) [hi : ∀ K, Moves (Codes K) i.value] :
    Moves (Codes K) (lowerIndex h a i) := by
  unfold lowerIndex
  refine Moves.bind_result inferInstance fun e p s s' hperform => ?_
  split
  next e =>
    obtain ⟨rfl, -⟩ := resolveElement_result a i h.span p s _ s' hperform e rfl
    infer_instance
  next => infer_instance

instance (ids : List SymbolId) : Moves (Codes K) (parametersOf ids) := by
  unfold parametersOf
  infer_instance

/-- Parts that are all lowered to code. -/
class PartsMove (xs : List Part) : Prop where
  moves : ∀ x ∈ xs, ∀ K, Moves (Codes K) x.value

theorem pushArguments_moves {xs : List (Part × Parameter)}
    (h : ∀ x ∈ xs, ∀ K, Moves (Codes K) x.1.value) : Moves (Codes K) (pushArguments xs) := by
  induction xs with
  | nil => exact inferInstanceAs (Moves (Codes K) (pure ()))
  | cons x xs ih =>
    have hx := h x (by simp)
    have hrest := ih fun y hy => h y (by simp [hy])
    unfold pushArguments
    infer_instance

instance (parameters : List Parameter) : Moves (Codes K) (popArguments parameters) := by
  unfold popArguments
  infer_instance

section

variable (xs : List Part) [hxs : PartsMove xs]

instance (parameters : List Parameter) : Moves (Codes K) (passArguments xs parameters) := by
  unfold passArguments
  split
  next x ref t =>
    have := hxs.moves x (by simp)
    infer_instance
  next =>
    have : Moves (Codes K) (pushArguments (xs.zip parameters)) :=
      pushArguments_moves fun x hx => hxs.moves x.1 (List.of_mem_zip hx).1
    infer_instance

instance (h : ExprHead) (f : FunctionId) : Moves (Codes K) (lowerCall h f xs) := by
  unfold lowerCall
  repeat' first | infer_instance | split | refine .bind inferInstance fun _ => ?_

instance : Moves (Codes K) (printAll xs) := by
  unfold printAll
  refine .forM_mem fun x hx => ?_
  have := hxs.moves x hx
  infer_instance

end

section

variable (x y : Part) [∀ K, Moves (Codes K) x.value] [∀ K, Moves (Codes K) y.value]

instance (t : Ty) : Moves (Codes K) (drawFromRange x y t) := by
  unfold drawFromRange
  infer_instance

instance : Moves (Codes K) (lowerPeek x) := by
  unfold lowerPeek
  repeat' first | infer_instance | split | refine .bind inferInstance fun _ => ?_

instance : Moves (Codes K) (lowerPoke x y) := by
  unfold lowerPoke
  repeat' first | infer_instance | split | refine .bind inferInstance fun _ => ?_

end

instance (b : Builtin) (xs : List Part) [hxs : PartsMove xs] :
    Moves (Codes K) (builtinCode b xs) := by
  unfold builtinCode
  refine .bind inferInstance fun s => ?_
  dsimp only
  split
  -- no argument, one or two
  all_goals
    first
    | infer_instance
    | have hx := hxs.moves _ List.mem_cons_self
      infer_instance
    | have hx := hxs.moves _ List.mem_cons_self
      have hy := hxs.moves _ (List.mem_cons_of_mem _ List.mem_cons_self)
      infer_instance

instance (h : ExprHead) (b : Builtin) (xs : List Part) [PartsMove xs] :
    Moves (Codes K) (lowerBuiltin h b xs) := by
  unfold lowerBuiltin
  infer_instance

/-! ## Values -/

instance (d : DataId) : Moves (Codes K) (lowerDataAddress d) := by
  unfold lowerDataAddress
  dsimp only
  repeat' first | infer_instance | split | refine .bind inferInstance fun _ => ?_

instance (constant : Expr → Ty → Lower Unit)
    [∀ e t K, Moves (Codes K) (constant e t)] (h : ExprHead)
    (id : SymbolId) : Moves (Codes K) (lowerVariable constant h id) := by
  unfold lowerVariable
  repeat' first | infer_instance | split | refine .bind inferInstance fun _ => ?_

mutual

theorem valueWith_moves (constant : Expr → Ty → Lower Unit)
    [hconstant : ∀ e t K, Moves (Codes K) (constant e t)] (e : Expr) :
    ∀ K, Moves (Codes K) (valueWith constant e) := by
  intro K
  cases e with
  | absent | blank | literal | var | dataAddress =>
    unfold valueWith
    infer_instance
  | unary h op x =>
    have := valueWith_moves constant x
    unfold valueWith
    infer_instance
  | binary h op l r =>
    have := valueWith_moves constant l
    have := valueWith_moves constant r
    unfold valueWith
    infer_instance
  | call h f as n =>
    have := partsWith_moves constant as
    unfold valueWith
    infer_instance
  | index h a i =>
    have := valueWith_moves constant i
    unfold valueWith
    infer_instance
  | cast h x =>
    have := valueWith_moves constant x
    unfold valueWith
    infer_instance
  | builtin h b as n =>
    have := partsWith_moves constant as
    unfold valueWith
    infer_instance

theorem partsWith_moves (constant : Expr → Ty → Lower Unit)
    [hconstant : ∀ e t K, Moves (Codes K) (constant e t)] (es : List Expr) :
    PartsMove (partsWith constant es) := by
  cases es with
  | nil => exact ⟨by simp [partsWith]⟩
  | cons e es =>
    have he := valueWith_moves constant e
    have hes := partsWith_moves constant es
    refine ⟨fun x hx => ?_⟩
    rw [partsWith] at hx
    rcases List.mem_cons.1 hx with rfl | hx
    · exact he
    · exact hes.moves x hx

end

instance constantWithin_moves (depth : Nat) (e : Expr) (t : Ty) :
    Moves (Codes K) (constantWithin depth e t) := by
  induction depth generalizing e t K with
  | zero => exact inferInstanceAs (Moves (Codes K) (throw _))
  | succ depth ih =>
    have := valueWith_moves (constantWithin depth) e
    unfold constantWithin
    infer_instance

instance (e : Expr) : Moves (Codes K) (lowerValue e) := by
  unfold lowerValue
  exact .bind inferInstance fun p => valueWith_moves _ e K

instance (e : Expr) : Moves (Codes K) (part e).value :=
  inferInstanceAs (Moves (Codes K) (lowerValue e))

instance (e : Expr) (want : Ty) : Moves (Codes K) (lowerExpr e want) := by
  unfold lowerExpr
  infer_instance

instance (value : Bool) (target : LabelId) (e : Expr) [AtHand target K] :
    Moves (Codes K) (branchOn.plain value target e) := by
  unfold branchOn.plain
  infer_instance

instance branchOn_moves (value : Bool) (target : LabelId) (e : Expr) [AtHand target K] :
    Moves (Codes K) (branchOn value target e) := by
  fun_induction branchOn value target e generalizing K <;> infer_instance

/-! ## Statements -/

instance (base : UInt16) (size : Nat) : Moves (Codes K) (clearRegion base size) := by
  unfold clearRegion
  infer_instance

instance (id : SymbolId) (e : Expr) (span : Span) : Moves (Codes K) (lowerDefine id e span) := by
  unfold lowerDefine
  infer_instance

instance (id : SymbolId) (e : Expr) (span : Span) : Moves (Codes K) (assignVariable id e span) := by
  unfold assignVariable
  infer_instance

instance (a : SymbolId) (i : Expr) (place : Span) (e : Expr) (span : Span) :
    Moves (Codes K) (assignElement a i place e span) := by
  unfold assignElement
  refine Moves.bind_result inferInstance fun found p s s' hperform => ?_
  split
  next => infer_instance
  next found =>
    have hindex := (resolveElement_result a (part i) place p s _ s' hperform found rfl).1
    have : ∀ K, Moves (Codes K) found.index.value := fun K => hindex ▸ inferInstance
    infer_instance

instance (target value : Expr) (op : BinaryOp) (compound : Bool) (span : Span) :
    Moves (Codes K) (lowerAssign target value op compound span) := by
  unfold lowerAssign
  dsimp only
  repeat' first | infer_instance | split

instance (e : Expr) (span : Span) : Moves (Codes K) (lowerGiveBack e span) := by
  unfold lowerGiveBack
  dsimp only
  repeat' first | infer_instance | split | refine .bind inferInstance fun _ => ?_

instance (span : Span) (word : String) (label : LoopLabels → LabelId) :
    Moves (Codes K) (lowerJump span word label) := by
  unfold lowerJump
  repeat' first | infer_instance | split | refine .bind inferInstance fun _ => ?_

instance (labels : LoopLabels) (body : Lower Unit) [∀ K, Moves (Codes K) body] :
    Moves (Codes K) (withinLoop labels body) :=
  .bind (.modify fun _ => .of_eq rfl rfl rfl rfl rfl rfl rfl rfl) fun _ =>
    .bind inferInstance fun _ => .modify fun _ => .of_eq rfl rfl rfl rfl rfl rfl rfl rfl

instance (counter bound : AddressRef) (down : Bool) (exit : LabelId) [AtHand exit K] :
    Moves (Codes K) (fixedLastStep counter bound down exit) := by
  unfold fixedLastStep
  dsimp only
  split <;> infer_instance

instance (counter : AddressRef) (k : Kind) (down : Bool) :
    Moves (Codes K) (step counter k down) := by
  have : Holds (if down then Mnemonic.sec else Mnemonic.clc).goesOn := ⟨by cases down <;> rfl⟩
  unfold step
  infer_instance

instance (s : Symbol) : Moves (Codes K) (reserveBound s) := by
  unfold reserveBound
  refine .bind (.modifyGet fun e => ?_) fun r => ?_
  · exact Stays.codes
      ⟨⟨.refl _, e.allocator.allocateHidden_grows _ s.type, [], rfl⟩, rfl, rfl, rfl, rfl⟩ rfl rfl
  · split <;> infer_instance

instance (id : SymbolId) (first last : Expr) (down : Bool) (body : Lower Unit)
    [∀ K, Moves (Codes K) body] :
    Moves (Codes K) (lowerCount id first last down body) := by
  unfold lowerCount
  dsimp only
  repeat' first | infer_instance | split | refine .bind inferInstance fun _ => ?_

mutual

theorem lowerStmt_moves (s : Stmt) : ∀ K, Moves (Codes K) (lowerStmt s) := by
  intro K
  cases s with
  | blank | define | assign | evaluate | giveBack | leave | next =>
    unfold lowerStmt
    infer_instance
  | choose h arms n otherwise =>
    have := lowerBlock_moves otherwise
    have : ∀ exit hasLast K [AtHand exit K], Moves (Codes K) (lowerArms exit hasLast arms) :=
      fun exit hasLast K _ => lowerArms_moves exit hasLast arms K
    unfold lowerStmt
    infer_instance
  | loop h c body =>
    have := lowerBlock_moves body
    unfold lowerStmt
    infer_instance
  | count h s first last down body =>
    have := lowerBlock_moves body
    unfold lowerStmt
    infer_instance

theorem lowerBlock_moves (b : Block) : ∀ K, Moves (Codes K) (lowerBlock b) := by
  intro K
  cases b with
  | absent => exact inferInstanceAs (Moves (Codes K) (pure ()))
  | of ss n m => exact lowerStmts_moves ss K

theorem lowerStmts_moves (ss : List Stmt) : ∀ K, Moves (Codes K) (lowerStmts ss) := by
  intro K
  cases ss with
  | nil => exact inferInstanceAs (Moves (Codes K) (pure ()))
  | cons s ss =>
    have := lowerStmt_moves s
    have := lowerStmts_moves ss
    unfold lowerStmts
    infer_instance

theorem lowerArms_moves (exit : LabelId) (hasLast : Bool) (arms : List Arm) :
    ∀ K [AtHand exit K], Moves (Codes K) (lowerArms exit hasLast arms) := by
  intro K _
  cases arms with
  | nil => exact inferInstanceAs (Moves (Codes K) (pure ()))
  | cons arm arms =>
    obtain ⟨c, body⟩ := arm
    have := lowerBlock_moves body
    have : ∀ K [AtHand exit K], Moves (Codes K) (lowerArms exit hasLast arms) :=
      fun K _ => lowerArms_moves exit hasLast arms K
    unfold lowerArms
    infer_instance

end

/-! ## Passes -/

instance (scope : Trace.Scope) (name : String) : Moves (Codes K) (openSpan scope name) :=
  .modifyGet fun _ => .of_eq rfl rfl rfl rfl rfl rfl rfl rfl

instance (span : Trace.OpenSpan) (detail : String) : Moves (Codes K) (closeSpan span detail) :=
  .modify fun _ => .of_eq rfl rfl rfl rfl rfl rfl rfl rfl

/-- Recording a pass moves nowhere else than the pass. -/
instance {R : Emission → Emission → Prop} [Path R] [∀ scope name, Moves R (openSpan scope name)]
    [∀ span detail, Moves R (closeSpan span detail)] (name : String)
    (body : Lower Unit) [Moves R body] :
    Moves R (pass name body) := by
  unfold pass
  infer_instance

instance : Moves (Codes K) warnRecursion := by
  unfold warnRecursion
  infer_instance

instance (g : Declaration) : Moves (Codes K) (initialise g) := by
  unfold initialise
  infer_instance

instance : Moves (Codes K) initialiseGlobals := by
  unfold initialiseGlobals
  infer_instance

instance (f : Function) : Moves (Codes K) (functionBody f) := by
  have : Moves (Codes K)
      (modify fun s => { s with current := some f, loops := [] } : Lower PUnit) :=
    .modify fun _ => .of_eq rfl rfl rfl rfl rfl rfl rfl rfl
  have := lowerBlock_moves f.body
  unfold functionBody
  refine .bind inferInstance fun s => ?_
  split <;> infer_instance

instance (f : Function) : Moves (Codes K) (lowerFunction f) := by
  have : Moves (Codes K) (modify fun s => { s with current := none } : Lower PUnit) :=
    .modify fun _ => .of_eq rfl rfl rfl rfl rfl rfl rfl rfl
  unfold lowerFunction
  infer_instance

instance (entry : Option Function) : Moves (Codes K) (lowerCode entry) := by
  unfold lowerCode
  dsimp only
  split <;> infer_instance

end

instance : Keeping Routine.emitLibrary := ⟨Routine.emitLibrary_keeps⟩

instance (n : UInt16) (l : LabelId) (bytes : List UInt8) :
    Keeping (.onStream fun s => ((s.align n).bind l).data bytes) where
  keeps _ := ⟨rfl, [.align n, .bind l, .data bytes], rfl⟩

instance : Moves Stays emitData := by
  unfold emitData
  refine .bind inferInstance fun p => .forM_mem fun d _ => .bind inferInstance fun s => ?_
  split <;> infer_instance

theorem poolEmit_precedes (pool : Pool) (s : Stream) : s.Precedes (pool.emit s) := by
  rw [Pool.emit, ← Array.foldl_toList]
  induction pool.entries.toList generalizing s with
  | nil => exact .refl s
  | cons e es ih => exact .trans ⟨[.bind e.1, .data e.2], rfl⟩ (ih _)

instance : Moves Stays lowerTail := by
  have : Moves Stays (modify fun s => { s with
      workspace := { s.workspace with stream := s.pool.emit s.workspace.stream } } : Lower PUnit) :=
    .modify fun s => ⟨⟨⟨rfl, poolEmit_precedes _ _⟩, .refl _, [], rfl⟩, rfl, rfl, rfl, rfl⟩
  unfold lowerTail
  refine .bind inferInstance fun _ => .bind inferInstance fun _ => .bind inferInstance fun _ =>
    .bind inferInstance fun s => ?_
  split <;> infer_instance

instance : Moves Stays linkImage := by
  unfold linkImage
  refine .bind inferInstance fun s => ?_
  split <;> infer_instance

instance (name : Bytes) : Keeping (.onStream fun s => (s.placeLabel name).1) :=
  ⟨fun _ => ⟨rfl, .perform _ (.placeLabel name)⟩⟩

/-! ## The whole program -/

/-- What giving a symbol an address comes to. -/
theorem perform_allocate (id : SymbolId) (p : Program) (s : Emission) :
    perform (allocate id) p s =
      match s.allocator.allocateSymbol id ((p.symbol? id).map fun s => (s.name, s.type)) with
      | .ok (allocator, _) => (.ok (), { s with allocator })
      | .error cause => (.error (.allocation cause), s) := by
  show perform (match s.allocator.allocateSymbol id _ with | .ok (_, _) => _ | .error _ => _) p s =
    _
  split <;> rfl

theorem Emission.Names.of_eq {s s' : Emission} (workspace : s'.workspace = s.workspace)
    (allocator : s'.allocator = s.allocator) (reports : s'.reports = s.reports)
    (pool : s'.pool = s.pool) (data : s'.data = s.data) : s.Names s' :=
  ⟨⟨workspace ▸ .refl _, allocator ▸ .refl _, [], reports⟩, workspace ▸ .refl _, pool, fun h => by
    rw [Numbered, data, workspace]
    exact h⟩

instance (d : Diagnostic) : Moves Names (report d) :=
  .modify fun _ => ⟨⟨.refl _, .refl _, [d], rfl⟩, .refl _, rfl, id⟩

instance (code : Code) (span : Span) (m : String) : Moves Names (reportError code span m) := by
  unfold reportError
  infer_instance

instance (id : SymbolId) : Moves Names (symbol id) := by
  unfold symbol
  refine .bind inferInstance fun p => ?_
  split <;> infer_instance

instance (name : Bytes) : Moves Names (write (.namedLabel name)) where
  moves _ s := by
    have hgrows := ((Routine.Workspace.Writes.refl s.workspace).labelled name).toGrows
    exact ⟨⟨⟨hgrows.target, hgrows.stream.precedes⟩, .refl _, [], rfl⟩, hgrows.stream,
        rfl, fun h e he =>
      Nat.le_trans (h e he) hgrows.stream.precedes.labels⟩

instance (scope : Trace.Scope) (name : String) : Moves Names (openSpan scope name) :=
  .modifyGet fun _ => .of_eq rfl rfl rfl rfl rfl

instance (span : Trace.OpenSpan) (detail : String) : Moves Names (closeSpan span detail) :=
  .modify fun _ => .of_eq rfl rfl rfl rfl rfl

instance : Moves Names warnRecursion := by
  unfold warnRecursion
  infer_instance

instance (id : SymbolId) : Moves Names (allocate id) where
  moves p s := by
    rw [perform_allocate]
    split
    next a address h =>
      exact ⟨⟨.refl _, Allocator.allocateSymbol_grows h, [], rfl⟩, .refl _, rfl, fun h => h⟩
    next => exact Path.refl s

instance (g : Declaration) : Moves Names (allocateGlobal g) := by
  have : Moves Names (modify fun e => { e with constants := (g.symbol, g.value) :: e.constants } :
      Lower PUnit) :=
    .modify fun _ => .of_eq rfl rfl rfl rfl rfl
  unfold allocateGlobal
  infer_instance

instance (f : Function) : Moves Names (allocateFrame f) := by
  have (l : LabelId) :
      Moves Names (modify fun s => { s with functions := (f.id, l) :: s.functions } :
      Lower PUnit) :=
    .modify fun _ => .of_eq rfl rfl rfl rfl rfl
  unfold allocateFrame
  infer_instance

instance : Moves Names allocateStorage := by
  have : Moves Names (modify fun s => { s with globalSize := s.allocator.used } : Lower PUnit) :=
    .modify fun _ => .of_eq rfl rfl rfl rfl rfl
  unfold allocateStorage
  infer_instance

/-- A data block gets a label that is made for it. -/
instance (priority := high) (name : Bytes) (id : DataId) (f : PUnit → Lower α)
    [hf : ∀ u, Moves Names (f u)] :
    Moves Names (write (.namedLabel name) >>= fun l =>
      modify (fun s => { s with data := (id, l) :: s.data }) >>= f) where
  moves p s := by
    have hgrows := ((Routine.Workspace.Writes.refl s.workspace).labelled name).toGrows
    let s₁ : Emission := { s with
      workspace := s.workspace.labelled name
      data := (id, s.workspace.nextLabel) :: s.data }
    have hmade : s.Names s₁ := by
      refine ⟨⟨⟨hgrows.target, hgrows.stream.precedes⟩, .refl _, [], rfl⟩, hgrows.stream,
        rfl, fun h e he => ?_⟩
      rcases List.mem_cons.1 he with rfl | he
      · show (UInt32.ofNat (s.workspace.stream.labels.size + 1)).toNat ≤
          (s.workspace.stream.addLabel name).1.labels.size
        rw [Stream.size_labels_addLabel, UInt32.toNat_ofNat']
        exact Nat.mod_le _ _
      · exact Nat.le_trans (h e he) hgrows.stream.precedes.labels
    exact Path.trans hmade ((hf .unit).moves p s₁)

instance declareData_moves (seen : List Bytes) (blocks : List (DataBlock × Nat)) :
    Moves Names (declareData seen blocks) := by
  induction blocks generalizing seen with
  | nil => exact inferInstanceAs (Moves Names (pure ()))
  | cons block blocks ih =>
    obtain ⟨d, i⟩ := block
    unfold declareData
    dsimp only
    infer_instance

instance : Moves Follows lowerProgram := by
  unfold lowerProgram
  dsimp only
  infer_instance

end Breadbin.Lowering
