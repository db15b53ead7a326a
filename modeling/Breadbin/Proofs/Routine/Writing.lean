import Breadbin.Proofs.Assembly.Growth
import Breadbin.Routine.Writer

/-!
# What writers write

`Workspace.Grows` says which lines a workspace has got; routines may have been asked for meanwhile.
Code without labels of its own writes fixed lines, whatever stands before them: `Writer.Straight`.
-/

namespace Breadbin.Routine

open Assembly

attribute [simp] Action.ownArg

namespace Workspace

/-- A workspace with more lines. -/
def writing (w : Workspace) (ls : List Line) : Workspace := { w with stream := w.stream.writing ls }

/-- A workspace with one more label. -/
def labelled (w : Workspace) (name : Bytes) : Workspace :=
  { w with stream := (w.stream.addLabel name).1 }

/-- The label that is made next. -/
def nextLabel (w : Workspace) : LabelId := (w.stream.addLabel []).2

/-- The second workspace is the first one with more lines; no routine is written. -/
structure Grows (w w' : Workspace) (ls : List Line) : Prop where
  stream : w.stream.Grows w'.stream ls
  target : w'.target = w.target
  emitted : w'.emitted = w.emitted
  /-- a routine that was asked for keeps its label -/
  labels : ∀ id l, w.label? id = some l → w'.label? id = some l

theorem Grows.refl (w : Workspace) : w.Grows w [] := ⟨.refl _, rfl, rfl, fun _ _ h => h⟩

theorem Grows.trans {w v u : Workspace} {ls ms : List Line} (h : w.Grows v ls) (h' : v.Grows u ms) :
    w.Grows u (ls ++ ms) :=
  ⟨h.stream.trans h'.stream, h'.target.trans h.target, h'.emitted.trans h.emitted,
    fun id l hl => h'.labels id l (h.labels id l hl)⟩

variable {w w' : Workspace} {ls ms : List Line}

/-- The same without asking for routines. -/
structure Writes (w w' : Workspace) (ls : List Line) : Prop extends w.Grows w' ls where
  same : w'.labels = w.labels

theorem Writes.refl (w : Workspace) : w.Writes w [] := ⟨.refl w, rfl⟩

theorem Writes.writing (h : w.Writes w' ls) (hms : ms.any Line.isAlign = false) :
    w.Writes (w'.writing ms) (ls ++ ms) :=
  ⟨h.toGrows.trans ⟨.writing _ hms, rfl, rfl, fun _ _ h => h⟩, h.same⟩

theorem Writes.labelled (h : w.Writes w' ls) (name : Bytes) : w.Writes (w'.labelled name) ls := by
  have := h.toGrows.trans ⟨.addLabel w'.stream name, rfl, rfl, fun _ _ h => h⟩
    (u := w'.labelled name)
  rw [List.append_nil] at this
  exact ⟨this, h.same⟩

/-! ## Asking for routines -/

theorem requireOne_grows (w : Workspace) (id : RoutineId) : w.Grows (w.requireOne id) [] := by
  unfold requireOne
  cases h : w.label? id with
  | some l => exact .refl w
  | none =>
    refine ⟨.addLabel w.stream (Text.bytesOf id.name), rfl, rfl, fun id' l hl => ?_⟩
    have hne : id' ≠ id := by
      rintro rfl
      rw [h] at hl
      cases hl
    rw [label?, List.lookup_cons, beq_eq_false_iff_ne.2 hne]
    exact hl

theorem label?_requireOne (w : Workspace) (id : RoutineId) :
    ((w.requireOne id).label? id).isSome := by
  unfold requireOne
  cases h : w.label? id with
  | some l => simp [h]
  | none => simp [label?]

theorem foldl_requireOne_grows (w : Workspace) (ids : List RoutineId) :
    w.Grows (ids.foldl requireOne w) [] := by
  induction ids generalizing w with
  | nil => exact .refl w
  | cons id ids ih => exact (requireOne_grows w id).trans (ih _)

theorem label?_foldl_requireOne (w : Workspace) {ids : List RoutineId}
    {id : RoutineId} (h : id ∈ ids) :
    ((ids.foldl requireOne w).label? id).isSome := by
  induction ids generalizing w with
  | nil => cases h
  | cons first ids ih =>
    rcases List.mem_cons.1 h with rfl | h
    · obtain ⟨l, hl⟩ := Option.isSome_iff_exists.1 (label?_requireOne w id)
      simp [(foldl_requireOne_grows (w.requireOne id) ids).labels id l hl]
    · exact ih _ h

theorem require_grows (w : Workspace) (id : RoutineId) : w.Grows (w.require id).1 [] :=
  foldl_requireOne_grows w id.postorder

/-- A routine stands behind the routines it needs. -/
theorem mem_postorder (id : RoutineId) : id ∈ id.postorder := by
  cases id <;> decide +kernel

/-- Asking for a routine gives its label. -/
theorem label?_require (w : Workspace) (id : RoutineId) :
    (w.require id).1.label? id = some (w.require id).2 := by
  obtain ⟨l, hl⟩ := Option.isSome_iff_exists.1 (label?_foldl_requireOne w (mem_postorder id))
  simp [require, hl]

/-- All that a routine needs is asked for with it. -/
theorem label?_require_postorder (w : Workspace) {id needed : RoutineId}
    (h : needed ∈ id.postorder) :
    ((w.require id).1.label? needed).isSome :=
  label?_foldl_requireOne w h

/-- Asking again changes nothing. -/
theorem require_of_isSome {w : Workspace} {id : RoutineId} {l : LabelId}
    (h : ∀ needed ∈ id.postorder, (w.label? needed).isSome) (hl : w.label? id = some l) :
    w.require id = (w, l) := by
  have hfold : ∀ ids : List RoutineId, (∀ needed ∈ ids, (w.label? needed).isSome) →
      ids.foldl requireOne w = w := by
    intro ids hids
    induction ids with
    | nil => rfl
    | cons first ids ih =>
      obtain ⟨l', hl'⟩ := Option.isSome_iff_exists.1 (hids first (by simp))
      rw [List.foldl_cons, requireOne, hl']
      exact ih fun needed hn => hids needed (by simp [hn])
  rw [require, hfold _ h]
  simp [hl]

/-- A routine that needs no other one, asked for again. -/
theorem require_alone {w : Workspace} {id : RoutineId} {l : LabelId} (hid : id.postorder = [id])
    (hl : w.label? id = some l) : w.require id = (w, l) := by
  refine require_of_isSome (fun needed hneeded => ?_) hl
  obtain rfl : needed = id := by simpa [hid] using hneeded
  simp [hl]

@[simp] theorem label?_writing (w : Workspace) (ls : List Line) (id : RoutineId) :
    (w.writing ls).label? id = w.label? id := (rfl)

@[simp] theorem label?_labelled (w : Workspace) (name : Bytes) (id : RoutineId) :
    (w.labelled name).label? id = w.label? id := (rfl)

@[simp] theorem writing_writing (w : Workspace) (ls ms : List Line) :
    (w.writing ls).writing ms = w.writing (ls ++ ms) := by
  simp [writing, Stream.writing_append]

end Workspace

namespace Writer

variable (w : Workspace) (mn : Mnemonic) (l : LabelId)

@[simp] theorem bind_apply {α β : Type} (m : Writer α) (f : α → Writer β) :
    (m >>= f) w = f (m w).1 (m w).2 := (rfl)

@[simp] theorem pure_apply {α : Type} (x : α) : (pure x : Writer α) w = (x, w) := (rfl)

@[simp] theorem get_apply : (get : Writer Workspace) w = (w, w) := (rfl)

@[simp] theorem set_apply (w' : Workspace) : (set w' : Writer PUnit) w = ((), w') := (rfl)

@[simp] theorem zp_apply (z : UInt8) :
    zp mn z w = ((), w.writing [.instr mn (.zeroPage z)]) := (rfl)

@[simp] theorem imm_apply (n : UInt8) :
    imm mn n w = ((), w.writing [.instr mn (.immediate n)]) := (rfl)

theorem op_eq_emit (s : Stream) : s.op mn = s.emit mn (Action.ownArg mn).operand := by
  cases mn <;> rfl

@[simp] theorem op_apply : op mn w = ((), w.writing [.instr mn (Action.ownArg mn)]) := by
  rw [show op mn w = ((), { w with stream := w.stream.op mn }) from rfl, op_eq_emit]
  rfl

@[simp] theorem branch_apply : branch mn l w = ((), w.writing [.instr mn (.relative l)]) := (rfl)

@[simp] theorem jump_apply :
    jump l w = ((), w.writing [.instr .jmp (.absolute (.ofLabel l))]) := (rfl)

@[simp] theorem callLabel_apply :
    callLabel l w = ((), w.writing [.instr .jsr (.absolute (.ofLabel l))]) := (rfl)

@[simp] theorem bound_apply : Writer.bind l w = ((), w.writing [.bound l]) := (rfl)

@[simp] theorem label_apply : label w = (w.nextLabel, w.labelled []) := (rfl)

@[simp] theorem here_apply :
    here w = (w.nextLabel, (w.labelled []).writing [.bound w.nextLabel]) := (rfl)

@[simp] theorem require_apply (id : RoutineId) :
    require id w = ((w.require id).2, (w.require id).1) := (rfl)

end Writer

end Breadbin.Routine
