import Breadbin.Proofs.Assembly.Labels
import Breadbin.Proofs.Routine.Writing

/-!
# Writers that bind their labels

`Writer.Leaves` holds of a writer that refers to known labels only, binds open labels once and
writes instructions that exist.  There is one rule for each way to write, so that it is seen from
the text of a routine.  What such a writer does to the labels of a workspace is proved once for all
of them.
-/

namespace Breadbin.Routine

open Assembly Opcode

/-! ## Workspaces -/

namespace Workspace

/-- The labels of the routines that are asked for and not written yet. -/
def pending (w : Workspace) : List LabelId :=
  w.labels.filterMap fun e => if w.emitted.contains e.1 then none else some e.2

/-- Writing leaves the target alone. -/
structure Keeps (w w' : Workspace) : Prop where
  target : w'.target = w.target
  stream : w.stream.Precedes w'.stream

/-- The same, and no routine is written. -/
structure Extends (w w' : Workspace) : Prop extends w.Keeps w' where
  emitted : w'.emitted = w.emitted

/-- No label is forgotten. -/
theorem Keeps.labels {w w' : Workspace} (h : w.Keeps w') :
    w.stream.labels.size ≤ w'.stream.labels.size :=
  h.stream.labels

theorem Keeps.refl (w : Workspace) : w.Keeps w := ⟨rfl, .refl _⟩

theorem Keeps.trans {w v u : Workspace} (h : w.Keeps v) (h' : v.Keeps u) : w.Keeps u :=
  ⟨h'.target.trans h.target, h.stream.trans h'.stream⟩

theorem Extends.refl (w : Workspace) : w.Extends w := ⟨.refl w, rfl⟩

theorem Extends.trans {w v u : Workspace} (h : w.Extends v) (h' : v.Extends u) : w.Extends u :=
  ⟨h.toKeeps.trans h'.toKeeps, h'.emitted.trans h.emitted⟩

theorem Keeps.knows {w w' : Workspace} (h : w.Keeps w') {l : LabelId} (hl : w.stream.Knows l) :
    w'.stream.Knows l := by
  have := Stream.knows_iff.1 hl
  exact Stream.knows_iff.2 ⟨this.1, Nat.le_trans this.2 h.labels⟩

/-- A workspace whose open labels are the given ones and those of the routines still to be
written. -/
structure Tidy (far : LabelId → Prop) (w : Workspace) (unbound : List LabelId) : Prop where
  stream : w.stream.Tidy far (unbound ++ w.pending)
  /-- labels of routines are near -/
  routines : ∀ id l, (id, l) ∈ w.labels → w.stream.Knows l ∧ ¬far l
  keys : (w.labels.map Prod.fst).Nodup
  asked : ∀ id ∈ w.emitted, (w.label? id).isSome = true
  far : ∀ l, far l → w.stream.Knows l

/-- Labels that may be branched to. -/
def Near (far : LabelId → Prop) (w : Workspace) (known : List LabelId) : Prop :=
  ∀ l ∈ known, w.stream.Knows l ∧ ¬far l

variable {far : LabelId → Prop} {w w' : Workspace} {unbound known : List LabelId} {l : LabelId}

theorem Near.keeps (h : w.Near far known) (hw : w.Keeps w') : w'.Near far known :=
  fun l hl => ⟨hw.knows (h l hl).1, (h l hl).2⟩

theorem Near.cons (h : w.Near far known) (hl : w.stream.Knows l ∧ ¬far l) :
    w.Near far (l :: known) := by
  intro l' hl'
  rcases List.mem_cons.1 hl' with rfl | hl'
  · exact hl
  · exact h l' hl'

theorem Tidy.perm {unbound' : List LabelId} (h : w.Tidy far unbound)
    (hperm : unbound.Perm unbound') :
    w.Tidy far unbound' :=
  { h with stream := Stream.Regular.perm h.stream (hperm.append_right _) }

/-- Changes of the stream alone. -/
theorem Tidy.onStream {s : Stream} (h : w.Tidy far unbound) (hs : s.Tidy far (unbound ++ w.pending))
    (hprecedes : w.stream.Precedes s) : Tidy far { w with stream := s } unbound :=
  have hkeeps : w.Keeps { w with stream := s } := ⟨rfl, hprecedes⟩
  { stream := hs
    routines := fun id l hl => ⟨hkeeps.knows (h.routines id l hl).1, (h.routines id l hl).2⟩
    keys := h.keys
    asked := h.asked
    far := fun l hl => hkeeps.knows (h.far l hl) }

theorem labelled_extends (w : Workspace) (name : Bytes) : w.Extends (w.labelled name) :=
  ⟨⟨rfl, .perform _ (.addLabel name)⟩, rfl⟩

/-- A new label is open, and near. -/
theorem Tidy.labelled (h : w.Tidy far unbound) (name : Bytes)
    (few : (w.labelled name).stream.labels.size < 4294967296) :
    (w.labelled name).Tidy far (w.nextLabel :: unbound) ∧
      (w.labelled name).stream.Knows w.nextLabel ∧ ¬far w.nextLabel := by
  replace few : w.stream.labels.size + 1 < 4294967296 := by
    simpa [Workspace.labelled] using few
  have hnear : ¬far w.nextLabel := fun hfar =>
    Stream.not_knows_addLabel few name (h.far _ hfar)
  refine ⟨?_, (Stream.knows_addLabel_iff few name).2 (.inl rfl), hnear⟩
  have hext := labelled_extends w name
  exact
    { stream := h.stream.addLabel few name
      routines := fun id l hl => ⟨hext.knows (h.routines id l hl).1, (h.routines id l hl).2⟩
      keys := h.keys
      asked := h.asked
      far := fun l hl => hext.knows (h.far l hl) }

theorem bound_extends (w : Workspace) (l : LabelId) :
    w.Extends { w with stream := w.stream.bind l } :=
  ⟨⟨rfl, .perform _ (.bind l)⟩, rfl⟩

theorem Tidy.bind (h : w.Tidy far (l :: unbound)) :
    Tidy far { w with stream := w.stream.bind l } unbound :=
  have hext := bound_extends w l
  { stream := h.stream.bind
    routines := fun id l hl => ⟨hext.knows (h.routines id l hl).1, (h.routines id l hl).2⟩
    keys := h.keys
    asked := h.asked
    far := fun l hl => hext.knows (h.far l hl) }

theorem emitted_extends (w : Workspace) (mn : Mnemonic) (arg : Arg) :
    w.Extends { w with stream := w.stream.emit mn arg.operand } :=
  ⟨⟨rfl, .perform _ (.emit mn arg)⟩, rfl⟩

theorem Tidy.emit (h : w.Tidy far unbound) {m : Mnemonic} {a : Arg}
    (hmode : (Opcode.encode? m a.mode).isSome = true) (hadmits : w.stream.Admits far a) :
    Tidy far { w with stream := w.stream.emit m a.operand } unbound :=
  h.onStream (h.stream.emit hmode hadmits) (emitted_extends w m _).stream

/-- The same, and the instruction stands behind all labels. -/
theorem Tidy.emitted (h : w.Tidy far unbound) {m : Mnemonic} {a : Arg} {e : Bool}
    (hmode : (Opcode.encode? m a.mode).isSome = true) (hadmits : w.stream.Admits far a) :
    Tidy far { w with stream := w.stream.emit m a.operand } unbound ∧
      (e = true → (w.stream.emit m a.operand).Followed) :=
  ⟨h.emit hmode hadmits, fun _ => h.stream.followed_emit hmode hadmits.1⟩

theorem data_extends (w : Workspace) (bytes : List UInt8) :
    w.Extends { w with stream := w.stream.data bytes } :=
  ⟨⟨rfl, .perform _ (.data bytes)⟩, rfl⟩

/-! ## Asking for routines -/

theorem requireOne_extends (w : Workspace) (id : RoutineId) : w.Extends (w.requireOne id) := by
  unfold requireOne
  split
  · exact .refl w
  · exact ⟨⟨rfl, .perform _ (.addLabel (Text.bytesOf id.name))⟩, rfl⟩

theorem foldl_requireOne_extends (w : Workspace) (ids : List RoutineId) :
    w.Extends (ids.foldl requireOne w) := by
  induction ids generalizing w with
  | nil => exact .refl w
  | cons id ids ih => exact (requireOne_extends w id).trans (ih _)

theorem require_extends (w : Workspace) (id : RoutineId) : w.Extends (w.require id).1 :=
  foldl_requireOne_extends w id.postorder

theorem Tidy.requireOne (h : w.Tidy far unbound) (id : RoutineId)
    (few : (w.requireOne id).stream.labels.size < 4294967296) :
    (w.requireOne id).Tidy far unbound := by
  have hext := requireOne_extends w id
  unfold Workspace.requireOne at few hext ⊢
  split
  next => exact h
  next hnone =>
    simp only [hnone] at few hext
    replace few : w.stream.labels.size + 1 < 4294967296 := by simpa using few
    have hnew : w.emitted.contains id = false := by
      rw [List.contains_eq_mem, decide_eq_false_iff_not]
      intro hmem
      have := h.asked id hmem
      simp [hnone] at this
    refine ⟨?_, fun id' l hl => ?_, ?_, fun id' hid' => ?_, fun l hl => hext.knows (h.far l hl)⟩
    · have hpending : pending { w with
          stream := (w.stream.addLabel (Text.bytesOf id.name)).1
          labels := (id, (w.stream.addLabel (Text.bytesOf id.name)).2) :: w.labels } =
            (w.stream.addLabel (Text.bytesOf id.name)).2 :: w.pending := by
        simp only [pending, List.filterMap_cons, hnew, Bool.false_eq_true, if_false]
      rw [hpending]
      exact (h.stream.addLabel few (Text.bytesOf id.name)).perm List.perm_middle.symm
    · rcases List.mem_cons.1 hl with heq | hl
      · obtain ⟨-, rfl⟩ := Prod.mk.inj heq
        exact ⟨(Stream.knows_addLabel_iff few _).2 (.inl rfl),
          fun hfar => Stream.not_knows_addLabel few (Text.bytesOf id.name) (h.far _ hfar)⟩
      · exact ⟨hext.knows (h.routines id' l hl).1, (h.routines id' l hl).2⟩
    · refine List.nodup_cons.2 ⟨fun hkey => ?_, h.keys⟩
      obtain ⟨⟨id', l⟩, hmem, rfl⟩ := List.mem_map.1 hkey
      have hsome : (w.label? id').isSome = true := by
        rw [label?, List.lookup_isSome_iff]
        exact ⟨_, hmem, by simp⟩
      simp [hnone] at hsome
    · rw [label?, List.lookup_cons]
      split
      · rfl
      · exact h.asked id' hid'

theorem Tidy.foldl_requireOne (h : w.Tidy far unbound) (ids : List RoutineId)
    (few : (ids.foldl Workspace.requireOne w).stream.labels.size < 4294967296) :
    Tidy far (ids.foldl Workspace.requireOne w) unbound := by
  induction ids generalizing w with
  | nil => exact h
  | cons id ids ih =>
    have hrest := foldl_requireOne_extends (w.requireOne id) ids
    exact ih (h.requireOne id (Nat.lt_of_le_of_lt hrest.labels few)) few

theorem isSome_requireOne_iff (w : Workspace) (id r : RoutineId) :
    ((w.requireOne id).label? r).isSome ↔ (w.label? r).isSome ∨ r = id := by
  unfold requireOne
  cases h : w.label? id with
  | some l =>
    refine ⟨.inl, fun hr => hr.elim (fun hr => hr) ?_⟩
    rintro rfl
    simp [h]
  | none =>
    by_cases hr : r = id
    · simp [label?, hr]
    · simp [label?, List.lookup_cons, beq_eq_false_iff_ne.2 hr, hr]

/-- Asking for a routine asks for what stands in its list, and for nothing else. -/
theorem isSome_require_iff (w : Workspace) (id r : RoutineId) :
    ((w.require id).1.label? r).isSome ↔ (w.label? r).isSome ∨ r ∈ id.postorder := by
  have hfold (ids : List RoutineId) (w : Workspace) :
      ((ids.foldl Workspace.requireOne w).label? r).isSome ↔ (w.label? r).isSome ∨ r ∈ ids := by
    induction ids generalizing w with
    | nil => simp
    | cons first ids ih => rw [List.foldl_cons, ih, isSome_requireOne_iff, List.mem_cons, or_assoc]
  exact hfold id.postorder w

/-- Apart from labels of routines, so many labels are made. -/
def Makes (n : Nat) (w w' : Workspace) : Prop :=
  w'.stream.labels.size + w.labels.length = w.stream.labels.size + w'.labels.length + n

theorem Makes.of_same {s : Stream} (h : s.labels.size = w.stream.labels.size) :
    w.Makes 0 { w with stream := s } := by
  simp [Makes, h]

theorem Makes.trans {m n : Nat} {v u : Workspace} (h : w.Makes m v) (h' : v.Makes n u) :
    w.Makes (m + n) u := by
  unfold Makes at h h' ⊢
  omega

theorem labelled_makes (w : Workspace) (name : Bytes) : w.Makes 1 (w.labelled name) := by
  simp only [Makes, Workspace.labelled, Stream.size_labels_addLabel]
  omega

theorem requireOne_makes (w : Workspace) (id : RoutineId) : w.Makes 0 (w.requireOne id) := by
  unfold requireOne
  split
  · simp [Makes]
  · simp [Makes, Nat.add_right_comm, Nat.add_assoc]

theorem require_makes (w : Workspace) (id : RoutineId) : w.Makes 0 (w.require id).1 := by
  have hfold (ids : List RoutineId) (w : Workspace) :
      w.Makes 0 (ids.foldl Workspace.requireOne w) := by
    induction ids generalizing w with
    | nil => simp [Makes]
    | cons first ids ih => exact (w.requireOne_makes first).trans (ih _)
  exact hfold id.postorder w

/-- Asking for a routine makes a label for each routine in its list at most. -/
theorem size_require_le (w : Workspace) (id : RoutineId) :
    (w.require id).1.stream.labels.size ≤ w.stream.labels.size + id.postorder.length := by
  have hone (w : Workspace) (id : RoutineId) :
      (w.requireOne id).stream.labels.size ≤ w.stream.labels.size + 1 := by
    unfold requireOne
    split <;> simp
  have hfold (ids : List RoutineId) (w : Workspace) :
      (ids.foldl Workspace.requireOne w).stream.labels.size ≤
          w.stream.labels.size + ids.length := by
    induction ids generalizing w with
    | nil => exact Nat.le_refl _
    | cons first ids ih =>
      have := ih (w.requireOne first)
      have := hone w first
      simp only [List.foldl_cons, List.length_cons]
      omega
  exact hfold id.postorder w

theorem followed_require (h : w.stream.Followed) (id : RoutineId)
    (few : (w.require id).1.stream.labels.size < 4294967296) :
    (w.require id).1.stream.Followed := by
  have hone (w : Workspace) (id : RoutineId) (h : w.stream.Followed)
      (few : (w.requireOne id).stream.labels.size < 4294967296) :
          (w.requireOne id).stream.Followed := by
    unfold requireOne at few ⊢
    split at few
    next l hl => simpa only [hl] using h
    next hl => simpa only [hl] using h.addLabel (by simpa using few) (Text.bytesOf id.name)
  have hfold (ids : List RoutineId) (w : Workspace) (h : w.stream.Followed)
      (few : (ids.foldl Workspace.requireOne w).stream.labels.size < 4294967296) :
      (ids.foldl Workspace.requireOne w).stream.Followed := by
    induction ids generalizing w with
    | nil => exact h
    | cons first ids ih =>
      have hrest := (foldl_requireOne_extends (w.requireOne first) ids).labels
      exact ih _ (hone w first h (Nat.lt_of_le_of_lt hrest few)) few
  exact hfold id.postorder w h few

/-- Asking for a routine gives a label that may be branched to. -/
theorem Tidy.require (h : w.Tidy far unbound) (id : RoutineId)
    (few : (w.require id).1.stream.labels.size < 4294967296) :
    (w.require id).1.Tidy far unbound ∧
      (w.require id).1.stream.Knows (w.require id).2 ∧ ¬far (w.require id).2 := by
  have htidy : (w.require id).1.Tidy far unbound := h.foldl_requireOne id.postorder few
  obtain ⟨_, _, hlabels, -⟩ := List.lookup_eq_some_iff.1 (label?_require w id)
  exact ⟨htidy, htidy.routines id _ (by simp [hlabels])⟩

end Workspace

theorem mem_all (id : RoutineId) : id ∈ RoutineId.all := by
  cases id <;> decide +kernel

/-! ## Writers -/

/-- The second list is the first one without one element. -/
inductive Removes {α : Type} (l : α) : List α → List α → Prop where
  | head {ls : List α} : Removes l (l :: ls) ls
  | tail {l' : α} {ls ms : List α} : Removes l ls ms → Removes l (l' :: ls) (l' :: ms)

theorem Removes.perm {α : Type} {l : α} {ls ms : List α} (h : Removes l ls ms) :
    ls.Perm (l :: ms) := by
  induction h with
  | head => exact .refl _
  | tail _ ih => exact (ih.cons _).trans (.swap ..)

namespace Writer

/-- With the labels `known`, of which `unbound` are open, a writer leaves `left` open; if `solid`,
the last thing that it writes has bytes.  It makes `made` labels of its own and asks for no routines
but those of `asks`. -/
inductive Leaves : {α : Type} → (asks : List RoutineId) → (made : Nat) → (solid : Bool) →
    (known unbound : List LabelId) → Writer α → (left : List LabelId) → Prop where
  | done {α R K M} (a : α) : Leaves R 0 false K M (pure a) M
  | thenLabel {α R n e K M N} {f : LabelId → Writer α}
    (rest : ∀ l, Leaves R n e (l :: K) (l :: M) (f l) N) : Leaves R (n + 1) e K M (label >>= f) N
  | thenHere {α R n e K M N} {f : LabelId → Writer α}
      (rest : ∀ l, Leaves R n e (l :: K) M (f l) N) :
    Leaves R (n + 1) e K M (here >>= f) N
  | thenTarget {α R n e K M N} {f : Target → Writer α} (rest : ∀ t, Leaves R n e K M (f t) N) :
    Leaves R n e K M (target >>= f) N
  | andThen {α β R n m d e K M N O} {x : Writer α} {f : α → Writer β} (first : Leaves R n d K M x N)
    (rest : ∀ a, Leaves R m e K N (f a) O) : Leaves R (n + m) e K M (x >>= f) O
  | emit {R K M mn} {arg : Arg} (encodable : takes mn arg.mode = true)
    (unlabelled : arg.operand.label.isSome = false) : Leaves R 0 true K M (emit mn arg.operand) M
  | op {R K M mn} (encodable : takes mn (Action.ownArg mn).mode = true) :
      Leaves R 0 true K M (op mn) M
  | imm {R K M mn n} (encodable : takes mn .immediate = true) : Leaves R 0 true K M (imm mn n) M
  | zp {R K M mn z} (encodable : takes mn .zeroPage = true) : Leaves R 0 true K M (zp mn z) M
  | indY {R K M mn z} (encodable : takes mn .indirectY = true) : Leaves R 0 true K M (indY mn z) M
  | abs {R K M mn a} (encodable : takes mn .absolute = true) : Leaves R 0 true K M (abs mn a) M
  | absY {R K M mn a} (encodable : takes mn .absoluteY = true) : Leaves R 0 true K M (absY mn a) M
  | tableX {R K M mn l} (encodable : takes mn .absoluteX = true) (known : l ∈ K) :
    Leaves R 0 true K M (tableX mn l) M
  | branch {R K M mn l} (encodable : takes mn .relative = true) (known : l ∈ K) :
    Leaves R 0 true K M (branch mn l) M
  | jump {R K M l} (known : l ∈ K) : Leaves R 0 true K M (jump l) M
  | callLabel {R K M l} (known : l ∈ K) : Leaves R 0 true K M (callLabel l) M
  | loadAddress {R K M l} (known : l ∈ K) : Leaves R 0 true K M (loadAddress l) M
  | call {R K M id} (asked : id ∈ R) : Leaves R 0 true K M (call id) M
  | tailCall {R K M id} (asked : id ∈ R) : Leaves R 0 true K M (tailCall id) M
  | data {R K M bytes} (nonempty : bytes ≠ []) : Leaves R 0 true K M (data bytes) M
  | bind {R K M N l} (unbound : Removes l M N) : Leaves R 0 false K M (bind l) N

variable {α : Type} {R : List RoutineId} {n : Nat} {e : Bool} {K M N : List LabelId} {x : Writer α}

/-- A writer adds lines, which branch to known labels and to new ones, and of which the last one may
be known to have bytes. -/
theorem Leaves.lines (h : Leaves R n e K M x N) (w : Workspace) :
    ∃ ls, w.Grows (x w).2 ls ∧
      (∀ mn l, .instr mn (.relative l) ∈ ls → l.isSome = true →
        l ∈ K ∨ w.stream.Between (x w).2.stream l) ∧
      (e = true → Line.Ends ls) := by
  have hlabelled (w : Workspace) : w.Grows (w.labelled []) [] :=
    ((Workspace.Writes.refl w).labelled []).toGrows
  have hwriting (w : Workspace) (line : Line) (hline : line.isAlign = false) :
      w.Grows (w.writing [line]) [line] :=
    ((Workspace.Writes.refl w).writing (by simp [hline])).toGrows
  have hinstr (R : LabelId → Prop) (w : Workspace) (mn : Mnemonic) (arg : Arg)
      (htakes : takes mn arg.mode = true)
      (hnear : ∀ l, arg = .relative l → l.isSome = true → R l) : ∃ ls,
      w.Grows (w.writing [.instr mn arg]) ls ∧
        (∀ mn l, .instr mn (.relative l) ∈ ls → l.isSome = true → R l) ∧
            (true = true → Line.Ends ls) := by
    refine ⟨_, hwriting w _ rfl, fun mn' l hl => ?_, fun _ =>
      .singleton (Line.isSolid_instr htakes)⟩
    obtain ⟨-, rfl⟩ := by simpa using hl
    exact hnear l rfl
  induction h generalizing w with
  | done => exact ⟨[], .refl w, by simp, by simp⟩
  | thenLabel _ ih =>
    obtain ⟨ls, hls, hnear, hends⟩ := ih w.nextLabel (w.labelled [])
    refine ⟨_, (hlabelled w).trans hls, fun mn l hl hsome => ?_, hends⟩
    rcases hnear mn l hl hsome with hl | hl
    · rcases List.mem_cons.1 hl with rfl | hl
      · exact .inr (Stream.between_addLabel hls.stream.precedes)
      · exact .inl hl
    · exact .inr (hl.mono (hlabelled w).stream.precedes (.refl _))
  | thenHere _ ih =>
    obtain ⟨ls, hls, hnear, hends⟩ := ih w.nextLabel ((w.labelled []).writing [.bound w.nextLabel])
    have hbound := hwriting (w.labelled []) (.bound w.nextLabel) rfl
    refine ⟨_, ((hlabelled w).trans hbound).trans hls, fun mn l hl hsome => ?_, fun he =>
      (hends he).append _⟩
    rcases hnear mn l (by simpa using hl) hsome with hl | hl
    · rcases List.mem_cons.1 hl with rfl | hl
      · exact .inr (Stream.between_addLabel (hbound.trans hls).stream.precedes)
      · exact .inl hl
    · exact .inr (hl.mono ((hlabelled w).trans hbound).stream.precedes (.refl _))
  | thenTarget _ ih => exact ih _ w
  | andThen _ _ ih ih' =>
    obtain ⟨ls, hls, hnear, -⟩ := ih w
    obtain ⟨ms, hms, hnear', hends⟩ := ih' _ _
    refine ⟨_, hls.trans hms, fun mn l hl hsome => ?_, fun he => (hends he).append _⟩
    rcases List.mem_append.1 hl with hl | hl
    · exact (hnear mn l hl hsome).imp_right (·.mono (.refl _) hms.stream.precedes)
    · exact (hnear' mn l hl hsome).imp_right (·.mono hls.stream.precedes (.refl _))
  | op encodable =>
    rw [op_apply]
    refine hinstr _ w _ _ encodable fun l hl => ?_
    revert hl
    unfold Action.ownArg
    split <;> simp
  | @emit _ _ _ mn arg encodable unlabelled =>
    refine hinstr _ w mn arg encodable ?_
    rintro l rfl hsome
    exact absurd (hsome.symm.trans unlabelled) (by decide)
  | @imm _ _ _ mn v encodable => exact hinstr _ w mn (.immediate v) encodable (by simp)
  | @zp _ _ _ mn z encodable => exact hinstr _ w mn (.zeroPage z) encodable (by simp)
  | @indY _ _ _ mn z encodable => exact hinstr _ w mn (.indirectY z) encodable (by simp)
  | @abs _ _ _ mn a encodable => exact hinstr _ w mn (.absolute (.fixed a)) encodable (by simp)
  | @absY _ _ _ mn a encodable => exact hinstr _ w mn (.absoluteY (.fixed a)) encodable (by simp)
  | @tableX _ _ _ mn l encodable =>
    exact hinstr _ w mn (.absoluteX (.ofLabel l)) encodable (by simp)
  | @branch _ _ _ mn l encodable known =>
    refine hinstr _ w mn (.relative l) encodable ?_
    rintro l ⟨⟩ -
    exact .inl known
  | @jump _ _ _ l => exact hinstr _ w .jmp (.absolute (.ofLabel l)) rfl (by simp)
  | @callLabel _ _ _ l => exact hinstr _ w .jsr (.absolute (.ofLabel l)) rfl (by simp)
  | @loadAddress _ _ _ l =>
    refine ⟨_, (hwriting w (.instr .lda (.lowByte (.ofLabel l))) rfl).trans
      (hwriting _ (.instr .ldx (.highByte (.ofLabel l))) rfl), by simp, fun _ => ?_⟩
    exact (Line.Ends.singleton (Line.isSolid_instr rfl)).append _
  | @call _ _ _ id =>
    refine ⟨_, (w.require_grows id).trans
      (hwriting (w.require id).1 (.instr .jsr (.absolute (.ofLabel (w.require id).2))) rfl), by
        simp, fun _ => ?_⟩
    exact .singleton (Line.isSolid_instr rfl)
  | @tailCall _ _ _ id =>
    refine ⟨_, (w.require_grows id).trans
      (hwriting (w.require id).1 (.instr .jmp (.absolute (.ofLabel (w.require id).2))) rfl), by
        simp, fun _ => ?_⟩
    exact .singleton (Line.isSolid_instr rfl)
  | @data _ _ _ bytes nonempty =>
    refine ⟨_, hwriting w (.data bytes) rfl, by simp, fun _ => .singleton ?_⟩
    simpa [Line.isSolid, Line.raw] using nonempty
  | @bind _ _ _ _ l => exact ⟨_, hwriting w (.bound l) rfl, by simp, by simp⟩

/-- A writer adds lines. -/
theorem Leaves.grows (h : Leaves R n e K M x N) (w : Workspace) : ∃ ls, w.Grows (x w).2 ls := by
  obtain ⟨ls, hls, -⟩ := h.lines w
  exact ⟨ls, hls⟩

theorem Leaves.extends (h : Leaves R n e K M x N) (w : Workspace) : w.Extends (x w).2 := by
  obtain ⟨ls, hls⟩ := h.grows w
  exact ⟨⟨hls.target, hls.stream.precedes⟩, hls.emitted⟩

/-- What is kept by changing the stream and by asking for the routines that a writer asks for is
kept by the writer. -/
theorem Leaves.invariant {P : Workspace → Prop} (h : Leaves R n e K M x N)
    (changed : ∀ w s, P w → P { w with stream := s })
    (asked : ∀ w, ∀ id ∈ R, P w → P (w.require id).1) {w : Workspace} (hw : P w) : P (x w).2 := by
  induction h generalizing w with
  | done => exact hw
  | thenLabel _ ih => exact ih _ asked (changed _ _ hw)
  | thenHere _ ih => exact ih _ asked (changed _ _ (changed _ _ hw))
  | thenTarget _ ih => exact ih _ asked hw
  | andThen _ _ ih ih' => exact ih' _ asked (ih asked hw)
  | op =>
    rw [op_apply]
    exact changed _ _ hw
  | loadAddress => exact changed _ _ (changed _ _ hw)
  | call hid | tailCall hid => exact changed _ _ (asked _ _ hid hw)
  | emit | imm | zp | indY | abs | absY | tableX | branch | jump | callLabel | data | bind =>
    exact changed _ _ hw

/-- What a writer asks for is what it says, with all that is needed for it. -/
theorem Leaves.asks (h : Leaves R n e K M x N) (w : Workspace) {r : RoutineId}
    (hr : ((x w).2.label? r).isSome) : (w.label? r).isSome ∨ ∃ id ∈ R, r ∈ id.postorder := by
  refine h.invariant (P := fun v => (v.label? r).isSome → _) (fun _ _ hv => hv)
    (fun v id hid hv hr => ?_) .inl hr
  exact ((v.isSome_require_iff id r).1 hr).elim hv fun hr => .inr ⟨id, hid, hr⟩

theorem Leaves.makes (h : Leaves R n e K M x N) (w : Workspace) : w.Makes n (x w).2 := by
  induction h generalizing w with
  | done => exact .of_same rfl
  | @thenLabel _ _ n _ _ _ _ _ _ ih =>
    rw [Nat.add_comm n]
    exact (w.labelled_makes []).trans (ih _ _)
  | @thenHere _ _ n _ _ _ _ _ _ ih =>
    rw [Nat.add_comm n]
    exact ((w.labelled_makes []).trans (.of_same (Stream.size_labels_bind _ w.nextLabel))).trans
      (ih _ _)
  | thenTarget _ ih => exact ih _ w
  | andThen _ _ ih ih' => exact (ih w).trans (ih' _ _)
  | @op _ _ _ mn =>
    rw [show Writer.op mn w = ((), { w with stream := w.stream.op mn }) from rfl, op_eq_emit]
    exact .of_same (congrArg Array.size (Stream.labels_emit ..))
  | emit | imm | zp | indY | abs | absY | tableX | branch | jump | callLabel =>
    exact .of_same (congrArg Array.size (Stream.labels_emit ..))
  | data => exact .of_same (congrArg Array.size (Stream.labels_data ..))
  | bind => exact .of_same (Stream.size_labels_bind ..)
  | loadAddress =>
    exact Workspace.Makes.trans (.of_same (congrArg Array.size (Stream.labels_emit ..)))
      (.of_same (congrArg Array.size (Stream.labels_emit ..)))
  | call | tailCall =>
    exact (w.require_makes _).trans (.of_same (congrArg Array.size (Stream.labels_emit ..)))

variable {far : LabelId → Prop} {w : Workspace} {U : List LabelId}

/-- An instruction on a near label, or on none. -/
theorem admits_of_near {arg : Arg} (hnear : w.Near far K)
    (h : arg.operand.label.isSome = true → arg.operand.label ∈ K)
    (hrelative : ∀ l, arg = .relative l → l ∈ K) : w.stream.Admits far arg :=
  ⟨fun hl => (hnear _ (h hl)).1, fun l hl => (hnear l (hrelative l hl)).2⟩

theorem label_lowByte {r : AddressRef} (h : (Arg.lowByte r).operand.label.isSome = true) :
    (Arg.lowByte r).operand.label = r.label := by
  simp only [Arg.operand, Operand.lowByte] at h ⊢
  split at h
  next hr => rw [if_pos hr]
  next => cases h

theorem label_highByte {r : AddressRef} (h : (Arg.highByte r).operand.label.isSome = true) :
    (Arg.highByte r).operand.label = r.label := by
  simp only [Arg.operand, Operand.highByte] at h ⊢
  split at h
  next hr => rw [if_pos hr]
  next => cases h

/-- A writer keeps the workspace tidy. -/
theorem Leaves.tidy_followed (h : Leaves R n e K M x N) (hw : w.Tidy far (M ++ U))
    (hnear : w.Near far K) (few : (x w).2.stream.labels.size < 4294967296) :
    (x w).2.Tidy far (N ++ U) ∧ (e = true → (x w).2.stream.Followed) := by
  induction h generalizing w with
  | done => exact ⟨hw, nofun⟩
  | thenLabel hf ih =>
    obtain ⟨htidy, hlabel⟩ := hw.labelled [] (Nat.lt_of_le_of_lt ((hf _).extends _).labels few)
    exact ih _ htidy ((hnear.keeps (w.labelled_extends []).toKeeps).cons hlabel) few
  | thenHere hf ih =>
    have hbound := Workspace.bound_extends (w.labelled []) w.nextLabel
    obtain ⟨htidy, hlabel⟩ := hw.labelled []
      (Nat.lt_of_le_of_lt (hbound.trans ((hf _).extends _)).labels few)
    have hnear' := (hnear.keeps (w.labelled_extends []).toKeeps).cons hlabel
    exact ih _ htidy.bind (hnear'.keeps hbound.toKeeps) few
  | thenTarget _ ih => exact ih _ hw hnear few
  | andThen hx hf ih ih' =>
    have hfirst := ih hw hnear (Nat.lt_of_le_of_lt ((hf _).extends _).labels few)
    exact ih' _ hfirst.1 (hnear.keeps (hx.extends w).toKeeps) few
  | @emit _ _ _ _ arg henc hplain =>
    refine hw.emitted (encode?_isSome henc) ⟨fun hsome => ?_, ?_⟩
    · rw [hplain] at hsome
      cases hsome
    · rintro l rfl hfar
      exact absurd ((hw.far l hfar).isSome.symm.trans hplain) nofun
  | @op _ _ _ mn henc =>
    rw [show Writer.op mn w = ((), { w with stream := w.stream.op mn }) from rfl, op_eq_emit]
    refine hw.emitted (encode?_isSome henc) (admits_of_near hnear ?_ ?_) <;>
      cases mn <;> simp <;> nofun
  | imm henc =>
    exact hw.emitted (a := .immediate _) (encode?_isSome henc)
      (admits_of_near hnear nofun nofun)
  | zp henc =>
    exact hw.emitted (a := .zeroPage _) (encode?_isSome henc)
      (admits_of_near hnear nofun nofun)
  | indY henc =>
    exact hw.emitted (a := .indirectY _) (encode?_isSome henc)
      (admits_of_near hnear nofun nofun)
  | abs henc =>
    exact hw.emitted (a := .absolute (.fixed _)) (encode?_isSome henc)
      (admits_of_near hnear nofun nofun)
  | absY henc =>
    exact hw.emitted (a := .absoluteY (.fixed _)) (encode?_isSome henc)
      (admits_of_near hnear nofun nofun)
  | @tableX _ _ _ _ l henc hl =>
    exact hw.emitted (a := .absoluteX (.ofLabel l)) (encode?_isSome henc)
      (admits_of_near hnear (fun _ => hl) nofun)
  | @branch _ _ _ _ l henc hl =>
    refine hw.emitted (a := .relative l) (encode?_isSome henc)
      (admits_of_near hnear (fun _ => hl) ?_)
    rintro l' ⟨⟩
    exact hl
  | @jump _ _ _ l hl | @callLabel _ _ _ l hl =>
    exact hw.emitted (a := .absolute (.ofLabel l)) rfl (admits_of_near hnear (fun _ => hl) nofun)
  | @loadAddress _ _ _ l hl =>
    have hlow := hw.emit (m := .lda) (a := .lowByte (.ofLabel l)) rfl
      (admits_of_near hnear (fun hsome => (label_lowByte hsome).symm ▸ hl) nofun)
    exact hlow.emitted (m := .ldx) (a := .highByte (.ofLabel l)) rfl
      (admits_of_near (hnear.keeps (w.emitted_extends .lda (.lowByte (.ofLabel l))).toKeeps)
        (fun hsome => (label_highByte hsome).symm ▸ hl) nofun)
  | @call _ _ _ id | @tailCall _ _ _ id =>
    have hcall := Workspace.emitted_extends (w.require id).1
    obtain ⟨htidy, hlabel⟩ := hw.require id
      (Nat.lt_of_le_of_lt (hcall _ (.absolute (.ofLabel (w.require id).2))).labels few)
    exact htidy.emitted (a := .absolute (.ofLabel _)) rfl ⟨fun _ => hlabel.1, nofun⟩
  | data hbytes =>
    exact ⟨hw.onStream (hw.stream.data _) (w.data_extends _).stream,
      fun _ => hw.stream.followed_data hbytes⟩
  | bind hl => exact ⟨Workspace.Tidy.bind (hw.perm (hl.perm.append_right _)), nofun⟩

end Writer

end Breadbin.Routine
